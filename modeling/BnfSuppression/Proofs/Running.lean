import BnfSuppression.CommandLine.Run
import BnfSuppression.Proofs.FileAccess

/-!
# Runs and Files

A run of the program reads a grammar file, and at most writes that file once, with the text that an
action for one of its elements leaves. No other command writes anything.

## Main definitions

* `CommandLine.Saves`: a run writes the text that an action leaves to the file that it read.

## Main results

* `CommandLine.openGrammar_eq_ok`, `CommandLine.applied_eq_ok`: what a suppression reads and makes
  of it.
* `CommandLine.acts_run`: **a run leaves the files as they are, or saves**.
-/

namespace BnfSuppression.CommandLine

open Files (Host Path)

variable {h : Host} {s : Session} {settings : Settings} {t : Target} {c : Change} {o : Outcome}
  {p : Path} {g : Grammar} {a : Action} {element : ElementId} {text : String}

/-- A grammar that was opened is that of a text that was read. -/
theorem openGrammar_eq_ok (hg : openGrammar h p = .ok g) :
    ∃ text, h.readText p = .ok text ∧ g = .ofText text p.toString (h.isWritable p) := by
  simp only [openGrammar] at hg
  split at hg
  · cases hg
  · cases hg
  · split at hg <;> cases hg
    exact ⟨_, ‹_›, rfl⟩

/-- A text that an action leaves is that of the document after it. -/
theorem applied_eq_ok (ha : applied settings g a element = .ok text) :
    ∃ w, g.work.apply settings a (some element) = .ok w ∧ g.document.text w.forest = text := by
  simp only [applied] at ha
  split at ha
  · cases ha
  · split at ha <;> cases ha
    exact ⟨_, ‹_›, rfl⟩

/-- A run writes the text that an action leaves to the file that it read the grammar from, and is a
success. -/
def Saves (h : Host) (o : Outcome) : Prop :=
  ∃ p g settings a element text, openGrammar h p = .ok g ∧
    applied settings g a element = .ok text ∧ text ≠ g.document.initial ∧
    h.writeText p text = .ok o.host ∧ o.ending = .exit .success

/-- A run leaves the files as they are, or saves. -/
def Acts (h : Host) (o : Outcome) : Prop := o.host = h ∨ Saves h o

/-- What is printed has nothing to do with the files. -/
theorem Acts.congr {o' : Outcome} (ho : Acts h o) (hhost : o'.host = o.host)
    (hending : o'.ending = o.ending) : Acts h o' := by
  simp only [Acts, Saves, hhost, hending]
  exact ho

/-- A text printed before the errors of an outcome has nothing to do with the files. -/
theorem Acts.after (ho : Acts h o) (text : String) : Acts h (o.after text) := ho

/-- Reporting an outcome has nothing to do with the files. -/
theorem Acts.reported (ho : Acts h o) (shown : String → String) : Acts h (o.reported shown) := by
  refine ho.congr ?_ ?_ <;> rw [Outcome.reported] <;> split <;> rfl

/-- A run that just ends leaves the files as they are. -/
theorem acts_ofEnding (h : Host) (e : Ending) : Acts h (.ofEnding h e) := .inl rfl

/-! ### Commands -/

/-- Telling what is suppressed leaves the files as they are. -/
theorem Session.acts_of_status (ho : s.status settings h t = .ok o) : Acts h o := by
  obtain ⟨g, -, ho⟩ := of_bind_eq_ok ho
  split at ho
  · obtain ⟨element, -, ho⟩ := of_bind_eq_ok ho
    obtain ⟨suppressed, -, ho⟩ := of_bind_eq_ok ho
    obtain ⟨description, -, ho⟩ := of_bind_eq_ok ho
    cases ho
    exact .inl rfl
  · obtain ⟨lines, -, ho⟩ := of_bind_eq_ok ho
    cases ho
    exact .inl rfl

/-- Listing the actions leaves the files as they are. -/
theorem Session.acts_of_actions (ho : s.actions h t = .ok o) : Acts h o := by
  obtain ⟨g, -, ho⟩ := of_bind_eq_ok ho
  obtain ⟨element, -, ho⟩ := of_bind_eq_ok ho
  cases ho
  exact .inl rfl

/-- **A suppression leaves the files as they are, or saves.** -/
theorem Session.acts_of_suppress (ho : s.suppress settings h t c = .ok o) : Acts h o := by
  obtain ⟨g, hg, ho⟩ := of_bind_eq_ok ho
  obtain ⟨element, -, ho⟩ := of_bind_eq_ok ho
  obtain ⟨text, htext, ho⟩ := of_bind_eq_ok ho
  simp only at ho
  split at ho
  · cases ho
    exact .inl rfl
  · next hchanged =>
      split at ho
      · cases ho
        exact .inl rfl
      · cases hw : h.writeText t.path text <;> rw [hw] at ho <;> cases ho
        · exact .inl rfl
        · exact .inr ⟨t.path, g, settings, c.action t.check, element, text, hg, htext, hchanged,
            hw, rfl⟩

/-- A command leaves the files as they are, or saves. -/
theorem Session.acts_of_follow {k : Configuration} {command : Command}
    (ho : s.follow k h command = .ok o) : Acts h o := by
  cases command with
  | status t => exact acts_of_status ho
  | actions t => exact acts_of_actions ho
  | suppress t c => exact acts_of_suppress ho
  | dumpConfig =>
      cases ho
      exact .inl rfl
  | version =>
      cases ho
      exact .inl rfl

/-! ### Runs -/

/-- Whether a command was named, and whether it succeeds, the files stay as they are or it saves. -/
theorem Session.acts_command (s : Session) (k : Configuration) (h : Host)
    (command? : Option (CommandName × List String)) : Acts h (s.command k h command?) := by
  simp only [command]
  split
  · exact .inl rfl
  · split
    · exact acts_ofEnding h _
    · exact .inl rfl
    · split
      · next ho => exact acts_of_follow ho
      · exact acts_ofEnding h _

/-- From the options on, a run leaves the files as they are, or saves. -/
theorem Session.acts_start (s : Session) (h : Host) (o : Options)
    (command? : Option (CommandName × List String)) : Acts h (s.start h o command?) := by
  simp only [start]
  split
  · exact (acts_ofEnding h _).after _
  · exact (s.acts_command _ h command?).after _

/-- **A run leaves the files as they are, or saves.** -/
theorem acts_run (kit : Toolkit) (h : Host) (env : Environment) (args : List String) :
    Acts h (run kit h env args) := by
  simp only [run]
  split
  · exact (acts_ofEnding h _).reported _
  · exact .inl rfl
  · split
    · exact (acts_ofEnding h _).reported _
    · split
      · exact (acts_ofEnding h _).reported _
      · next s _ => exact (s.acts_start h _ _).reported _

end BnfSuppression.CommandLine
