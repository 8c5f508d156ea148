import BnfSuppression.Proofs.PatchLines
import BnfSuppression.Proofs.Rewriting
import BnfSuppression.Proofs.Unusable

/-!
# Printed Patches

A run that is told so prints the patch of a change in front of the line that says what becomes of
the change. Without color, the patch is printed as one text, which loses the codes in it. Nothing is
put between its lines, so they can be told apart again only if they are complete.

## Main definitions

* `Terminal.HoldsCode`: a code starts somewhere in a text.
* `Terminal.DropsCodes`: what leaves just those texts alone that hold none.
* `Diff.IsChange`: a text is the lines of a patch, and gives one text from another.
* `CommandLine.Follows`: a run gets as far as following a command.
* `CommandLine.Alters`: the text of a grammar file before and after a change.
* `CommandLine.Concludes`: what is printed behind the patch.

## Main results

* `Terminal.dropCodes_eq_self_iff`: a text loses nothing exactly if it holds no code.
* `Terminal.dropsCodes_plain`: this holds of what the program uses.
* `CommandLine.Alters.out_of_suppress`: **what a suppression prints that shows the change**.
* `CommandLine.printed_isChange_iff`: **what is printed is the change exactly if no line without a
  line break is shown**, the name breaks no line, and there are no codes.
-/

namespace BnfSuppression.Terminal

variable {c : Char} {cs : List Char}

/-! ### Codes in texts -/

/-- A code starts somewhere in the text. -/
def HoldsCode (cs : List Char) : Prop :=
  ∃ rest, escape :: rest <:+ cs ∧ (afterCode? rest).isSome = true

/-- A text holds a code exactly if one starts at its first character or the rest holds one. -/
theorem holdsCode_cons :
    HoldsCode (c :: cs) ↔ (c = escape ∧ (afterCode? cs).isSome = true) ∨ HoldsCode cs := by
  simp only [HoldsCode, List.suffix_cons_iff, List.cons.injEq]
  constructor
  · rintro ⟨rest, ⟨rfl, rfl⟩ | hs, hcode⟩
    · exact .inl ⟨rfl, hcode⟩
    · exact .inr ⟨rest, hs, hcode⟩
  · rintro (⟨rfl, hcode⟩ | ⟨rest, hs, hcode⟩)
    · exact ⟨cs, .inl ⟨rfl, rfl⟩, hcode⟩
    · exact ⟨rest, .inr hs, hcode⟩

/-- Dropping codes never makes a text longer. -/
theorem length_dropCodes_le (cs : List Char) : (dropCodes cs).length ≤ cs.length := by
  fun_induction dropCodes cs with
  | case1 => exact Nat.le_refl _
  | case2 cs rest h ih =>
      have := length_afterCode? h
      simp only [List.length_cons]
      omega
  | case3 cs h ih => simpa using ih
  | case4 c cs h ih => simpa using ih

/-- **A text loses nothing exactly if it holds no code.** -/
theorem dropCodes_eq_self_iff : dropCodes cs = cs ↔ ¬ HoldsCode cs := by
  induction cs with
  | nil => simp [dropCodes, HoldsCode]
  | cons c cs ih =>
      rw [holdsCode_cons, dropCodes]
      by_cases hc : c = escape
      · rw [if_pos hc]
        split
        · next rest hcode =>
            have hlength := length_afterCode? hcode
            have hle := length_dropCodes_le rest
            simp only [hc, hcode, Option.isSome_some, and_self, true_or, not_true_eq_false,
              iff_false]
            intro heq
            have := congrArg List.length heq
            simp only [List.length_cons] at this
            omega
        · next hcode => simp [hcode, ih]
      · simp [hc, ih]

/-- What drops the codes of texts leaves those alone that hold none, and no others. -/
def DropsCodes (drop : String → String) : Prop :=
  ∀ text, drop text = text ↔ ¬ HoldsCode text.toList

/-- **What the program uses to drop codes does so.** -/
theorem dropsCodes_plain : DropsCodes plain := fun text => by
  rw [← dropCodes_eq_self_iff, plain, ← String.toList_inj, String.toList_ofList]

end BnfSuppression.Terminal

namespace BnfSuppression.Diff

open Text (IsComplete Unbroken)

variable {drop : String → String} {old new name : String}

/-! ### Texts made of patches -/

/-- The text is a patch, line by line: the lines are complete, and applying their hunks to the one
text gives the other. -/
def IsChange (printed : String) (p : List String) (old new : String) : Prop :=
  linesOf printed = p ∧ (∀ x ∈ linesOf printed, IsComplete x.toList) ∧
    applyPatch? (linesOf printed) old = some new

/-- A text that is different has a hunk in the patch. -/
theorem changes_ne_nil (hne : new ≠ old) : changes old new ≠ [] := by
  intro hnil
  have happly := applyPatch?_patch old new ""
  rw [patch, ← changes, hnil] at happly
  exact hne (Option.some.inj (by simpa [applyPatch?, readPatch?, applyHunks?, join_linesOf] using
    happly.symm))

/-- The lines of a text that was put together from lines are these, if they are complete. -/
theorem linesOf_join {p : List String} (h : Text.Joinable (p.map String.toList))
    (hc : ∀ x ∈ p, IsComplete x.toList) : linesOf (String.join p) = p := by
  have hlines := Text.lines_flatten_of_complete h fun x hx => by
    obtain ⟨y, hy, rfl⟩ := List.mem_map.1 (List.dropLast_subset _ hx)
    exact hc y hy
  rw [linesOf, String.toList_join, List.flatMap_def, hlines, List.map_map]
  simp [Function.comp_def]

/-- **A patch without its codes is the change exactly if it has none**, the name breaks no line, and
no line without a line break is shown. -/
theorem isChange_drop_iff (hdrop : Terminal.DropsCodes drop) (hne : new ≠ old) :
    IsChange (drop (String.join (patch old new name))) (patch old new name) old new ↔
      ¬ Terminal.HoldsCode (String.join (patch old new name)).toList ∧ Unbroken name.toList ∧
        HidesBare old new := by
  have hcomplete := @complete_patch_iff old new name
  rw [forall_prop_of_true (changes_ne_nil hne)] at hcomplete
  rw [← hcomplete, ← hdrop]
  constructor
  · rintro ⟨hlines, hc, -⟩
    refine ⟨?_, hlines ▸ hc⟩
    rw [← join_linesOf (drop _), hlines]
  · rintro ⟨hplain, hc⟩
    have hlines := linesOf_join (joinable_patch (hcomplete.1 hc).1) hc
    rw [IsChange, hplain, hlines]
    exact ⟨rfl, hc, applyPatch?_patch old new name⟩

end BnfSuppression.Diff

namespace BnfSuppression.CommandLine

open Files (Host)

variable {kit : Toolkit} {h : Host} {env : Environment} {args : List String} {s : Session}
  {k : Configuration} {command : Command} {outcome : Outcome} {settings : Settings} {t : Target}
  {c : Change} {before after : String}

/-! ### Runs that suppress -/

/-- A run gets as far as following a command. -/
def Follows (kit : Toolkit) (h : Host) (env : Environment) (args : List String) (s : Session)
    (k : Configuration) (command : Command) : Prop :=
  ∃ o name rest l, Starts kit h env args s o (some (name, rest)) ∧
    loadMerged kit.toml h (o.start? h) o.configFiles = (l, none) ∧ l.freeze = k ∧
    readCommand kit h name rest = .ok (.toDo command)

/-- The command is followed with the tools of the run. -/
theorem Follows.kit_eq (hf : Follows kit h env args s k command) : s.kit = kit := by
  obtain ⟨_, _, _, _, ⟨_, _, _, hsettle⟩, _⟩ := hf
  exact kit_of_settle hsettle

/-- A run prints what its command prints. -/
theorem Follows.out_eq (hf : Follows kit h env args s k command)
    (ho : s.follow k h command = .ok outcome) : (run kit h env args).out = outcome.out := by
  obtain ⟨o, name, rest, l, ⟨args', hoptions, hname, hsettle⟩, hl, rfl, hread⟩ := hf
  have hout (o : Outcome) : (o.reported s.shown).out = o.out := by
    rw [Outcome.reported]
    split <;> rfl
  rw [Options.start?] at hl
  obtain rfl := kit_of_settle hsettle
  simp only [run, hoptions, hname, hsettle, hout, Session.start, hl]
  simp only [Outcome.after, Session.command, hread, ho]

/-- A suppression changes the text of the grammar file: the text before and after it. -/
def Alters (h : Host) (settings : Settings) (t : Target) (c : Change) (before after : String) :
    Prop :=
  ∃ g element, openGrammar h t.path = .ok g ∧ select g t = .ok element ∧
    applied settings g (c.action t.check) element = .ok after ∧
    g.document.initial = before ∧ after ≠ before

/-! ### What is printed -/

/-- The line that says what becomes of a change. -/
def verdict (drop : String → String) (t : Target) (c : Change) (verb : String) : String :=
  drop (t.path.toString ++ ": " ++ verb ++ " '" ++ (c.action t.check).label ++ "' for " ++
    ("'" ++ t.check ++ "'") ++ "\n")

/-- What is printed behind the patch: what becomes of the change, unless it cannot be written. -/
inductive Concludes (drop : String → String) (h : Host) (t : Target) (c : Change)
    (after : String) : String → Prop
  | pending : c.apply = false → Concludes drop h t c after (verdict drop t c "would apply")
  | applied {h' : Host} : c.apply = true → h.writeText t.path after = .ok h' →
    Concludes drop h t c after (verdict drop t c "applied")
  | failed {e : Files.Trouble} : c.apply = true → h.writeText t.path after = .error e →
    Concludes drop h t c after ""

/-- **What a suppression without color prints that is told to show the change**: the patch without
its codes, and what becomes of the change. -/
theorem Alters.out_of_suppress (ha : Alters h settings t c before after)
    (hcolor : s.colorful = false) (hdiff : c.diff = true) :
    ∃ outcome conclusion, s.suppress settings h t c = .ok outcome ∧
      Concludes s.kit.dropCodes h t c after conclusion ∧ outcome.out =
        s.kit.dropCodes (String.join (Diff.patch before after t.path.toString)) ++ conclusion := by
  obtain ⟨g, element, hg, hselect, happlied, rfl, hne⟩ := ha
  have hshown (text : String) : s.shown text = s.kit.dropCodes text := by
    simp [Session.shown, hcolor]
  simp only [Session.suppress, hg, hselect, happlied, hdiff, Session.patchText, hcolor, hshown,
    Session.line, bind, Except.bind, if_neg hne, if_true]
  cases happly : c.apply with
  | false => exact ⟨_, _, rfl, .pending happly, rfl⟩
  | true =>
      cases hw : h.writeText t.path after with
      | error e => exact ⟨_, _, rfl, .failed happly hw, by simp⟩
      | ok h' => exact ⟨_, _, rfl, .applied happly hw, rfl⟩

/-- The arguments that show what suppressing a check for a rule would change. -/
def previewArguments : List String :=
  ["--no-color", "suppress", "g.bnf", "--check", "X", "--rule", "foo", "--diff"]

/-- A result that is there is the one that an option shows. -/
theorem of_toOption_eq_some {ε α : Type} {x : Except ε α} {a : α} (h : x.toOption = some a) :
    x = .ok a := by
  cases x with
  | error e => cases h
  | ok b => exact congrArg Except.ok (Option.some.inj h)

/-- **When the printed patch is the change**, with all tools that drop codes. A run without color
that shows a change prints the patch without its codes, and behind it what becomes of the change.
Applying the patch always gives the new text from the old one. But what is printed is the lines of
the patch, complete lines all, exactly if there is no code in it, the name of the file breaks no
line, and no hunk shows a last line that lacks its line break. -/
theorem printed_isChange_iff (hdrop : Terminal.DropsCodes kit.dropCodes)
    (hf : Follows kit h env args s k (.suppress t c)) (hcolor : s.colorful = false)
    (hdiff : c.diff = true) (ha : Alters h k.settings t c before after) :
    let p := Diff.patch before after t.path.toString
    let printed := kit.dropCodes (String.join p)
    (∃ conclusion, Concludes kit.dropCodes h t c after conclusion ∧
      (run kit h env args).out = printed ++ conclusion) ∧
    Diff.applyPatch? p before = some after ∧
    (Diff.IsChange printed p before after ↔
      ¬ Terminal.HoldsCode (String.join p).toList ∧ Text.Unbroken t.path.toString.toList ∧
        Diff.HidesBare before after) := by
  intro p printed
  obtain rfl := hf.kit_eq
  obtain ⟨outcome, conclusion, hsuppress, hc, hout⟩ := ha.out_of_suppress hcolor hdiff
  have hne : after ≠ before := by
    obtain ⟨-, -, -, -, -, -, hne⟩ := ha
    exact hne
  exact ⟨⟨conclusion, hc, (hf.out_eq hsuppress).trans hout⟩, Diff.applyPatch?_patch _ _ _,
    Diff.isChange_drop_iff hdrop hne⟩

/-- The last line of the patch lacks its line break, and what would become of the change is said in
that line. -/
theorem printed_isChange_iff_of_bare :
    let h := machine "g.bnf" "foo ::= bar"
    let s : Session := ⟨.standard, 0, Log.critical, false⟩
    let t : Target := ⟨.ofString "g.bnf", "X", some "foo", none⟩
    let c : Change := ⟨.rule, NodeKind.suppressible_rule, false, true⟩
    let p := Diff.patch "foo ::= bar" "// noinspection X\nfoo ::= bar" "g.bnf"
    Terminal.DropsCodes Terminal.plain ∧
    Follows .standard h .unset previewArguments s Layer.standard.freeze (.suppress t c) ∧
    Alters h Layer.standard.freeze.settings t c "foo ::= bar" "// noinspection X\nfoo ::= bar" ∧
    (run .standard h .unset previewArguments).out =
      "--- g.bnf (original)\n+++ g.bnf (suppressed)\n@@ -1 +1,2 @@\n+// noinspection X\n" ++
        " foo ::= barg.bnf: would apply 'Suppress for rule' for 'X'\n" ∧
    ¬ Diff.IsChange (Terminal.plain (String.join p)) p "foo ::= bar"
      "// noinspection X\nfoo ::= bar" := by
  intro h s t c p
  have hdecode : Text.decodeUtf8 "foo ::= bar".toUTF8 = .ok "foo ::= bar".toList := by
    decide +kernel
  have hread : h.readText (.ofString "g.bnf") = .ok "foo ::= bar" :=
    Host.readText_of_decodeUtf8 rfl hdecode
  have hopen : openGrammar h t.path = .ok (.ofText "foo ::= bar" "g.bnf" true) := by
    rw [openGrammar, hread]
    rfl
  have hf : Follows .standard h .unset previewArguments s Layer.standard.freeze (.suppress t c) :=
    ⟨⟨0, 0, none, true, [], false⟩, .suppress, previewArguments.drop 2, .standard,
      ⟨previewArguments.drop 1, rfl, rfl, rfl⟩, rfl, rfl, rfl⟩
  have ha : Alters h Layer.standard.freeze.settings t c "foo ::= bar"
      "// noinspection X\nfoo ::= bar" :=
    ⟨_, 1, hopen, of_toOption_eq_some (by decide +kernel), of_toOption_eq_some (by decide +kernel),
      rfl, by decide⟩
  obtain ⟨-, -, hiff⟩ := printed_isChange_iff Terminal.dropsCodes_plain hf rfl rfl ha
  refine ⟨Terminal.dropsCodes_plain, hf, ha, by decide +kernel, fun hchange => ?_⟩
  obtain ⟨-, -, -, hnew⟩ := hiff.1 hchange
  have hbare : Diff.Bare "// noinspection X\nfoo ::= bar" := ⟨"foo ::= bar", rfl, fun hc =>
    Text.IsLine.isComplete_iff ⟨"foo ::= bar".toList, [], rfl⟩ |>.1 hc (by decide)⟩
  exact hnew hbare ⟨0, 0, [⟨.added, "// noinspection X\n"⟩, ⟨.kept, "foo ::= bar"⟩]⟩
    (by decide +kernel) ⟨by decide +kernel, by decide +kernel⟩

end BnfSuppression.CommandLine
