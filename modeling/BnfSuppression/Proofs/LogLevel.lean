import BnfSuppression.Proofs.Numerals
import BnfSuppression.Proofs.Unusable

/-!
# The Log Level of the Environment

The environment may ask for a log level, by a number or by a name. What it says is compared without
the blanks around it and in capitals. A word of digits that denotes no integer is the only one that
cannot be tolerated: it ends every run that gets as far as setting up its log. The level that is
asked for wins over that of the verbosity, unless it is zero, which counts as none.

## Main definitions

* `Log.word`, `Log.asked`: the word that the environment says, and the level that a word asks for.
* `CommandLine.Opens`: arguments with which a run gets as far as setting up its log.

## Main results

* `Log.environmentLevel_of_unreadable`, `Log.environmentLevel_of_readable`: what becomes of each
  word.
* `CommandLine.blamesLog_run_iff`: which runs are ended by the log level.
* `CommandLine.logLevel_tolerated_iff`: **every word is tolerated but those of digits that denote no
  integer**.
* `CommandLine.logLevel_wins_iff`: **the level that is asked for wins unless it is zero**.
-/

namespace BnfSuppression

namespace Log

variable {value : String}

/-! ### What the environment asks for -/

/-- The word that the environment says. -/
def word (value : String) : List Char := Text.capitals (Text.strip value.toList)

/-- The level that a word asks for: a number asks for itself, and a name for its level. -/
def asked (word : List Char) : Option Level :=
  if word ≠ [] ∧ word.all Text.isDecimal = true then some (Text.decimalNumber word)
  else words.lookup (String.ofList word)

/-- What the environment says is read as a number or looked up as a name. -/
theorem environmentLevel_eq (value : String) : environmentLevel (some value) =
    if word value ≠ [] ∧ (word value).all Text.isDigitLike = true then
      (Text.readInteger 10 (word value)).map some
    else .ok (words.lookup (String.ofList (word value))) := by
  simp only [environmentLevel, word]
  refine if_congr ?_ rfl rfl
  simp

/-- **A word of digits that denotes no integer fails.** -/
theorem environmentLevel_of_unreadable (h : Text.Unreadable (word value)) :
    environmentLevel (some value) = .error (Text.refusal (word value)) := by
  rw [environmentLevel_eq, if_pos ⟨h.ne_nil, List.all_eq_true.2 h.digits⟩,
    Text.readInteger_of_unreadable h]
  rfl

/-- **Any other word asks for its level.** -/
theorem environmentLevel_of_readable (h : ¬ Text.Unreadable (word value)) :
    environmentLevel (some value) = .ok (asked (word value)) := by
  rw [environmentLevel_eq]
  split
  · next hword =>
      obtain ⟨hne, hdigits⟩ := hword
      rw [List.all_eq_true] at hdigits
      have hdecimal : ∀ c ∈ word value, Text.isDecimal c = true := fun c hc =>
        Bool.eq_true_of_not_eq_false fun hno => h ⟨hne, hdigits, .inl ⟨c, hc, hno⟩⟩
      have hlength : (word value).length ≤ Text.maxDecimalDigits :=
        Nat.not_lt.1 fun hlong => h ⟨hne, hdigits, .inr hlong⟩
      rw [Text.readInteger_of_isDecimal hne hdecimal hlength, asked,
        if_pos ⟨hne, List.all_eq_true.2 hdecimal⟩]
      rfl
  · next hword =>
      rw [asked, if_neg]
      rintro ⟨hne, hdecimal⟩
      rw [List.all_eq_true] at hdecimal
      exact hword ⟨hne, List.all_eq_true.2 fun c hc => Text.isDigitLike_of_isDecimal
        (hdecimal c hc)⟩

/-- The environment's word is understood or ignored unless it is a numeral that cannot be read. -/
theorem exists_environmentLevel_iff :
    (∃ level?, environmentLevel (some value) = .ok level?) ↔ ¬ Text.Unreadable (word value) := by
  by_cases h : Text.Unreadable (word value)
  · simp [environmentLevel_of_unreadable h, h]
  · simp [environmentLevel_of_readable h, h]

/-! ### Setting up a log -/

/-- A log for which no level was requested has the one that the environment asks for, else the
highest. It fails as reading the environment does. -/
theorem setup_none (value? : Option String) : setup none value? =
    match environmentLevel value? with
    | .error e => .error e
    | .ok asked? => .ok (.ofLevel ((orElse asked? none).getD critical)) := by
  rw [setup]
  cases environmentLevel value? <;> rfl

/-- The log is set up from the environment unless its word is a numeral that cannot be read. -/
theorem exists_setup_iff : (∃ s, setup none (some value) = .ok s) ↔
    ¬ Text.Unreadable (word value) := by
  rw [← exists_environmentLevel_iff, setup_none]
  cases environmentLevel (some value) <;> simp

variable {asked? other? : Option Level} {level : Level}

/-- A level of zero counts as none. -/
theorem orElse_of_zero (h : ∀ level, asked? = some level → level = 0) :
    orElse asked? other? = other? := by
  cases asked? with
  | none => rfl
  | some level => rw [orElse, if_pos (h level rfl)]

/-- A level other than zero is taken, whatever else is asked for. -/
theorem orElse_of_ne_zero (h : level ≠ 0) : orElse (some level) other? = some level := by
  rw [orElse, if_neg h]

/-- If nothing is taken although a level was asked for, this level was zero. -/
theorem eq_zero_of_orElse_eq_none (h : orElse asked? other? = none) (hs : asked? = some level) :
    level = 0 := by
  by_contra hne
  rw [hs, orElse_of_ne_zero hne] at h
  cases h

end Log

namespace CommandLine

open Files (Host Path)

variable {kit : Toolkit} {h : Host} {env : Environment} {args : List String} {s : Session}
  {t : Target} {settings : Settings}

/-! ### Runs that are ended by the log level -/

/-- The arguments say what to do, and do not contradict each other: a run gets as far as setting up
its log. -/
def Opens (kit : Toolkit) (h : Host) (args : List String) : Prop :=
  ∃ o rest command? verbosity, readOptions kit h args = .ok (.toDo ⟨o, rest⟩) ∧
    readCommandName kit rest = .ok command? ∧ resolveVerbosity o.verbose o.quiet = some verbosity

/-- The run was broken off by the log level. -/
def Ending.BlamesLog : Ending → Prop
  | .collapse (.logLevel _) => True
  | .collapse (.configuration _) | .collapse (.lookup _) | .collapse (.edit _) => False
  | .exit _ | .report _ _ | .misuse => False

/-- A run was broken off by the log level exactly if its ending says so, with a cause. -/
theorem Ending.blamesLog_iff {e : Ending} :
    e.BlamesLog ↔ ∃ cause, e = .collapse (.logLevel cause) := by
  constructor
  · intro h
    match e, h with
    | .collapse (.logLevel cause), _ => exact ⟨cause, rfl⟩
  · rintro ⟨cause, rfl⟩
    trivial

/-- A step is not broken off by the log level, and what it gives is good. -/
def Spares {α : Type} (good : α → Prop) : Except Ending α → Prop
  | .ok a => good a
  | .error e => ¬ e.BlamesLog

/-- A sequence of steps none of which is broken off by the log level is not either. -/
theorem Spares.bind {α β : Type} {good : β → Prop} {x : Except Ending α}
    {f : α → Except Ending β} (hx : Spares (fun _ => True) x) (hf : ∀ a, Spares good (f a)) :
    Spares good (x >>= f) := by
  cases x with
  | error e => exact hx
  | ok a => exact hf a

/-- Opening a grammar file may fail, but not by the log level. -/
theorem spares_openGrammar (h : Host) (p : Path) : Spares (fun _ => True) (openGrammar h p) := by
  simp only [openGrammar]
  split
  · exact id
  · exact id
  · split
    · exact id
    · exact id
    · trivial

/-- Choosing the element of a command may fail, but not by the log level. -/
theorem spares_select (g : Grammar) (t : Target) : Spares (fun _ => True) (select g t) := by
  refine Spares.bind ?_ fun rule? => ?_
  · rw [selectRule]
    split
    · trivial
    · split
      · trivial
      · exact id
  · split
    · trivial
    · split
      · trivial
      · exact id

/-- A fault of an edit is not one of the log level. -/
theorem spares_orCollapse {α : Type} (x : Except Fault α) :
    Spares (fun _ => True) (orCollapse x) := by
  cases x with
  | error e => exact id
  | ok a => trivial

/-- Applying an action may fail, but not by the log level. -/
theorem spares_applied (settings : Settings) (g : Grammar) (a : Action) (element : ElementId) :
    Spares (fun _ => True) (applied settings g a element) := by
  simp only [applied]
  split
  · exact id
  · split
    · trivial
    · exact id
    · exact id

/-- If no step is broken off by the log level, then doing it for each member of a list is not
either. -/
theorem spares_mapM {α β : Type} {f : α → Except Ending β} (hf : ∀ a, Spares (fun _ => True) (f a))
    (as : List α) : Spares (fun _ => True) (as.mapM f) := by
  induction as with
  | nil => trivial
  | cons a as ih =>
      rw [List.mapM_cons]
      exact (hf a).bind fun _ => ih.bind fun _ => trivial

/-- The outcome is not that of a run broken off by the log level. -/
def Outcome.Spared (o : Outcome) : Prop := ¬ o.ending.BlamesLog

/-- Telling what is suppressed is never broken off by the log level. -/
theorem Session.spares_status (s : Session) (settings : Settings) (h : Host) (t : Target) :
    Spares Outcome.Spared (s.status settings h t) := by
  refine (spares_openGrammar h t.path).bind fun g => ?_
  simp only
  split
  · exact (spares_select g t).bind fun _ => (spares_orCollapse _).bind fun _ =>
      (spares_orCollapse _).bind fun _ => id
  · exact (spares_mapM (fun _ => spares_orCollapse _) _).bind fun _ => id

/-- Listing the actions is never broken off by the log level. -/
theorem Session.spares_actions (s : Session) (h : Host) (t : Target) :
    Spares Outcome.Spared (s.actions h t) :=
  (spares_openGrammar h t.path).bind fun g => (spares_select g t).bind fun _ => id

/-- Suppressing a check is never broken off by the log level. -/
theorem Session.spares_suppress (s : Session) (settings : Settings) (h : Host) (t : Target)
    (c : Change) : Spares Outcome.Spared (s.suppress settings h t c) := by
  refine (spares_openGrammar h t.path).bind fun g => (spares_select g t).bind fun element =>
    (spares_applied settings g _ element).bind fun text => ?_
  simp only
  split
  · exact id
  · split
    · exact id
    · cases h.writeText t.path text <;> exact id

/-- **No command is broken off by the log level.** -/
theorem Session.spares_follow (s : Session) (k : Configuration) (h : Host) (command : Command) :
    Spares Outcome.Spared (s.follow k h command) := by
  cases command with
  | status t => exact s.spares_status k.settings h t
  | actions t => exact s.spares_actions h t
  | suppress t c => exact s.spares_suppress k.settings h t c
  | dumpConfig => exact id
  | version => exact id

/-- A wrong use of the program ends it, but not by the log level. -/
theorem Misuse.not_blamesLog (m : Misuse) : ¬ m.ending.BlamesLog := by
  cases m <;> exact id

/-- Once the log is set up, no command is broken off by the log level. -/
theorem Session.spared_command (s : Session) (k : Configuration) (h : Host)
    (command? : Option (CommandName × List String)) : (s.command k h command?).Spared := by
  simp only [command]
  split
  · exact id
  · split
    · exact Misuse.not_blamesLog _
    · exact id
    · next command _ =>
        have hspares := s.spares_follow k h command
        split <;> next ho => rwa [ho] at hspares

/-- Once the log is set up, the rest of the run is not broken off by it. -/
theorem Session.spared_start (s : Session) (h : Host) (o : Options)
    (command? : Option (CommandName × List String)) : (s.start h o command?).Spared := by
  simp only [start]
  split
  · rw [Outcome.Spared, Outcome.after, Outcome.ofEnding, loadEnding]
    split <;> exact id
  · exact s.spared_command _ h command?

/-- Settling a run whose options do not contradict each other ends it only with its log. -/
theorem settle_of_resolveVerbosity {o : Options} {verbosity : Verbosity}
    (hv : resolveVerbosity o.verbose o.quiet = some verbosity) :
    settle kit env o = match setupLog verbosity env.logLevel? with
      | .error e => .error (.collapse (.logLevel e))
      | .ok log => .ok ⟨kit, verbosity, log.level,
          Terminal.isColorful o.colorMode env.forceColor? env.noColor? env.isTerminal⟩ := by
  simp only [settle, hv]
  cases setupLog verbosity env.logLevel? <;> rfl

/-- The log of a run: it fails as reading the environment does, and otherwise has the level that is
asked for, else that of the verbosity, else the highest. -/
theorem setupLog_eq (verbosity : Verbosity) (value? : Option String) :
    setupLog verbosity value? = match Log.environmentLevel value? with
      | .error e => .error e
      | .ok asked? => .ok (.ofLevel
          ((Log.orElse asked? (logLevelFor verbosity)).getD Log.critical)) := by
  rw [setupLog]
  cases he : Log.environmentLevel value? with
  | error e => rfl
  | ok asked? =>
      change Log.setup (Log.orElse asked? (logLevelFor verbosity)) value? =
        .ok (.ofLevel ((Log.orElse asked? (logLevelFor verbosity)).getD Log.critical))
      cases hlevel : Log.orElse asked? (logLevelFor verbosity) with
      | some level => rfl
      | none =>
          -- no level is handed on, so the environment is asked once more
          have hnone : Log.orElse asked? none = none :=
            Log.orElse_of_zero fun _ => Log.eq_zero_of_orElse_eq_none hlevel
          rw [Log.setup_none, he]
          simp only [hnone]

/-- Reporting an outcome does not change why the run ended. -/
theorem blamesLog_reported (o : Outcome) (shown : String → String) :
    (o.reported shown).ending.BlamesLog ↔ o.ending.BlamesLog := by
  rw [ending_reported]

/-- Settling a run ends it with its log exactly if the environment cannot be tolerated. -/
theorem settle_cases {o : Options} {verbosity : Verbosity}
    (hv : resolveVerbosity o.verbose o.quiet = some verbosity) :
    (∃ e, settle kit env o = .error (.collapse (.logLevel e)) ∧
      ∃ value, env.logLevel? = some value ∧ Text.Unreadable (Log.word value)) ∨
    (∃ s, settle kit env o = .ok s) ∧
      ¬ ∃ value, env.logLevel? = some value ∧ Text.Unreadable (Log.word value) := by
  rw [settle_of_resolveVerbosity hv, setupLog_eq]
  cases hvalue : env.logLevel? with
  | none => exact .inr ⟨⟨_, rfl⟩, by simp⟩
  | some value =>
      by_cases hword : Text.Unreadable (Log.word value)
      · rw [Log.environmentLevel_of_unreadable hword]
        exact .inl ⟨_, rfl, value, rfl, hword⟩
      · rw [Log.environmentLevel_of_readable hword]
        exact .inr ⟨⟨_, rfl⟩, by simpa using hword⟩

/-- **Which runs are ended by the log level**: those that get as far as setting up their log, where
the environment says a word of digits that denotes no integer. -/
theorem blamesLog_run_iff : (run kit h env args).ending.BlamesLog ↔
    Opens kit h args ∧ ∃ value, env.logLevel? = some value ∧ Text.Unreadable (Log.word value) := by
  have hmisuse (m : Misuse) : ¬ ((Outcome.ofEnding h m.ending).reported id).ending.BlamesLog :=
    fun hb => m.not_blamesLog ((blamesLog_reported _ _).1 hb)
  simp only [run]
  cases hoptions : readOptions kit h args with
  | error m => simpa [Opens, hoptions] using hmisuse m
  | ok asked =>
      cases asked with
      | help =>
          have hhelp : ¬ (helpOutcome h).ending.BlamesLog := id
          simpa [Opens, hoptions] using hhelp
      | toDo opening =>
          obtain ⟨o, rest⟩ := opening
          cases hname : readCommandName kit rest with
          | error m => simpa [Opens, hoptions, hname] using hmisuse m
          | ok command? =>
              cases hv : resolveVerbosity o.verbose o.quiet with
              | none =>
                  have hsettle : settle kit env o = .error (.report .usage bothMessage) := by
                    simp only [settle, hv]
                  have hreport : ¬ (Ending.report .usage bothMessage).BlamesLog := id
                  simpa [Opens, hoptions, hname, hv, hsettle, blamesLog_reported,
                    Outcome.ofEnding] using hreport
              | some verbosity =>
                  have hopens : Opens kit h args :=
                    ⟨o, rest, command?, verbosity, hoptions, hname, hv⟩
                  rcases @settle_cases kit env o _ hv with ⟨e, he, hword⟩ | ⟨⟨s, hs⟩, hword⟩
                  · simp only [hname, he, blamesLog_reported]
                    exact iff_of_true trivial ⟨hopens, hword⟩
                  · simp only [hname, hs, blamesLog_reported]
                    exact iff_of_false (s.spared_start h o command?) fun hb => hword hb.2

/-- **Which words are tolerated.** Reading a word asks for the level that a number or a name stands
for and for none with any other word, unless the word is one of digits that denotes no integer;
exactly then it fails, and so does setting up a log for which no level was requested. A run is ended
by the log level exactly if it gets as far as setting up its log with such a word. -/
theorem logLevel_tolerated_iff (value : String) :
    ((∃ level?, Log.environmentLevel (some value) = .ok level?) ↔
      ¬ Text.Unreadable (Log.word value)) ∧
    (∀ level?, Log.environmentLevel (some value) = .ok level? →
      level? = Log.asked (Log.word value)) ∧
    ((∃ s, Log.setup none (some value) = .ok s) ↔ ¬ Text.Unreadable (Log.word value)) ∧
    ∀ kit h env args, env.logLevel? = some value →
      ((∃ cause, (run kit h env args).ending = .collapse (.logLevel cause)) ↔
        Opens kit h args ∧ Text.Unreadable (Log.word value)) := by
  refine ⟨Log.exists_environmentLevel_iff, fun level? hlevel => ?_, Log.exists_setup_iff,
    fun kit h env args hvalue => ?_⟩
  · have hword := Log.exists_environmentLevel_iff.1 ⟨level?, hlevel⟩
    rw [Log.environmentLevel_of_readable hword] at hlevel
    exact (Except.ok.inj hlevel).symm
  · rw [← Ending.blamesLog_iff, blamesLog_run_iff, hvalue]
    simp

/-- A superscript ends a run of any command, while digits of another script ask for their number. -/
theorem logLevel_tolerated_iff_of_superscript :
    let h : Host := ⟨.ofFiles [] [], [], [], [], []⟩
    (¬ ∃ level?, Log.environmentLevel (some "²") = .ok level?) ∧
      (∃ cause, (run .standard h ⟨some "²", none, none, false⟩ ["version"]).ending =
        .collapse (.logLevel cause)) ∧
      Log.environmentLevel (some " ٣٠ ") = .ok (some 30) := by
  intro h
  have hword : Log.word "²" = ['²'] := by decide +kernel
  have hsuperscript : Text.Unreadable (Log.word "²") := by
    rw [hword]
    have hdigit : Text.isDigitLike '²' = true := by decide
    exact ⟨by simp, by simp [hdigit], .inl ⟨'²', by simp, by decide⟩⟩
  obtain ⟨hreads, -, -, hrun⟩ := logLevel_tolerated_iff "²"
  obtain ⟨-, hasked, -, -⟩ := logLevel_tolerated_iff " ٣٠ "
  have hopens : Opens .standard h ["version"] := ⟨_, _, _, _, rfl, rfl, rfl⟩
  have hthirty : Log.asked (Log.word " ٣٠ ") = some 30 := by decide +kernel
  refine ⟨fun hok => hreads.1 hok hsuperscript,
    (hrun .standard h _ _ rfl).2 ⟨hopens, hsuperscript⟩, ?_⟩
  cases hlevel : Log.environmentLevel (some " ٣٠ ") with
  | error e => cases hlevel
  | ok level? => rw [hasked level? hlevel, hthirty]

/-! ### Precedence -/

/-- No verbosity asks for a level of zero. -/
theorem getD_logLevelFor_ne_zero (verbosity : Verbosity) :
    (logLevelFor verbosity).getD Log.critical ≠ 0 := by
  rw [logLevelFor]
  split
  · decide
  · split <;> decide

/-- **The level that is asked for wins unless it is zero.** It then is the level of a run, whatever
its verbosity, and of a log for which no level was requested. If it is zero, or if none is asked
for, the level of a run is that of its verbosity or the highest, and that of the log the highest. -/
theorem logLevel_wins_iff {value? : Option String} {asked? : Option Log.Level}
    {verbose quiet : Int} {verbosity : Verbosity}
    (hasked : Log.environmentLevel value? = .ok asked?)
    (hv : resolveVerbosity verbose quiet = some verbosity) :
    ∃ ofRun plain, setupLog verbosity value? = .ok ofRun ∧ Log.setup none value? = .ok plain ∧
      (∀ level, asked? = some level →
        (ofRun.level = level ↔ level ≠ 0) ∧ (plain.level = level ↔ level ≠ 0)) ∧
      ((∀ level, asked? = some level → level = 0) →
        ofRun.level = (logLevelFor verbosity).getD Log.critical ∧ plain.level = Log.critical) ∧
      ∀ kit env o, env.logLevel? = value? → o.verbose = verbose → o.quiet = quiet →
        ∃ s, settle kit env o = .ok s ∧ s.log = ofRun.level := by
  have hrun : setupLog verbosity value? =
      .ok (.ofLevel ((Log.orElse asked? (logLevelFor verbosity)).getD Log.critical)) := by
    rw [setupLog_eq, hasked]
  have hplain : Log.setup none value? =
      .ok (.ofLevel ((Log.orElse asked? none).getD Log.critical)) := by
    rw [Log.setup_none, hasked]
  refine ⟨_, _, hrun, hplain, fun level hlevel => ?_, fun hzero => ?_,
    fun kit env o henv hverbose hquiet => ?_⟩
  · subst hlevel
    by_cases hzero : level = 0
    · subst hzero
      have hnone {other? : Option Log.Level} : Log.orElse (some 0) other? = other? :=
        Log.orElse_of_zero fun level hl => (Option.some.inj hl).symm
      rw [hnone, hnone]
      exact ⟨iff_of_false (getD_logLevelFor_ne_zero verbosity) (by simp),
        iff_of_false (by decide) (by simp)⟩
    · rw [Log.orElse_of_ne_zero hzero, Log.orElse_of_ne_zero hzero]
      exact ⟨iff_of_true rfl hzero, iff_of_true rfl hzero⟩
  · rw [Log.orElse_of_zero hzero, Log.orElse_of_zero hzero]
    exact ⟨rfl, rfl⟩
  · subst henv hverbose hquiet
    rw [settle_of_resolveVerbosity hv, hrun]
    exact ⟨_, rfl, rfl⟩

/-- A level of seven wins over the greatest verbosity, and the name of the level zero over none. -/
theorem logLevel_wins_iff_of_lowest :
    let o : Options := ⟨3, 0, none, true, [], false⟩
    (∃ s, settle .standard ⟨some "7", none, none, false⟩ o = .ok s ∧ s.log = 7) ∧
      ∃ s, settle .standard ⟨some "notset", none, none, false⟩ o = .ok s ∧ s.log ≠ 0 := by
  intro o
  have hseven : Log.environmentLevel (some "7") = .ok (some 7) := rfl
  have hzero : Log.environmentLevel (some "notset") = .ok (some 0) := rfl
  have hv : resolveVerbosity (3 : Nat) (0 : Nat) = some 3 := rfl
  constructor
  · obtain ⟨ofRun, _, -, -, hwins, -, hsettle⟩ := logLevel_wins_iff hseven hv
    obtain ⟨s, hs, hlog⟩ := hsettle .standard ⟨some "7", none, none, false⟩ o rfl rfl rfl
    exact ⟨s, hs, hlog.trans ((hwins 7 rfl).1.2 (by decide))⟩
  · obtain ⟨ofRun, _, -, -, hwins, -, hsettle⟩ := logLevel_wins_iff hzero hv
    obtain ⟨s, hs, hlog⟩ := hsettle .standard ⟨some "notset", none, none, false⟩ o rfl rfl rfl
    exact ⟨s, hs, fun hnone => (hwins 0 rfl).1.1 (hlog.symm.trans hnone) rfl⟩

end CommandLine

end BnfSuppression
