import BnfSuppression.CommandLine.Run
import BnfSuppression.Proofs.Search

/-!
# Configuration Files That Cannot Be Used

A configuration file may be missing, unreadable or not well-formed. On the way up such a file is
passed over, and a file that was named is reported. Bytes that spell no text, and keys given twice
in a section, are no such failure: they end the search, and a run with it. So the search and the
report work exactly where the files can be looked up and are legible.

## Main definitions

* `CommandLine.Starts`: a run that gets as far as loading its configuration.

## Main results

* `loadMerged_append`, `loadMerged_of_not_searchable`: how a loading goes on after the search.
* `CommandLine.Starts.ending_of_load`, `CommandLine.Starts.ending_of_not_searchable`: how a run
  ends.
* `CommandLine.unusable_handled_iff`: **when unusable files are passed over and reported**.
-/

namespace BnfSuppression

open Files (Host Path Place)

variable {toml : Toml.Format} {h : Host} {p : Path} {e : LoadFailure}

/-! ### Loading files -/

/-- Loading a layer fails exactly if loading the table of the file does, and in the same way. -/
theorem load_eq_error_iff : Layer.load toml h p = .error e ↔ loadTable toml h p = .error e := by
  rw [Layer.load]
  cases loadTable toml h p <;> simp [bind, Except.bind, pure, Except.pure]

/-- A layer can be loaded, or found missing, exactly if the table of the file can be loaded. -/
theorem exists_load_iff :
    (∃ l?, Layer.load toml h p = .ok l?) ↔ ∃ t, loadTable toml h p = .ok t := by
  cases hl : Layer.load toml h p with
  | error e => simp [load_eq_error_iff.1 hl]
  | ok l? =>
      cases ht : loadTable toml h p with
      | error e => simp [load_eq_error_iff.2 ht] at hl
      | ok t => simp

/-- **The search that a loading starts with**, if it does: all files that are found can be
loaded. -/
theorem discover?_cases (toml : Toml.Format) (h : Host) (start? : Option Path) :
    (∃ found, start?.elim (.ok []) (discover toml h) = .ok found ∧
      (∀ start ∈ start?, SearchableFrom toml h start) ∧
      ∀ q ∈ found, ∃ l?, Layer.load toml h q = .ok l?) ∨
    ∃ e, start?.elim (.ok []) (discover toml h) = .error e ∧ e.isReported = false ∧
      ∃ start ∈ start?, ¬ SearchableFrom toml h start := by
  cases start? with
  | none => exact .inl ⟨[], rfl, by simp, by simp⟩
  | some start =>
      rcases discover_cases toml h start with
        ⟨place, first, rest, hplace, -, -, hs, hfound⟩ | ⟨e, he, hr, hs⟩
      · refine .inl ⟨_, hfound, by simpa using ⟨place, hplace, hs⟩, fun q hq => ?_⟩
        obtain ⟨directory, -, hq⟩ := List.mem_flatMap.1 hq
        exact exists_load_iff.2 (exists_table_of_mem_configFiles hq)
      · exact .inr ⟨e, he, hr, start, rfl, hs⟩

/-- Laying layers over each other goes on behind files that can be loaded. -/
theorem mergeFiles_append {ps : List Path} (hp : ∀ p ∈ ps, ∃ l?, Layer.load toml h p = .ok l?)
    (l : Layer) (qs : List Path) :
    mergeFiles toml h l (ps ++ qs) = mergeFiles toml h (mergeFiles toml h l ps).1 qs := by
  induction ps generalizing l with
  | nil => rfl
  | cons p ps ih =>
      obtain ⟨l?, hl⟩ := hp p (by simp)
      have ih := ih fun p hm => hp p (List.mem_cons_of_mem _ hm)
      rw [List.cons_append, mergeFiles, mergeFiles, hl]
      cases l? with
      | none => exact ih l
      | some upper => exact ih (l.merge upper)

/-- Loading goes on behind files that can be loaded, if the search works. -/
theorem loadMerged_append {start? : Option Path} {good : List Path}
    (hs : ∀ start ∈ start?, SearchableFrom toml h start)
    (hgood : ∀ q ∈ good, ∃ l?, Layer.load toml h q = .ok l?) :
    ∃ lower, ∀ rest, loadMerged toml h start? (good ++ rest) = mergeFiles toml h lower rest := by
  rcases discover?_cases toml h start? with ⟨found, hf, -, hfound⟩ | ⟨-, -, -, start, hstart, hno⟩
  · refine ⟨(mergeFiles toml h .standard (found ++ good)).1, fun rest => ?_⟩
    have hloads : ∀ q ∈ found ++ good, ∃ l?, Layer.load toml h q = .ok l? :=
      List.forall_mem_append.2 ⟨hfound, hgood⟩
    simp only [loadMerged, hf]
    rw [← List.append_assoc, mergeFiles_append hloads]
  · exact absurd (hs start hstart) hno

/-- Loading fails with a search that does not work. -/
theorem loadMerged_of_not_searchable {start? : Option Path} {start : Path} (hstart : start ∈ start?)
    (hs : ¬ SearchableFrom toml h start) (further : List Path) :
    ∃ e, (loadMerged toml h start? further).2 = some e ∧ e.isReported = false := by
  rcases discover?_cases toml h start? with ⟨-, -, hyes, -⟩ | ⟨e, he, hr, -⟩
  · exact absurd (hyes start hstart) hs
  · exact ⟨e, by rw [loadMerged, he], hr⟩

namespace CommandLine

variable {kit : Toolkit} {env : Environment} {args : List String} {s : Session} {o : Options}
  {command? : Option (CommandName × List String)}

/-! ### Runs -/

/-- A run with these options and this command gets as far as loading its configuration. -/
def Starts (kit : Toolkit) (h : Host) (env : Environment) (args : List String) (s : Session)
    (o : Options) (command? : Option (CommandName × List String)) : Prop :=
  ∃ rest, readOptions kit h args = .ok (.toDo ⟨o, rest⟩) ∧
    readCommandName kit rest = .ok command? ∧ settle kit env o = .ok s

/-- Where a run starts to look for configuration files, if it does. -/
def Options.start? (o : Options) (h : Host) : Option Path :=
  if o.noConfig then none else some (.ofPlace h.here)

/-- A session works with the tools that it was settled with. -/
theorem kit_of_settle (hs : settle kit env o = .ok s) : s.kit = kit := by
  simp only [settle] at hs
  split at hs
  · cases hs
  · obtain ⟨log, -, hs⟩ := of_bind_eq_ok hs
    cases hs
    rfl

/-- Reporting an outcome does not change how the run ended. -/
theorem ending_reported (o : Outcome) (shown : String → String) :
    (o.reported shown).ending = o.ending := by
  rw [Outcome.reported]
  split <;> rfl

/-- **What becomes of a run whose configuration cannot be loaded.** -/
theorem Starts.ending_of_failure (hs : Starts kit h env args s o command?)
    (he : (loadMerged kit.toml h (o.start? h) o.configFiles).2 = some e) :
    (run kit h env args).ending = loadEnding e ∧ (e.isReported = true →
      ∃ log, (run kit h env args).err = log ++ s.shown (reportLine e.message)) := by
  obtain ⟨rest, hoptions, hname, hsettle⟩ := hs
  obtain ⟨l, hl⟩ : ∃ l, loadMerged kit.toml h (o.start? h) o.configFiles = (l, some e) :=
    ⟨_, Prod.ext rfl he⟩
  have hrun : run kit h env args = ((Outcome.ofEnding h (loadEnding e)).after
      (s.loggedDiagnostics l.diagnostics)).reported s.shown := by
    rw [Options.start?] at hl
    simp only [run, hoptions, hname, hsettle, Session.start, kit_of_settle hsettle, hl]
  rw [hrun]
  refine ⟨ending_reported _ _, fun hr => ⟨s.loggedDiagnostics l.diagnostics, ?_⟩⟩
  simp [Outcome.reported, Outcome.after, Outcome.ofEnding, loadEnding, hr]

/-- A run whose search works ends with the first file that was named and gives no layer: it is
reported if it is legible. -/
theorem Starts.ending_of_load (hs : Starts kit h env args s o command?)
    (hsearch : ∀ start, o.start? h = some start → SearchableFrom kit.toml h start)
    {good rest : List Path} (hfiles : o.configFiles = good ++ p :: rest)
    (hgood : ∀ q ∈ good, ∃ l?, Layer.load kit.toml h q = .ok l?)
    (hp : Layer.load kit.toml h p = .error e) :
    (run kit h env args).ending = loadEnding e ∧ (e.isReported = true →
      ∃ log, (run kit h env args).err = log ++ s.shown (reportLine e.message)) := by
  obtain ⟨lower, hlower⟩ := loadMerged_append hsearch hgood
  exact hs.ending_of_failure (by rw [hfiles, hlower, mergeFiles, hp])

/-- A run whose search does not work breaks off. -/
theorem Starts.ending_of_not_searchable (hs : Starts kit h env args s o command?) {start : Path}
    (hstart : o.start? h = some start) (hsearch : ¬ SearchableFrom kit.toml h start) :
    ∃ e, e.isReported = false ∧ (run kit h env args).ending = .collapse (.configuration e) := by
  obtain ⟨e, he, hr⟩ := loadMerged_of_not_searchable hstart hsearch o.configFiles
  refine ⟨e, hr, ?_⟩
  rw [(hs.ending_of_failure he).1, loadEnding, hr]
  rfl

/-- **When unusable files are passed over and reported.** The search from a start succeeds exactly
if all files that are looked at can be looked up and are legible, and then finds those that carry a
table of the program and no others; when it fails, then with a failure that is not reported. Loading
a file gives a layer, or a failure that is reported, exactly if the file is legible. A run whose
search works and for which a file is named that gives no layer reports the failure as one of the
configuration if the file is legible, and breaks off with it otherwise; a run whose search does not
work breaks off. -/
theorem unusable_handled_iff (kit : Toolkit) (h : Host) :
    (∀ start, ((∃ found, discover kit.toml h start = .ok found) ↔ SearchableFrom kit.toml h start) ∧
      (∀ place found, startDirectory h start = .ok place → discover kit.toml h start = .ok found →
        ∀ p, p ∈ found ↔
          ∃ directory, IsSearched kit.toml h place directory ∧
            p ∈ configFiles kit.toml h directory) ∧
      ∀ e, discover kit.toml h start = .error e → e.isReported = false) ∧
    (∀ p, ((∃ l?, Layer.load kit.toml h p = .ok l?) ∨
      ∃ e, Layer.load kit.toml h p = .error e ∧ e.isReported = true) ↔ LegibleAt kit.toml h p) ∧
    ∀ env args s o command?, Starts kit h env args s o command? →
      ((∀ start, o.start? h = some start → SearchableFrom kit.toml h start) →
        ∀ good p rest e, o.configFiles = good ++ p :: rest →
          (∀ q ∈ good, ∃ l?, Layer.load kit.toml h q = .ok l?) →
          Layer.load kit.toml h p = .error e →
            (LegibleAt kit.toml h p →
              (run kit h env args).ending = .report .configuration e.message ∧
              ∃ log, (run kit h env args).err = log ++ s.shown (reportLine e.message)) ∧
            (¬ LegibleAt kit.toml h p →
              (run kit h env args).ending = .collapse (.configuration e))) ∧
      ∀ start, o.start? h = some start → ¬ SearchableFrom kit.toml h start →
        ∃ e, e.isReported = false ∧
          (run kit h env args).ending = .collapse (.configuration e) := by
  have hload (p : Path) {e : LoadFailure} (hp : Layer.load kit.toml h p = .error e) :
      LegibleAt kit.toml h p ↔ e.isReported = true := by
    rw [legibleAt_iff, load_eq_error_iff.1 hp]
    simp
  refine ⟨fun start => ?_, fun p => ?_, fun env args s o command? hs =>
    ⟨fun hsearch good p rest e hfiles hgood hp => ?_, fun start hstart hsearch =>
      hs.ending_of_not_searchable hstart hsearch⟩⟩
  · rcases discover_cases kit.toml h start with
      ⟨place, first, rest, hplace, -, hmem, hyes, hfound⟩ | ⟨e, he, hr, hno⟩
    · have hs : SearchableFrom kit.toml h start := ⟨place, hplace, hyes⟩
      simp [hplace, hfound, hs, hmem]
    · simp [he, hno, hr]
  · cases hl : Layer.load kit.toml h p with
    | ok l? =>
        obtain ⟨t, ht⟩ := exists_load_iff.1 ⟨l?, hl⟩
        simp [legibleAt_iff, ht]
    | error e => simp [hload p hl]
  · obtain ⟨hending, herr⟩ := hs.ending_of_load hsearch hfiles hgood hp
    rw [hload p hp, hending, loadEnding]
    refine ⟨fun hr => ⟨if_pos hr, herr hr⟩, fun hr => if_neg hr⟩

/-- The file in the working directory spells no text, and the one that is named lacks a bracket. -/
theorem unusable_handled_iff_of_broken :
    let h : Host := ⟨.ofFiles [] [(["quietmark.toml"], ⟨#[0xFF]⟩),
      (["bad.toml"], "[suppress\n".toUTF8)], [], [], [], []⟩
    let env : Environment := ⟨none, none, none, false⟩
    let args := ["--no-config", "--config", "bad.toml", "version"]
    let o : Options := ⟨0, 0, none, false, [.ofString "bad.toml"], true⟩
    Starts .standard h env args ⟨.standard, 0, Log.critical, false⟩ o (some (.version, [])) ∧
      LegibleAt .standard h (.ofString "bad.toml") ∧
      (run .standard h env args).ending = .report .configuration "Invalid TOML in bad.toml" ∧
      ¬ LegibleAt .standard h (.ofPlace ["quietmark.toml"]) ∧
      ¬ ∃ found, discover .standard h (.ofString ".") = .ok found := by
  intro h env args o
  have hstarts : Starts .standard h env args ⟨.standard, 0, Log.critical, false⟩ o
      (some (.version, [])) := ⟨["version"], rfl, rfl, rfl⟩
  have hbad : LegibleAt .standard h (.ofString "bad.toml") := by
    refine ⟨nofun, fun bytes hb => ?_⟩
    obtain rfl : "[suppress\n".toUTF8 = bytes := Except.ok.inj hb
    decide +kernel
  have hown : ¬ LegibleAt .standard h (.ofPlace ["quietmark.toml"]) := fun hl =>
    absurd (hl.2 ⟨#[0xFF]⟩ rfl) (by decide +kernel)
  have hsearch : ¬ SearchableFrom .standard h (.ofString ".") := fun hs =>
    absurd (searchableFrom_iff_isSome_discover.1 hs) (by decide +kernel)
  have hmessage : (match Layer.load .standard h (.ofString "bad.toml") with
      | .error e => some e.message
      | .ok _ => none) = some "Invalid TOML in bad.toml" := by decide +kernel
  obtain ⟨hdiscover, -, hrun⟩ := unusable_handled_iff .standard h
  obtain ⟨hreports, -⟩ := hrun env args _ o _ hstarts
  cases hload : Layer.load .standard h (.ofString "bad.toml") with
  | ok l? => simp [hload] at hmessage
  | error e =>
      obtain ⟨hreported, -⟩ := hreports (fun start hs => by cases hs) [] _ [] _ rfl (by simp) hload
      simp only [hload, Option.some.injEq] at hmessage
      exact ⟨hstarts, hbad, hmessage ▸ (hreported hbad).1, hown, (hdiscover _).1.not.2 hsearch⟩

end CommandLine

end BnfSuppression
