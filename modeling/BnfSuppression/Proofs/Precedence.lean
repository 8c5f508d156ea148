import BnfSuppression.Proofs.Search

/-!
# Which Configuration File Counts

Configuration files are found on the way up from a start, and further ones are named. The files that
carry a table of the program are laid over the standard settings in one order: the found ones with
the outermost directory first and the file of the project before the program's own, then the further
ones. This module says what settings come out: for each key the text that the last file gives it.

All this holds where the search works. It does not work where it cannot be told whether a file is
there, as in a directory that may not be searched or at a name that is too long.

## Main definitions

* `Toml.Table.setting?`, `Toml.Table.complaints`: what a table sets a key to, and what is wrong with
  its section of settings.
* `carriers`: the files of a list that carry a table of the program, with these.

## Main results

* `Layer.ofTable_eq`: the layer of a table.
* `mergeFiles_eq`: the last file that sets a key wins.
* `loadMerged_precedence`: **the order in which files count**.
-/

namespace BnfSuppression

open Files (Host Path Place Disk)
open Toml (Table Value)

variable {toml : Toml.Format} {h : Host}

/-! ### The layer of a table -/

/-- The text that an entry gives a key. -/
def Key.textIn? (key : Key) (entry : String × Value) : Option String :=
  if entry.1 = key.name then entry.2.text? else none

/-- What is wrong with an entry of the section of settings. -/
def entryComplaint? (entry : String × Value) : Option Diagnostic :=
  if Key.all.any (·.name == entry.1) then
    if entry.2.text?.isSome then none else some (.notText entry.1 entry.2.typeName)
  else some (.unknownKey entry.1)

/-- What a table sets a key to: the last text that its section of settings gives it. -/
def Toml.Table.setting? (t : Table) (key : Key) : Option String :=
  match t.get? sectionName with
  | some (.table entries) => entries.reverse.findSome? key.textIn?
  | _ => none

/-- What is wrong with the section of settings of a table. -/
def Toml.Table.complaints (t : Table) : List Diagnostic :=
  match t.get? sectionName with
  | none => []
  | some (.table entries) => entries.filterMap entryComplaint?
  | some _ => [.notATable]

/-- Different keys have different names. -/
theorem Key.name_inj {k k' : Key} (h : k.name = k'.name) : k = k' := by
  cases k <;> cases k' <;> first | rfl | (simp [Key.name] at h)

/-- The name of a key is read as this key. -/
theorem Key.ofName?_name (key : Key) : Key.ofName? key.name = some key := by
  cases key <;> rfl

/-- A name that is read as a key is the name of this key. -/
theorem Key.name_of_ofName? {name : String} {key : Key} (h : Key.ofName? name = some key) :
    key.name = name := by
  have hname := List.find?_some (p := fun k : Key => k.name == name) h
  exact beq_iff_eq.1 hname

/-- No key has a name that is not found. -/
theorem Key.name_ne_of_ofName? {name : String} (h : Key.ofName? name = none) (key : Key) :
    name ≠ key.name := by
  rintro rfl
  simp [Key.ofName?_name] at h

namespace Layer

/-- What an entry adds to a layer. -/
theorem addEntry_eq (l : Layer) (entry : String × Value) :
    (∀ key, (l.addEntry entry).value? key = (key.textIn? entry).or (l.value? key)) ∧
      (l.addEntry entry).sources = l.sources ∧
      (l.addEntry entry).diagnostics = l.diagnostics ++ (entryComplaint? entry).toList := by
  obtain ⟨name, v⟩ := entry
  cases hk : Key.ofName? name with
  | none =>
      have hne := Key.name_ne_of_ofName? hk
      have hall : Key.all.any (·.name == name) = false := by
        simpa using fun key _ => (hne key).symm
      simp [addEntry, hk, Key.textIn?, entryComplaint?, hne, hall, note]
  | some k =>
      obtain rfl := Key.name_of_ofName? hk
      have hall : Key.all.any (·.name == k.name) = true := by
        simpa using ⟨k, Key.mem_all k, rfl⟩
      cases ht : v.text? with
      | none =>
          simp [addEntry, hk, Key.textIn?, entryComplaint?, hall, ht, note]
      | some text =>
          refine ⟨fun key => ?_, ?_, ?_⟩
          · by_cases h : key = k
            · simp [addEntry, hk, Key.textIn?, ht, set, h]
            · have hn : k.name ≠ key.name := fun hn => h (Key.name_inj hn).symm
              simp [addEntry, hk, Key.textIn?, ht, set, h, hn]
          · simp [addEntry, hk, ht, set]
          · simp [addEntry, hk, entryComplaint?, hall, ht, set]

/-- The entries of a section, one after the other. -/
theorem foldl_addEntry (entries : Table) (l : Layer) :
    (∀ key, (entries.foldl addEntry l).value? key =
        (entries.reverse.findSome? key.textIn?).or (l.value? key)) ∧
      (entries.foldl addEntry l).sources = l.sources ∧
      (entries.foldl addEntry l).diagnostics =
        l.diagnostics ++ entries.filterMap entryComplaint? := by
  induction entries generalizing l with
  | nil => simp
  | cons entry entries ih =>
      obtain ⟨hvalue, hsources, hdiagnostics⟩ := ih (l.addEntry entry)
      obtain ⟨hv, hs, hd⟩ := l.addEntry_eq entry
      refine ⟨fun key => ?_, hsources.trans hs, ?_⟩
      · rw [List.foldl_cons, hvalue, hv, List.reverse_cons, List.findSome?_append,
          List.findSome?_singleton, Option.or_assoc]
      · rw [List.foldl_cons, hdiagnostics, hd, List.filterMap_cons]
        cases entryComplaint? entry <;> simp

/-- **What the layer of a table holds.** -/
theorem ofTable_eq (t : Table) :
    (∀ key, (ofTable t).value? key = t.setting? key) ∧ (ofTable t).diagnostics = t.complaints := by
  rw [ofTable]
  simp only [Table.setting?, Table.complaints]
  cases t.get? sectionName with
  | none => simp [empty]
  | some v =>
      cases v with
      | table entries =>
          obtain ⟨hv, -, hd⟩ := foldl_addEntry entries empty
          simp only [Option.getD_some]
          exact ⟨fun key => (hv key).trans Option.or_none, hd⟩
      | _ => simp [empty, note]

end Layer

/-! ### Laying layers over each other -/

/-- The files that a configuration is made of: those that carry a table, with these. -/
def carriers (toml : Toml.Format) (h : Host) (ps : List Path) : List (Path × Table) :=
  ps.filterMap fun p => (carried? toml h p).map fun t => (p, t)

/-- **The last file that sets a key wins**; sources and complaints are those of the files that carry
a table, in their order. -/
theorem mergeFiles_eq {ps : List Path} (hp : ∀ p ∈ ps, ∃ t, loadTable toml h p = .ok t)
    (l : Layer) :
    (mergeFiles toml h l ps).2 = none ∧
      (∀ key, (mergeFiles toml h l ps).1.value? key =
        ((carriers toml h ps).reverse.findSome? fun c => c.2.setting? key).or (l.value? key)) ∧
      (mergeFiles toml h l ps).1.sources =
        l.sources ++ (carriers toml h ps).map (fun c => c.1.toString) ∧
      (mergeFiles toml h l ps).1.diagnostics =
        l.diagnostics ++ (carriers toml h ps).flatMap fun c => c.2.complaints := by
  induction ps generalizing l with
  | nil => simp [mergeFiles, carriers]
  | cons p ps ih =>
      obtain ⟨t, ht⟩ := hp p (by simp)
      have ih := ih fun p hm => hp p (List.mem_cons_of_mem _ hm)
      have hload : Layer.load toml h p = .ok ((carried? toml h p).map fun t =>
          { Layer.ofTable t with sources := [p.toString] }) := by
        simp [Layer.load, carried?, ht, Except.toOption, bind, Except.bind, pure, Except.pure]
      rw [mergeFiles, hload]
      cases hc : carried? toml h p with
      | none =>
          have hcarriers : carriers toml h (p :: ps) = carriers toml h ps := by
            simp [carriers, hc]
          rw [hcarriers]
          exact ih l
      | some u =>
          have hcarriers : carriers toml h (p :: ps) = (p, u) :: carriers toml h ps := by
            simp [carriers, hc]
          obtain ⟨hnone, hvalue, hsources, hdiagnostics⟩ := ih (l.merge
            { Layer.ofTable u with sources := [p.toString] })
          obtain ⟨hv, hd⟩ := Layer.ofTable_eq u
          rw [hcarriers]
          refine ⟨hnone, fun key => (hvalue key).trans ?_, hsources.trans ?_,
            hdiagnostics.trans ?_⟩
          · simp [Layer.merge, hv, List.findSome?_append, Option.or_assoc]
          · simp [Layer.merge]
          · simp [Layer.merge, hd]

/-- What a loading gives whose search finds some files, and whose further files can be loaded. -/
theorem loadMerged_of_discover {start : Path} {found further : List Path}
    (hfound : discover toml h start = .ok found)
    (hloads : ∀ p ∈ found ++ further, ∃ t, loadTable toml h p = .ok t) :
    (loadMerged toml h (some start) further).2 = none ∧
      (∀ key, (loadMerged toml h (some start) further).1.value? key =
        some (((carriers toml h (found ++ further)).reverse.findSome? fun c =>
          c.2.setting? key).getD key.standard)) ∧
      (loadMerged toml h (some start) further).1.sources =
        "<defaults>" :: (carriers toml h (found ++ further)).map (fun c => c.1.toString) ∧
      (loadMerged toml h (some start) further).1.diagnostics =
        (carriers toml h (found ++ further)).flatMap fun c => c.2.complaints := by
  have hmerged : loadMerged toml h (some start) further =
      mergeFiles toml h .standard (found ++ further) := by
    simp [loadMerged, hfound]
  obtain ⟨hnone, hvalue, hsources, hdiagnostics⟩ := mergeFiles_eq hloads .standard
  rw [hmerged]
  refine ⟨hnone, fun key => (hvalue key).trans ?_, hsources, hdiagnostics⟩
  generalize List.findSome? _ _ = found?
  cases found? <;> rfl

/-- **The order in which files count**, in every format. The search works exactly if the start and
the files that are looked at on the way up can be looked up, and the latter are legible. From the
nearest directory whose files say so, or else from the root, down to the start, it then finds the
files that carry a table; with the further files behind them, the last that sets a key decides it.
Where the search does not work, it fails for what is not reported, and so does the loading. If all
contents are texts, and reading them fails only for what is not well-formed, the search works
exactly if it can be told of all that is looked at whether it is there. -/
theorem loadMerged_precedence (toml : Toml.Format) (h : Host) (start : Path) :
    (∀ place, startDirectory h start = .ok place → Searchable toml h place →
      ∃ skipped first rest found,
        Disk.upTo place = skipped ++ first :: rest ∧
        (∀ directory ∈ rest, ¬ DeclaresRoot toml h directory) ∧
        (skipped = [] ∨ DeclaresRoot toml h first) ∧
        found = (first :: rest).flatMap (configFiles toml h) ∧
        discover toml h start = .ok found ∧
        ∀ further : List Path, (∀ p ∈ further, ∃ t, loadTable toml h p = .ok t) →
          (loadMerged toml h (some start) further).2 = none ∧
          (∀ key, (loadMerged toml h (some start) further).1.value? key =
            some (((carriers toml h (found ++ further)).reverse.findSome? fun c =>
              c.2.setting? key).getD key.standard)) ∧
          (loadMerged toml h (some start) further).1.sources =
            "<defaults>" :: (carriers toml h (found ++ further)).map (fun c => c.1.toString) ∧
          (loadMerged toml h (some start) further).1.diagnostics =
            (carriers toml h (found ++ further)).flatMap fun c => c.2.complaints) ∧
    (¬ SearchableFrom toml h start → ∃ e, e.isReported = false ∧
      discover toml h start = .error e ∧
      ∀ further, loadMerged toml h (some start) further = (.standard, some e)) ∧
    ((∀ text e, toml.read text = .error e → e = .malformed) →
      (∀ p bytes, h.readBytes p = .ok bytes → ∃ cs, Text.decodeUtf8 bytes = .ok cs) →
      (SearchableFrom toml h start ↔ ∃ place, startDirectory h start = .ok place ∧
        ∀ directory, IsSearched toml h place directory →
          ∀ file ∈ configPlaces directory, Tellable h (.ofPlace file))) := by
  refine ⟨fun place hplace hs => ?_, fun hs => ?_, searchableFrom_iff_tellable⟩
  · rcases discover_cases toml h start with
      ⟨place', first, rest, hplace', ⟨hnearest, skipped, hchain, hfirst⟩, -, -, hfound⟩ |
      ⟨-, -, -, hno⟩
    · obtain rfl : place' = place := Except.ok.inj (hplace'.symm.trans hplace)
      refine ⟨skipped, first, rest, _, hchain, hnearest, hfirst, rfl, hfound, fun further hf =>
        loadMerged_of_discover hfound fun p hp => ?_⟩
      rcases List.mem_append.1 hp with hp | hp
      · obtain ⟨directory, -, hp⟩ := List.mem_flatMap.1 hp
        exact exists_table_of_mem_configFiles hp
      · exact hf p hp
    · exact absurd ⟨place, hplace, hs⟩ hno
  · rcases discover_cases toml h start with ⟨place, -, -, hplace, -, -, hyes, -⟩ | ⟨e, he, hr, -⟩
    · exact absurd ⟨place, hplace, hyes⟩ hs
    · exact ⟨e, hr, he, fun further => by simp [loadMerged, he]⟩

/-- A file at the root of a project, the project's own, and the first one named again; and a start
whose name is too long. -/
theorem loadMerged_precedence_of_nested :
    ∃ (h : Host) (start long : Path) (found further : List Path),
      SearchableFrom .standard h start ∧ discover .standard h start = .ok found ∧ further ≠ [] ∧
      (loadMerged .standard h (some start) further).2 = none ∧
      (loadMerged .standard h (some start) further).1.sources =
        "<defaults>" :: (carriers .standard h (found ++ further)).map (fun c => c.1.toString) ∧
      ¬ SearchableFrom .standard h long ∧ ∃ e, e.isReported = false ∧
        discover .standard h long = .error e := by
  let outer := "root = true\n[suppress]\nverb = \"quiet\"\n".toUTF8
  let inner := "[tool.quietmark.suppress]\nverb = \"hush\"\n".toUTF8
  let h : Host := ⟨.ofFiles ["work", "project"] [(["work", "quietmark.toml"], outer),
    (["work", "project", "pyproject.toml"], inner)], ["work", "project"], [], [], []⟩
  let long : Path := ⟨.here, [String.ofList (List.replicate 256 'a')]⟩
  have hs : SearchableFrom .standard h (.ofString ".") :=
    searchableFrom_iff_isSome_discover.2 (by decide +kernel)
  have hlong : ¬ SearchableFrom .standard h long := fun hs =>
    absurd (searchableFrom_iff_isSome_discover.1 hs) (by decide +kernel)
  have hloads : (loadTable .standard h (.ofString "../quietmark.toml")).toOption.isSome = true := by
    decide +kernel
  obtain ⟨place, hplace, hsearch⟩ := id hs
  obtain ⟨-, -, -, found, -, -, -, -, hfound, hmerged⟩ :=
    (loadMerged_precedence .standard h (.ofString ".")).1 place hplace hsearch
  obtain ⟨hnone, -, hsources, -⟩ := hmerged [.ofString "../quietmark.toml"] (by
    intro p hp
    obtain rfl := List.mem_singleton.1 hp
    cases ht : loadTable .standard h (.ofString "../quietmark.toml") with
    | ok t => exact ⟨t, rfl⟩
    | error e => simp [ht, Except.toOption] at hloads)
  obtain ⟨e, hr, he, -⟩ := (loadMerged_precedence .standard h long).2.1 hlong
  exact ⟨h, .ofString ".", long, found, _, hs, hfound, by simp, hnone, hsources, hlong, e, hr, he⟩

end BnfSuppression
