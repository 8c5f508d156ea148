import BnfSuppression.Proofs.FileAccess
import BnfSuppression.Settings.Source

/-!
# Searching for Configuration Files

On the way up from a start, the two configuration files of each directory are looked at, until one
of them says that the way up ends there. The files that are found are those that carry a table of
the program. A file that cannot be used is passed over, but the search ends with a failure where it
cannot be told whether a file is there, and at bytes that spell no text or give a key twice.

What is said here holds for every format of configuration files; a failure to read a text is one of
the failures that the program knows.

## Main definitions

* `carried?`, `configFiles`: the table of the program in a file, and the files of a directory that
  carry one.
* `DeclaresRoot`: one of these says that the way up ends in its directory.
* `IsLegible`, `LegibleAt`, `LegibleIn`: bytes that are a table or not well-formed, at a path and in
  a directory; the files of the directory can be looked up as well.
* `IsSearched`, `IsWayUp`: the directories on the way up that are looked at.
* `Searchable`, `SearchableFrom`: the files in all these directories can be looked up and are
  legible.

## Main results

* `legibleAt_iff`: all failures of what is legible are reported, and of nothing else.
* `examineDirectory_cases`: what is found in one directory.
* `discover_cases`: **the search from a start**, which works exactly if it is searchable.
* `searchableFrom_iff_tellable`: what a search depends on where all files are legible.
-/

namespace BnfSuppression

open Files (Host Path Place Disk)
open Toml (Table Value)

/-! ### Files that count -/

section

variable (toml : Toml.Format)

/-- The table of the program that a file carries, if it can be read, is well-formed and has one. -/
def carried? (h : Host) (p : Path) : Option Table :=
  (loadTable toml h p).toOption.bind (programTable? p)

/-- Where the configuration files of a directory are, if they are there. -/
def configPlaces (directory : Place) : List Place :=
  [directory ++ [projectFileName], directory ++ [ownFileName]]

/-- The configuration files of a directory that carry a table of the program. -/
def configFiles (h : Host) (directory : Place) : List Path :=
  ((configPlaces directory).map .ofPlace).filter fun p => (carried? toml h p).isSome

/-- The table in a file says that the way up ends in its directory. -/
def SaysRoot (h : Host) (p : Path) : Prop :=
  ∃ t ∈ carried? toml h p, ∃ v ∈ t.get? "root", v.counts = true

/-- A configuration file of the directory says that the way up ends there. -/
def DeclaresRoot (h : Host) (directory : Place) : Prop :=
  ∃ p ∈ configFiles toml h directory, SaysRoot toml h p

/-- The bytes spell a text, and what configuration files make of it is a table, or the failure of a
text that is not well-formed. -/
def IsLegible (bytes : ByteArray) : Prop :=
  ∃ cs, Text.decodeUtf8 bytes = .ok cs ∧
    ∀ e, toml.read (String.ofList (Text.normalizeBreaks cs)) = .error e → e = .malformed

instance (bytes : ByteArray) : Decidable (IsLegible toml bytes) :=
  match hd : Text.decodeUtf8 bytes with
  | .error _ => isFalse fun ⟨_, hcs, _⟩ => by simp [hd] at hcs
  | .ok cs =>
    match hr : toml.read (String.ofList (Text.normalizeBreaks cs)) with
    | .ok _ => isTrue ⟨cs, hd, fun _ he => by simp [hr] at he⟩
    | .error e =>
      decidable_of_iff (e = .malformed) ⟨fun he => ⟨cs, hd, fun _ he' => by simp_all⟩,
        fun ⟨cs', hcs', he⟩ => by
          obtain rfl := Except.ok.inj (hd.symm.trans hcs')
          exact he e hr⟩

/-- The path is one, and what can be read at it is legible. -/
def LegibleAt (h : Host) (p : Path) : Prop :=
  h.readBytes p ≠ .error .nullCharacter ∧
    ∀ bytes, h.readBytes p = .ok bytes → IsLegible toml bytes

/-- It can be told whether there is a file at the path. -/
def Tellable (h : Host) (p : Path) : Prop := ∃ b, h.isFile p = .ok b

/-- It can be told whether there is a file at the place, and if so it is legible. -/
def Examinable (h : Host) (place : Place) : Prop :=
  Tellable h (.ofPlace place) ∧
    (h.isFile (.ofPlace place) = .ok true → LegibleAt toml h (.ofPlace place))

/-- The configuration files in a directory can be looked up, and those that are there are
legible. -/
def LegibleIn (h : Host) (directory : Place) : Prop :=
  ∀ place ∈ configPlaces directory, Examinable toml h place

/-- The directory is looked at on the way up from a place: no directory further in says that the way
up ends there. -/
def IsSearched (h : Host) (place directory : Place) : Prop :=
  directory <+: place ∧
    ∀ inner, inner <+: place → directory.length < inner.length → ¬ DeclaresRoot toml h inner

/-- The directories that are looked at on the way up from a place lead from the first one, which is
the nearest whose files say so, or the root, down to the place. -/
structure IsWayUp (h : Host) (place first : Place) (rest : List Place) : Prop where
  nearest : ∀ directory ∈ rest, ¬ DeclaresRoot toml h directory
  outer : ∃ skipped, Disk.upTo place = skipped ++ first :: rest ∧
    (skipped = [] ∨ DeclaresRoot toml h first)

/-- The configuration files in all directories that are looked at can be looked up and are
legible. -/
def Searchable (h : Host) (place : Place) : Prop :=
  ∀ directory, IsSearched toml h place directory → LegibleIn toml h directory

/-- The start can be looked up, and so can the files on the way up from it, which are legible. -/
def SearchableFrom (h : Host) (start : Path) : Prop :=
  ∃ place, startDirectory h start = .ok place ∧ Searchable toml h place

end

variable {toml : Toml.Format} {h : Host} {p : Path} {e : LoadFailure}
  {outer place directory : Place} {name : String}

/-! ### Loading one file -/

/-- A table is loaded only from a file that can be read. -/
theorem exists_readBytes_of_loadTable {t : Table} (ht : loadTable toml h p = .ok t) :
    ∃ bytes, h.readBytes p = .ok bytes := by
  cases hb : h.readBytes p with
  | ok bytes => exact ⟨bytes, rfl⟩
  | error trouble =>
      rw [loadTable, Files.Host.readText_of_trouble hb] at ht
      cases trouble <;> cases ht

/-- What is no file carries no table. -/
theorem carried?_eq_none_of_isFile (hf : h.isFile p = .ok false) : carried? toml h p = none := by
  cases ht : loadTable toml h p with
  | error e => simp [carried?, ht, Except.toOption]
  | ok t =>
      obtain ⟨bytes, hb⟩ := exists_readBytes_of_loadTable ht
      exact absurd (Files.Host.isFile_of_readBytes hb hf) Bool.false_ne_true

/-- What becomes of bytes that can be read. -/
theorem loadTable_of_readBytes {bytes : ByteArray} {cs : List Char}
    (hb : h.readBytes p = .ok bytes) (hcs : Text.decodeUtf8 bytes = .ok cs) :
    loadTable toml h p = (toml.read (String.ofList (Text.normalizeBreaks cs))).mapError fun
      | .duplicateKey key => .duplicateKey key
      | .redefined => .redefined
      | .malformed => .invalid p.toString := by
  rw [loadTable, Files.Host.readText_of_decodeUtf8 hb hcs]
  simp only
  cases toml.read (String.ofList (Text.normalizeBreaks cs)) with
  | ok t => rfl
  | error failure => cases failure <;> rfl

/-- **All failures of what is legible are reported**, and of nothing else. -/
theorem legibleAt_iff :
    LegibleAt toml h p ↔ ∀ e, loadTable toml h p = .error e → e.isReported = true := by
  cases hbytes : h.readBytes p with
  | error t =>
      rw [loadTable, Files.Host.readText_of_trouble hbytes]
      cases t <;> simp [LegibleAt, hbytes, LoadFailure.isReported]
  | ok bytes =>
      have hat : LegibleAt toml h p ↔ IsLegible toml bytes := by simp [LegibleAt, hbytes]
      rw [hat]
      cases hcs : Text.decodeUtf8 bytes with
      | error e =>
          have hload : loadTable toml h p = .error (.undecodable e) := by
            rw [loadTable, Files.Host.readText_of_encoding hbytes hcs]
          simp [IsLegible, hcs, hload, LoadFailure.isReported]
      | ok cs =>
          rw [loadTable_of_readBytes hbytes hcs]
          cases hr : toml.read (String.ofList (Text.normalizeBreaks cs)) with
          | ok t => simp [IsLegible, hcs, hr, Except.mapError]
          | error failure =>
              cases failure <;> simp [IsLegible, hcs, hr, Except.mapError, LoadFailure.isReported]

/-! ### Looking at directories -/

/-- The configuration files of a directory are the files in the two places that carry a table of the
program. -/
theorem mem_configFiles_iff : p ∈ configFiles toml h directory ↔
    (∃ place ∈ configPlaces directory, .ofPlace place = p) ∧ (carried? toml h p).isSome = true := by
  simp only [configFiles, List.mem_filter, List.mem_map]

/-- A file of a directory that carries a table can be loaded. -/
theorem exists_table_of_mem_configFiles (hp : p ∈ configFiles toml h directory) :
    ∃ t, loadTable toml h p = .ok t := by
  obtain ⟨-, hc⟩ := mem_configFiles_iff.1 hp
  cases ht : loadTable toml h p with
  | ok t => exact ⟨t, rfl⟩
  | error e => simp [carried?, ht, Except.toOption] at hc

/-- A directory declares a root if one of its two files says so. -/
theorem declaresRoot_iff : DeclaresRoot toml h directory ↔
    SaysRoot toml h (.ofPlace (directory ++ [projectFileName])) ∨
      SaysRoot toml h (.ofPlace (directory ++ [ownFileName])) := by
  have hcarried {p : Path} (hroot : SaysRoot toml h p) : (carried? toml h p).isSome = true := by
    obtain ⟨t, ht, -⟩ := hroot
    exact Option.isSome_iff_exists.2 ⟨t, ht⟩
  simp only [DeclaresRoot, mem_configFiles_iff, configPlaces, List.mem_pair]
  constructor
  · rintro ⟨p, ⟨⟨place, rfl | rfl, rfl⟩, -⟩, hroot⟩
    · exact .inl hroot
    · exact .inr hroot
  · rintro (hroot | hroot)
    · exact ⟨_, ⟨⟨_, .inl rfl, rfl⟩, hcarried hroot⟩, hroot⟩
    · exact ⟨_, ⟨⟨_, .inr rfl, rfl⟩, hcarried hroot⟩, hroot⟩

/-- A directory is legible exactly if it can be examined at each of the two places. -/
theorem legibleIn_iff : LegibleIn toml h directory ↔
    Examinable toml h (directory ++ [projectFileName]) ∧
      Examinable toml h (directory ++ [ownFileName]) := by
  simp [LegibleIn, configPlaces]

/-- **Looking at one file** fails only if it cannot be looked up, or is there and not legible, and
what is wrong is then not reported. -/
theorem examine_cases (toml : Toml.Format) (h : Host) (place : Place) :
    (∃ b, examine toml h place =
        .ok ⟨[.ofPlace place].filter fun p => (carried? toml h p).isSome, b⟩ ∧
      (b = true ↔ SaysRoot toml h (.ofPlace place)) ∧ Examinable toml h place) ∨
    ∃ e, examine toml h place = .error e ∧ e.isReported = false ∧ ¬ Examinable toml h place := by
  cases hf : h.isFile (.ofPlace place) with
  | error t =>
      refine .inr ⟨.lookup t, ?_, rfl, fun ⟨⟨b, hb⟩, _⟩ => by simp [hf] at hb⟩
      simp [examine, hf, bind, Except.bind, Except.mapError]
  | ok f =>
      simp only [examine, hf, Examinable, Tellable, bind, Except.bind, Except.mapError]
      cases f with
      | false =>
          have hnone : carried? toml h (.ofPlace place) = none := carried?_eq_none_of_isFile hf
          exact .inl ⟨false, by simp [hnone, pure, Except.pure], by simp [SaysRoot, hnone], by simp⟩
      | true =>
          simp only [legibleAt_iff]
          cases ht : loadTable toml h (.ofPlace place) with
          | error e =>
              cases hr : e.isReported with
              | true =>
                  refine .inl ⟨false, ?_, ?_, by simpa using hr⟩
                  · simp [carried?, ht, hr, Except.toOption, pure, Except.pure]
                  · simp [SaysRoot, carried?, ht, Except.toOption]
              | false =>
                  exact .inr ⟨e, by simp [hr, throw, throwThe, MonadExceptOf.throw], hr,
                    by simp [hr]⟩
          | ok t =>
              cases hp : programTable? (.ofPlace place) t with
              | none =>
                  refine .inl ⟨false, ?_, ?_, by simp⟩
                  · simp [carried?, ht, hp, Except.toOption, pure, Except.pure]
                  · simp [SaysRoot, carried?, ht, hp, Except.toOption]
              | some u =>
                  refine .inl ⟨(u.get? "root").any Value.counts, ?_, ?_, by simp⟩
                  · simp [carried?, ht, hp, Except.toOption, pure, Except.pure]
                  · simp [SaysRoot, carried?, ht, hp, Except.toOption, Option.any_eq_true]

/-- **Looking at a directory** succeeds if its files are legible, and fails for what is not reported
otherwise. -/
theorem examineDirectory_cases (toml : Toml.Format) (h : Host) (directory : Place) :
    (∃ b, examineDirectory toml h directory = .ok ⟨configFiles toml h directory, b⟩ ∧
      LegibleIn toml h directory ∧ (b = true ↔ DeclaresRoot toml h directory)) ∨
    ∃ e, examineDirectory toml h directory = .error e ∧ e.isReported = false ∧
      ¬ LegibleIn toml h directory := by
  rw [legibleIn_iff, declaresRoot_iff]
  rcases examine_cases toml h (directory ++ [projectFileName]) with
    ⟨b, hb, hroot, hl⟩ | ⟨e, he, hr, hl⟩
  · rcases examine_cases toml h (directory ++ [ownFileName]) with
      ⟨c, hc, hroot', hl'⟩ | ⟨e, he, hr, hl'⟩
    · refine .inl ⟨b || c, ?_, ⟨hl, hl'⟩, by rw [Bool.or_eq_true, hroot, hroot']⟩
      simp only [examineDirectory, hb, hc, configFiles, configPlaces, bind, Except.bind, pure,
        Except.pure, ← List.filter_append, List.singleton_append, List.map_cons, List.map_nil]
    · exact .inr ⟨e, by rw [examineDirectory, hb, he]; rfl, hr, fun hs => hl' hs.2⟩
  · exact .inr ⟨e, by rw [examineDirectory, he]; rfl, hr, fun hs => hl hs.1⟩

/-! ### The way up -/

/-- On the way up from the root, the root is the only directory that is looked at. -/
theorem isSearched_nil_iff : IsSearched toml h [] directory ↔ directory = [] := by
  constructor
  · exact fun hd => List.prefix_nil.1 hd.1
  · rintro rfl
    exact ⟨List.prefix_rfl, fun inner hi hl => by simp [List.prefix_nil.1 hi] at hl⟩

/-- One directory further in: it is looked at itself, and the others if it does not say that the way
up ends there. -/
theorem isSearched_concat_iff : IsSearched toml h (outer ++ [name]) directory ↔
    directory = outer ++ [name] ∨
      ¬ DeclaresRoot toml h (outer ++ [name]) ∧ IsSearched toml h outer directory := by
  constructor
  · rintro ⟨hd, hinner⟩
    rcases List.prefix_concat_iff.1 hd with rfl | hd
    · exact .inl rfl
    · refine .inr ⟨hinner _ List.prefix_rfl ?_, hd, fun inner hi hl => ?_⟩
      · simpa using Nat.lt_succ_of_le hd.length_le
      · exact hinner inner (hi.trans (List.prefix_append ..)) hl
  · rintro (rfl | ⟨hroot, hd, hinner⟩)
    · exact ⟨List.prefix_rfl, fun inner hi hl => absurd hi.length_le (by omega)⟩
    · refine ⟨hd.trans (List.prefix_append ..), fun inner hi hl => ?_⟩
      rcases List.prefix_concat_iff.1 hi with rfl | hi
      · exact hroot
      · exact hinner inner hi hl

/-- The way up from the root is searchable exactly if the root is legible. -/
theorem searchable_nil_iff : Searchable toml h [] ↔ LegibleIn toml h [] := by
  simp [Searchable, isSearched_nil_iff]

/-- The way up from a directory is searchable exactly if the directory is legible and so is what is
outside, unless it ends there. -/
theorem searchable_concat_iff : Searchable toml h (outer ++ [name]) ↔
    LegibleIn toml h (outer ++ [name]) ∧
      (¬ DeclaresRoot toml h (outer ++ [name]) → Searchable toml h outer) := by
  simp only [Searchable, isSearched_concat_iff, or_imp, forall_and, forall_eq, and_imp]
  exact and_congr_right fun _ => ⟨fun hs hroot d hd => hs d hroot hd, fun hs d hroot => hs hroot d⟩

/-- One directory further in. -/
theorem upTo_concat (place : Place) (name : String) :
    Disk.upTo (place ++ [name]) = Disk.upTo place ++ [place ++ [name]] := by
  induction place with
  | nil => rfl
  | cons outer place ih => simp [Disk.upTo, ih]

/-- The way up from the root is the root alone. -/
theorem isWayUp_nil : IsWayUp toml h [] [] [] where
  nearest := by simp
  outer := ⟨[], rfl, .inl rfl⟩

/-- The way up from a directory that says so is this directory alone. -/
theorem isWayUp_of_declaresRoot (hd : DeclaresRoot toml h (outer ++ [name])) :
    IsWayUp toml h (outer ++ [name]) (outer ++ [name]) [] where
  nearest := by simp
  outer := ⟨Disk.upTo outer, upTo_concat outer name, .inr hd⟩

/-- From any other directory the way up goes on outside of it. -/
theorem IsWayUp.concat {first : Place} {rest : List Place} (hw : IsWayUp toml h outer first rest)
    (hd : ¬ DeclaresRoot toml h (outer ++ [name])) :
    IsWayUp toml h (outer ++ [name]) first (rest ++ [outer ++ [name]]) where
  nearest := fun directory hdirectory => by
    rcases List.mem_append.1 hdirectory with hin | hin
    · exact hw.nearest directory hin
    · rwa [List.mem_singleton.1 hin]
  outer := by
    obtain ⟨skipped, hchain, hfirst⟩ := hw.outer
    exact ⟨skipped, by simp [upTo_concat, hchain], hfirst⟩

/-- **The search along a path** succeeds if all files that are looked at can be looked up and are
legible, and finds those that carry a table of the program, directory after directory; otherwise it
fails for what is not reported. -/
theorem discoverFrom_cases (toml : Toml.Format) (h : Host) (names : List String) :
    (∃ first rest, IsWayUp toml h names.reverse first rest ∧
      (∀ directory, IsSearched toml h names.reverse directory ↔ directory ∈ first :: rest) ∧
      Searchable toml h names.reverse ∧
      discoverFrom toml h names = .ok ((first :: rest).flatMap (configFiles toml h))) ∨
    ∃ e, discoverFrom toml h names = .error e ∧ e.isReported = false ∧
      ¬ Searchable toml h names.reverse := by
  induction names with
  | nil =>
      rw [discoverFrom, List.reverse_nil, searchable_nil_iff]
      rcases examineDirectory_cases toml h [] with ⟨b, hb, hl, -⟩ | ⟨e, he, hr, hl⟩
      · rw [hb]
        exact .inl ⟨[], [], isWayUp_nil, by simp [isSearched_nil_iff], hl,
          by simp [Functor.map, Except.map]⟩
      · rw [he]
        exact .inr ⟨e, rfl, hr, hl⟩
  | cons name outer ih =>
      rw [discoverFrom, List.reverse_cons, searchable_concat_iff]
      simp only [isSearched_concat_iff]
      rcases examineDirectory_cases toml h (outer.reverse ++ [name]) with
        ⟨b, hb, hl, hroot⟩ | ⟨e, he, hr, hl⟩
      · rw [hb]
        cases b with
        | true =>
            have hd := hroot.1 rfl
            exact .inl ⟨outer.reverse ++ [name], [], isWayUp_of_declaresRoot hd, by simp [hd],
              ⟨hl, fun hn => absurd hd hn⟩, by simp [bind, Except.bind, pure, Except.pure]⟩
        | false =>
            have hd : ¬ DeclaresRoot toml h (outer.reverse ++ [name]) := fun hd => by
              simpa using hroot.2 hd
            rcases ih with ⟨first, rest, hway, hmem, hs, hfound⟩ | ⟨e, he, hr, hs⟩
            · refine .inl ⟨first, rest ++ [outer.reverse ++ [name]], hway.concat hd,
                fun directory => ?_, ⟨hl, fun _ => hs⟩, ?_⟩
              · simp [hmem, hd, or_comm, or_left_comm]
              · simp [hfound, bind, Except.bind, pure, Except.pure]
            · refine .inr ⟨e, ?_, hr, fun hsearch => hs (hsearch.2 hd)⟩
              simp [he, bind, Except.bind]
      · rw [he]
        exact .inr ⟨e, rfl, hr, fun hs => hl hs.1⟩

/-- A start that cannot be looked up gives a failure that is not reported. -/
theorem isReported_of_startDirectory {start : Path} (he : startDirectory h start = .error e) :
    e.isReported = false := by
  simp only [startDirectory, bind, Except.bind] at he
  cases hr : h.resolve start with
  | error t =>
      simp only [hr, Except.mapError] at he
      obtain rfl := Except.error.inj he
      rfl
  | ok place =>
      cases hf : h.isFile (.ofPlace place) with
      | error t =>
          simp only [hr, hf, Except.mapError] at he
          obtain rfl := Except.error.inj he
          rfl
      | ok b => simp [hr, hf, Except.mapError, pure, Except.pure] at he

/-- **The search from a start** works exactly if it is searchable from there, and finds the files
that carry a table of the program in the directories that are looked at; otherwise it fails for what
is not reported. -/
theorem discover_cases (toml : Toml.Format) (h : Host) (start : Path) :
    (∃ place first rest, startDirectory h start = .ok place ∧ IsWayUp toml h place first rest ∧
      (∀ directory, IsSearched toml h place directory ↔ directory ∈ first :: rest) ∧
      Searchable toml h place ∧
      discover toml h start = .ok ((first :: rest).flatMap (configFiles toml h))) ∨
    ∃ e, discover toml h start = .error e ∧ e.isReported = false ∧
      ¬ SearchableFrom toml h start := by
  cases hplace : startDirectory h start with
  | error e =>
      refine .inr ⟨e, by simp [discover, hplace, bind, Except.bind],
        isReported_of_startDirectory hplace, ?_⟩
      rintro ⟨place, hp, -⟩
      cases hplace.symm.trans hp
  | ok place =>
      have hdiscover : discover toml h start = discoverFrom toml h place.reverse := by
        simp [discover, hplace, bind, Except.bind]
      have hcases := discoverFrom_cases toml h place.reverse
      rw [List.reverse_reverse] at hcases
      rw [hdiscover]
      rcases hcases with ⟨first, rest, hway, hmem, hs, hfound⟩ | ⟨e, he, hr, hs⟩
      · exact .inl ⟨place, first, rest, rfl, hway, hmem, hs, hfound⟩
      · refine .inr ⟨e, he, hr, ?_⟩
        rintro ⟨place', hp, hs'⟩
        cases hplace.symm.trans hp
        exact hs hs'

/-- A start is searchable exactly if the discovery of configuration files comes to a result. -/
theorem searchableFrom_iff_isSome_discover {start : Path} :
    SearchableFrom toml h start ↔ (discover toml h start).toOption.isSome = true := by
  rcases discover_cases toml h start with
    ⟨place, first, rest, hplace, -, -, hs, hfound⟩ | ⟨e, he, -, hs⟩
  · simp [hfound, Except.toOption, show SearchableFrom toml h start from ⟨place, hplace, hs⟩]
  · simp [he, hs, Except.toOption]

/-- **Where all texts can be read and reading them fails only for what is not well-formed, the
search depends on the file system alone**: it works exactly if it can be told of the start, and of
the configuration files in all directories that are looked at, whether they are there. -/
theorem searchableFrom_iff_tellable {start : Path}
    (hread : ∀ text e, toml.read text = .error e → e = .malformed)
    (hdecode : ∀ p bytes, h.readBytes p = .ok bytes → ∃ cs, Text.decodeUtf8 bytes = .ok cs) :
    SearchableFrom toml h start ↔ ∃ place, startDirectory h start = .ok place ∧
      ∀ directory, IsSearched toml h place directory →
        ∀ file ∈ configPlaces directory, Tellable h (.ofPlace file) := by
  have hlegible (p : Path) (hf : h.isFile p = .ok true) : LegibleAt toml h p := by
    refine ⟨Files.Host.readBytes_ne_nullCharacter hf, fun bytes hb => ?_⟩
    obtain ⟨cs, hcs⟩ := hdecode p bytes hb
    exact ⟨cs, hcs, hread _⟩
  simp only [SearchableFrom, Searchable, LegibleIn, Examinable]
  refine exists_congr fun place => and_congr_right fun _ => forall_congr' fun directory =>
    forall_congr' fun _ => forall_congr' fun file => forall_congr' fun _ => ?_
  exact and_iff_left (hlegible _)

end BnfSuppression
