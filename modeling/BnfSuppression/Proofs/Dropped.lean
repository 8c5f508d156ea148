import BnfSuppression.Proofs.Precedence
import Mathlib.Data.List.Basic
import Mathlib.Data.List.Nodup

/-!
# What Is Dropped Is Noted

Values are refused in two passes: entries with an unknown key or without a text when the section of
settings is read, in its order, and texts that cannot be used when the layer is settled, in the
order of the keys. Together they account for the section: each entry either reaches the settings or
has one diagnostic, and there is no other.

## Main definitions

* `dropReason?`: why an entry is dropped, asked of the entry alone.

## Main results

* `Layer.value?_ofTable_iff`: what a layer sets are the entries of its section.
* `Layer.diagnostics_freeze_perm`: **the two passes together note each dropped entry once**.
* `Layer.freeze_accounts`: **no configured value is dropped silently**.
-/

namespace BnfSuppression

open Toml (Table Value)

/-- Why an entry of the section of settings does not reach the settings, if it does not. -/
def dropReason? (entry : String × Value) : Option Diagnostic :=
  match Key.ofName? entry.1, entry.2.text? with
  | none, _ => some (.unknownKey entry.1)
  | some _, none => some (.notText entry.1 entry.2.typeName)
  | some key, some value => if key.accepts value then none else some (.rejected key value)

/-- Why an entry with a known key and a text is dropped, if it is. -/
def rejectReason? (entry : String × Value) : Option Diagnostic := do
  let key ← Key.ofName? entry.1
  let value ← entry.2.text?
  if key.accepts value then none else some (.rejected key value)

variable {entries t : Table} {entry : String × Value} {key : Key} {value : String}

/-- The text of a text value is this text. -/
@[simp]
theorem Toml.Value.text?_text (value : String) : (Value.text value).text? = some value := rfl

/-- Only text values have a text. -/
theorem Toml.Value.text?_eq_some_iff {v : Value} : v.text? = some value ↔ v = .text value := by
  cases v <;> simp [Value.text?]

/-- A name is read as a key exactly if it is the name of the key. -/
theorem Key.ofName?_eq_some_iff {name : String} : Key.ofName? name = some key ↔ name = key.name :=
  ⟨fun h => (Key.name_of_ofName? h).symm, fun h => h ▸ Key.ofName?_name key⟩

/-- Some key has a name exactly if it is found. -/
theorem Key.any_name_eq (name : String) :
    Key.all.any (·.name == name) = (Key.ofName? name).isSome := by
  rw [Key.ofName?, List.isSome_find?]

/-- The first pass notes the first two reasons, and the second pass the third one. -/
theorem dropReason?_eq (entry : String × Value) :
    dropReason? entry = (entryComplaint? entry).or (rejectReason? entry) ∧
      ((entryComplaint? entry).isSome → rejectReason? entry = none) := by
  rw [dropReason?, entryComplaint?, rejectReason?, Key.any_name_eq]
  cases Key.ofName? entry.1 <;> cases entry.2.text? <;> simp

/-- An entry is dropped for its text exactly if a known key does not accept this text. -/
theorem rejectReason?_eq_some_iff {d : Diagnostic} : rejectReason? entry = some d ↔
    ∃ key value, entry = (key.name, .text value) ∧ key.accepts value = false ∧
      d = .rejected key value := by
  obtain ⟨name, v⟩ := entry
  constructor
  · intro h
    obtain ⟨key, hkey, h⟩ := Option.bind_eq_some_iff.1 h
    obtain ⟨value, hvalue, h⟩ := Option.bind_eq_some_iff.1 h
    obtain rfl : name = key.name := Key.ofName?_eq_some_iff.1 hkey
    obtain rfl : v = .text value := Value.text?_eq_some_iff.1 hvalue
    cases ha : key.accepts value with
    | true => simp [ha] at h
    | false => exact ⟨key, value, rfl, ha, by simpa [ha] using h.symm⟩
  · rintro ⟨key, value, he, ha, rfl⟩
    obtain ⟨rfl, rfl⟩ := Prod.mk.inj he
    simp [rejectReason?, Key.ofName?_name, ha]

/-! ### Two passes over a list -/

/-- What two passes find in a list is what one pass finds that asks both, if they never both find
something in one place. -/
theorem filterMap_append_perm {α β : Type _} {f g : α → Option β}
    (h : ∀ a, (f a).isSome → g a = none) (l : List α) :
    (l.filterMap f ++ l.filterMap g).Perm (l.filterMap fun a => (f a).or (g a)) := by
  induction l with
  | nil => rfl
  | cons a l ih =>
      cases hf : f a with
      | some b => simpa [hf, h a (by simp [hf])] using ih
      | none =>
          cases hg : g a with
          | none => simpa [hf, hg] using ih
          | some b => simpa [hf, hg] using List.perm_middle.trans (ih.cons b)

/-! ### The layer of a section -/

/-- Entries with the same key are the same, if the keys are distinct. -/
theorem eq_of_nodup_keys (hn : (entries.map Prod.fst).Nodup) {name : String} {v v' : Value}
    (h : (name, v) ∈ entries) (h' : (name, v') ∈ entries) : v = v' :=
  (Prod.mk.inj (List.inj_on_of_nodup_map hn h h' rfl)).2

/-- If no key occurs twice, looking a key up finds a value exactly if the entry is there. -/
theorem lookup_eq_some_iff_mem (hn : (entries.map Prod.fst).Nodup) {name : String} {v : Value} :
    entries.lookup name = some v ↔ (name, v) ∈ entries := by
  constructor
  · intro h
    obtain ⟨l, r, rfl, -⟩ := List.lookup_eq_some_iff.1 h
    simp
  · intro h
    cases hl : entries.lookup name with
    | none => simpa using List.lookup_eq_none_iff.1 hl _ h
    | some v' =>
        obtain ⟨l, r, rfl, -⟩ := List.lookup_eq_some_iff.1 hl
        have h' : (name, v') ∈ l ++ (name, v') :: r := by simp
        rw [eq_of_nodup_keys hn h h']

/-- A key finds a text in an entry exactly if the entry sets this key to this text. -/
theorem Key.textIn?_eq_some_iff :
    key.textIn? entry = some value ↔ entry = (key.name, .text value) := by
  obtain ⟨name, v⟩ := entry
  by_cases h : name = key.name <;> simp [Key.textIn?, h, Value.text?_eq_some_iff]

/-- **What a section sets a key to is the text of its entry**, if the keys are distinct. -/
theorem Toml.Table.setting?_eq_some_iff (ht : t.get? sectionName = some (.table entries))
    (hn : (entries.map Prod.fst).Nodup) :
    t.setting? key = some value ↔ (key.name, .text value) ∈ entries := by
  rw [Table.setting?, ht]
  constructor
  · intro h
    obtain ⟨entry, he, h⟩ := List.exists_of_findSome?_eq_some h
    rw [← Key.textIn?_eq_some_iff.1 h]
    exact List.mem_reverse.1 he
  · intro h
    have hsome : (entries.reverse.findSome? key.textIn?).isSome := by
      rw [List.findSome?_isSome_iff]
      exact ⟨_, List.mem_reverse.2 h, by simp [Key.textIn?]⟩
    obtain ⟨value', h'⟩ := Option.isSome_iff_exists.1 hsome
    obtain ⟨entry, he, hvalue⟩ := List.exists_of_findSome?_eq_some h'
    rw [Key.textIn?_eq_some_iff.1 hvalue, List.mem_reverse] at he
    cases eq_of_nodup_keys hn h he
    exact h'

/-- What a section sets a key to is what looking the key up gives, if that is a text. -/
theorem Toml.Table.setting?_eq_lookup (ht : t.get? sectionName = some (.table entries))
    (hn : (entries.map Prod.fst).Nodup) (key : Key) :
    t.setting? key = (entries.lookup key.name).bind Value.text? := by
  refine Option.ext fun value => ?_
  rw [setting?_eq_some_iff ht hn, Option.bind_eq_some_iff]
  simp [Value.text?_eq_some_iff, lookup_eq_some_iff_mem hn]

namespace Layer

/-- A layer rejects a key exactly if it has a value for it that the key does not accept. -/
theorem rejection?_eq_some_iff {l : Layer} {d : Diagnostic} :
    l.rejection? key = some d ↔
      ∃ value, l.value? key = some value ∧ key.accepts value = false ∧ d = .rejected key value := by
  simp only [rejection?, Option.map_eq_some_iff, Option.filter_eq_some_iff, and_assoc,
    Bool.not_eq_true', @eq_comm _ _ d]

/-- **The second pass notes the entries with a text that cannot be used**, though in the order of
the keys. -/
theorem rejections_perm (ht : t.get? sectionName = some (.table entries))
    (hn : (entries.map Prod.fst).Nodup) :
    (Key.all.filterMap (ofTable t).rejection?).Perm (entries.filterMap rejectReason?) := by
  refine (List.perm_ext_iff_of_nodup ?_ ?_).2 fun d => ?_
  · refine List.Nodup.filterMap (fun key key' d hd hd' => ?_) (by decide)
    obtain ⟨_, -, -, rfl⟩ := rejection?_eq_some_iff.1 hd
    obtain ⟨_, -, -, h⟩ := rejection?_eq_some_iff.1 hd'
    exact (Diagnostic.rejected.inj h).1
  · refine List.Nodup.filterMap (fun e e' d hd hd' => ?_) (List.Nodup.of_map _ hn)
    obtain ⟨_, _, rfl, -, rfl⟩ := rejectReason?_eq_some_iff.1 hd
    obtain ⟨_, _, rfl, -, h⟩ := rejectReason?_eq_some_iff.1 hd'
    obtain ⟨rfl, rfl⟩ := Diagnostic.rejected.inj h
    rfl
  · simp only [List.mem_filterMap, rejection?_eq_some_iff, rejectReason?_eq_some_iff,
      (ofTable_eq t).1, Table.setting?_eq_some_iff ht hn]
    constructor
    · rintro ⟨key, -, value, hm, ha, rfl⟩
      exact ⟨_, hm, key, value, rfl, ha, rfl⟩
    · rintro ⟨_, hm, key, value, rfl, ha, rfl⟩
      exact ⟨key, Key.mem_all key, value, hm, ha, rfl⟩

/-- **The two passes together note each dropped entry once**, and nothing else. -/
theorem diagnostics_freeze_perm (ht : t.get? sectionName = some (.table entries))
    (hn : (entries.map Prod.fst).Nodup) :
    (ofTable t).freeze.diagnostics.Perm (entries.filterMap dropReason?) := by
  have hcomplaints : t.complaints = entries.filterMap entryComplaint? := by
    rw [Table.complaints, ht]
  have hreasons : dropReason? = fun entry => (entryComplaint? entry).or (rejectReason? entry) :=
    funext fun entry => (dropReason?_eq entry).1
  rw [diagnostics_freeze, ← List.filterMap_eq_flatMap_toList, (ofTable_eq t).2, hcomplaints,
    hreasons]
  exact ((rejections_perm ht hn).append_left _).trans
    (filterMap_append_perm (fun entry => (dropReason?_eq entry).2) entries)

/-- **No configured value is dropped silently.** Each key is settled to the text of its entry if
that can be used, and to the standard value otherwise. The entries without a reason to drop them are
those that reach the settings, and the diagnostics are the reasons of the others, one for each.
Settling what settling left of the layer, or what was settled, gives the same settings, sources and
diagnostics again. -/
theorem freeze_accounts (ht : t.get? sectionName = some (.table entries))
    (hn : (entries.map Prod.fst).Nodup) :
    let b := ofTable t
    let c := b.freeze
    (∀ key, c.settings.get key =
      (((entries.lookup key.name).bind Value.text?).filter key.accepts).getD key.standard) ∧
    (∀ entry ∈ entries, dropReason? entry = none ↔
      ∃ key, entry = (key.name, .text (c.settings.get key))) ∧
    c.diagnostics.Perm (entries.filterMap dropReason?) ∧
    b.sanitize.freeze = c ∧ c.thaw.freeze = c := by
  intro b c
  have hget (key : Key) : c.settings.get key =
      (((entries.lookup key.name).bind Value.text?).filter key.accepts).getD key.standard := by
    rw [get_freeze, (ofTable_eq t).1, Table.setting?_eq_lookup ht hn]
  refine ⟨hget, fun entry he => ?_, diagnostics_freeze_perm ht hn, freeze_sanitize b,
    freeze_thaw_freeze b⟩
  constructor
  · intro hnone
    obtain ⟨name, v⟩ := entry
    rw [dropReason?] at hnone
    split at hnone
    · cases hnone
    · cases hnone
    · next key value hkey hvalue =>
        obtain rfl : name = key.name := Key.ofName?_eq_some_iff.1 hkey
        obtain rfl : v = .text value := Value.text?_eq_some_iff.1 hvalue
        have ha : key.accepts value = true := by simpa using hnone
        refine ⟨key, ?_⟩
        rw [hget, (lookup_eq_some_iff_mem hn).2 he]
        simp [Option.filter, ha]
  · rintro ⟨key, rfl⟩
    simp [dropReason?, Key.ofName?_name, accepts_freeze, c]

/-- An entry that reaches the settings, and one for each reason to drop it. -/
theorem freeze_accounts_of_mixed :
    let entries : Table := [("comment_prefix", .text "#"), ("verb", .text "hush"),
      ("colour", .text "red"), ("all_checks_id", .integer 1), ("file_scope_suffix", .text "")]
    let t : Table := [(sectionName, .table entries)]
    let c := (ofTable t).freeze
    t.get? sectionName = some (.table entries) ∧ (entries.map Prod.fst).Nodup ∧
      c.settings.get .verb = "hush" ∧ c.settings.get .marker = "//" ∧
      c.diagnostics.Perm [.rejected .marker "#", .unknownKey "colour",
        .notText "all_checks_id" "int", .rejected .fileSuffix ""] ∧
      (ofTable t).sanitize.freeze = c ∧ c.thaw.freeze = c := by
  intro entries t c
  have ht : t.get? sectionName = some (.table entries) := rfl
  have hn : (entries.map Prod.fst).Nodup := by decide
  obtain ⟨hget, -, hperm, hagain, hthaw⟩ := freeze_accounts ht hn
  have hreasons : entries.filterMap dropReason? = [.rejected .marker "#", .unknownKey "colour",
      .notText "all_checks_id" "int", .rejected .fileSuffix ""] := by decide +kernel
  have hverb : c.settings.get .verb = "hush" := (hget .verb).trans (by decide +kernel)
  have hmarker : c.settings.get .marker = "//" := (hget .marker).trans (by decide +kernel)
  exact ⟨ht, hn, hverb, hmarker, hreasons ▸ hperm, hagain, hthaw⟩

end Layer

end BnfSuppression
