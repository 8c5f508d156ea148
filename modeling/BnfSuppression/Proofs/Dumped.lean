import BnfSuppression.Proofs.Encoding
import BnfSuppression.Proofs.Precedence
import BnfSuppression.Proofs.Section
import BnfSuppression.Proofs.Unusable

/-!
# Written Settings Are Loaded Again

Settings are written as a section with a line for each key, and a file with these bytes gives a
layer that sets all keys to the same texts. Laid over whatever other files give, it decides every
key, and as settled texts can be used, nothing is dropped when the layers are settled. Of the format
this only takes that it reads sections of texts back.

Whether the other files can be looked at is another matter: a file on the way up from the start that
cannot be looked up, or is not legible, ends the loading, however it would have been overruled.

## Main results

* `Settings.read_toToml`: **written settings are read back**.
* `load_of_toToml`: the layer of written settings.
* `loadMerged_of_toToml`: named as the last file, it decides all settings.
* `Layer.dump_reproduced`: **when written settings come out again**.
-/

namespace BnfSuppression

open Files (Host Path Place)
open Toml (IsBare ofTexts)

variable {toml : Toml.Format} {h : Host} {p : Path} {s : Settings}

namespace Settings

/-- Settings with the same value for every key are the same settings. -/
theorem ext_get {s s' : Settings} (hget : ∀ key, s.get key = s'.get key) : s = s' := by
  cases s
  cases s'
  exact Settings.mk.injEq .. ▸ ⟨hget .verb, hget .fileSuffix, hget .allChecksId, hget .marker⟩

/-- The lines of settings. -/
def texts (s : Settings) : List (String × String) := Key.all.map fun key => (key.name, s.get key)

/-- Settings are written as a single section, which holds a text for every key. -/
theorem toTable_eq (s : Settings) : s.toTable = [(sectionName, .table (ofTexts s.texts))] := rfl

/-- The names that settings are written under need no quotation marks. -/
theorem isBare_of_mem_texts (s : Settings) : ∀ e ∈ s.texts, IsBare e.1 := by
  have hall : ∀ key ∈ Key.all, IsBare key.name := by decide +kernel
  intro e he
  obtain ⟨key, hkey, rfl⟩ := List.mem_map.1 he
  exact hall key hkey

/-- Settings are written with every key once. -/
theorem nodup_texts (s : Settings) : (s.texts.map Prod.fst).Nodup := by
  have hkeys : s.texts.map Prod.fst = Key.all.map Key.name := by
    simp [texts, Function.comp_def]
  exact hkeys ▸ (by decide : (Key.all.map Key.name).Nodup)

/-- **Written settings are read back.** -/
theorem read_toToml (ht : toml.Lawful) (s : Settings) :
    toml.read (s.toToml toml) = .ok s.toTable := by
  rw [toToml, toTable_eq]
  exact ht.read_write (by decide +kernel) s.isBare_of_mem_texts s.nodup_texts

/-- Settings are written without a carriage return, so reading the file changes no line break. -/
theorem return_notMem_toToml (ht : toml.Lawful) (s : Settings) :
    '\r' ∉ (s.toToml toml).toList := by
  rw [toToml, toTable_eq]
  exact ht.return_notMem (by decide +kernel) s.isBare_of_mem_texts s.nodup_texts

/-- The table of settings sets each key, and nothing in it is wrong. -/
theorem setting?_toTable (s : Settings) (key : Key) :
    s.toTable.setting? key = some (s.get key) := by
  cases key <;> rfl

/-- Nothing in what settings are written as is complained about. -/
theorem complaints_toTable (s : Settings) : s.toTable.complaints = [] := rfl

end Settings

/-! ### The file of the settings -/

/-- The bytes of written settings stand for their table. -/
theorem loadTable_of_toToml (ht : toml.Lawful)
    (hb : h.readBytes p = .ok (s.toToml toml).toUTF8) : loadTable toml h p = .ok s.toTable := by
  have hcs : Text.decodeUtf8 (s.toToml toml).toUTF8 = .ok (s.toToml toml).toList := by
    rw [Text.toUTF8_eq_utf8Encode, Text.decodeUtf8_utf8Encode]
  rw [loadTable_of_readBytes hb hcs, Text.normalizeBreaks_eq_self (s.return_notMem_toToml ht),
    String.ofList_toList, s.read_toToml ht]
  rfl

/-- **The layer of written settings** sets each key as they do. -/
theorem load_of_toToml (ht : toml.Lawful) (hp : p.name ≠ projectFileName)
    (hb : h.readBytes p = .ok (s.toToml toml).toUTF8) :
    ∃ layer, Layer.load toml h p = .ok (some layer) ∧
      (∀ key, layer.value? key = some (s.get key)) ∧ layer.diagnostics = [] := by
  obtain ⟨hvalue, hdiagnostics⟩ := Layer.ofTable_eq s.toTable
  refine ⟨{ Layer.ofTable s.toTable with sources := [p.toString] }, ?_,
    fun key => (hvalue key).trans (s.setting?_toTable key),
    hdiagnostics.trans s.complaints_toTable⟩
  rw [Layer.load, loadTable_of_toToml ht hb]
  simp [programTable?, hp, bind, Except.bind, pure, Except.pure]

/-- A layer that sets each key to a text that can be used is settled to these texts. -/
theorem Layer.freeze_of_accepted {layer : Layer}
    (hvalue : ∀ key, layer.value? key = some (s.get key))
    (hs : ∀ key : Key, key.accepts (s.get key) = true) :
    layer.freeze.settings = s ∧ layer.freeze.diagnostics = layer.diagnostics := by
  have hsanitize : layer.sanitize = layer := sanitize_of_accepted fun key value hv => by
    obtain rfl := Option.some.inj ((hvalue key).symm.trans hv)
    exact hs key
  refine ⟨Settings.ext_get fun key => ?_, by rw [freeze, hsanitize]; rfl⟩
  rw [get_freeze, hvalue]
  simp [Option.filter, hs]

/-! ### Other files -/

/-- **The last file that is named lies over all others**: if the search works, the settings that it
was written from come out whatever the other files say. -/
theorem loadMerged_of_toToml {layer : Layer} {start? : Option Path} {others : List Path}
    (hlayer : Layer.load toml h p = .ok (some layer))
    (hvalue : ∀ key, layer.value? key = some (s.get key))
    (hs : ∀ key : Key, key.accepts (s.get key) = true)
    (hsearch : ∀ start ∈ start?, SearchableFrom toml h start)
    (hothers : ∀ q ∈ others, ∃ l?, Layer.load toml h q = .ok l?) :
    (loadMerged toml h start? (others ++ [p])).2 = none ∧
      (loadMerged toml h start? (others ++ [p])).1.freeze.settings = s := by
  obtain ⟨lower, hlower⟩ := loadMerged_append hsearch hothers
  have hmerge : mergeFiles toml h lower [p] = (lower.merge layer, none) := by
    simp [mergeFiles, hlayer]
  rw [hlower, hmerge]
  refine ⟨rfl, (Layer.freeze_of_accepted (fun key => ?_) hs).1⟩
  simp [Layer.merge, hvalue]

/-- **When written settings come out again**, in every format that reads sections of texts back. A
file with the bytes of settings that were settled, if it is not named like the file of a project,
gives a layer that sets each key as they do, and is settled to them with nothing dropped. Named as
the last file after others that can be loaded, it decides all settings, whatever the others say and
wherever the search starts, exactly if all files that are looked at can be looked up and are
legible; if one is not, the loading fails with what is not reported. -/
theorem Layer.dump_reproduced (ht : toml.Lawful) (l : Layer) (hp : p.name ≠ projectFileName)
    (hb : h.readBytes p = .ok (l.freeze.settings.toToml toml).toUTF8) :
    (∃ layer, Layer.load toml h p = .ok (some layer) ∧
      (∀ key, layer.value? key = some (l.freeze.settings.get key)) ∧ layer.diagnostics = [] ∧
      layer.freeze.settings = l.freeze.settings ∧ layer.freeze.diagnostics = []) ∧
    ∀ start? others, (∀ q ∈ others, ∃ l?, Layer.load toml h q = .ok l?) →
      ((∀ start ∈ start?, SearchableFrom toml h start) →
        (loadMerged toml h start? (others ++ [p])).2 = none ∧
          (loadMerged toml h start? (others ++ [p])).1.freeze.settings = l.freeze.settings) ∧
      ∀ start ∈ start?, ¬ SearchableFrom toml h start →
        ∃ e, (loadMerged toml h start? (others ++ [p])).2 = some e ∧ e.isReported = false := by
  obtain ⟨layer, hlayer, hvalue, hdiagnostics⟩ := load_of_toToml ht hp hb
  obtain ⟨hsettings, hkept⟩ := freeze_of_accepted hvalue l.accepts_freeze
  refine ⟨⟨layer, hlayer, hvalue, hdiagnostics, hsettings, hkept.trans hdiagnostics⟩,
    fun start? others hothers => ⟨fun hsearch => ?_, fun start hstart hsearch => ?_⟩⟩
  · exact loadMerged_of_toToml hlayer hvalue l.accepts_freeze hsearch hothers
  · exact loadMerged_of_not_searchable hstart hsearch _

/-- A file on the way up that is overruled, and one that is not legible. -/
theorem Layer.dump_reproduced_of_nested :
    let l : Layer := (Layer.empty.set .verb (some "hush")).set .marker (some "#")
    let h : Host := ⟨.ofFiles [] [
      (["a", "quietmark.toml"], "[suppress]\nverb = \"quiet\"\n".toUTF8),
      (["b", "quietmark.toml"], (l.freeze.settings.toToml .standard).toUTF8),
      (["c", "quietmark.toml"], ⟨#[0xFF]⟩)], [], [], [], []⟩
    let p := Path.ofString "b/quietmark.toml"
    Toml.Format.standard.Lawful ∧ p.name ≠ projectFileName ∧
      h.readBytes p = .ok (l.freeze.settings.toToml .standard).toUTF8 ∧
      (loadMerged .standard h (some (.ofString "a")) [p]).2 = none ∧
      (loadMerged .standard h (some (.ofString "a")) [p]).1.freeze.settings =
        ⟨"hush", "ForFile", "ALL", "//"⟩ ∧
      ∃ e, (loadMerged .standard h (some (.ofString "c")) [p]).2 = some e ∧
        e.isReported = false := by
  intro l h p
  have hp : p.name ≠ projectFileName := by decide +kernel
  have hb : h.readBytes p = .ok (l.freeze.settings.toToml .standard).toUTF8 := rfl
  have hsettings : l.freeze.settings = ⟨"hush", "ForFile", "ALL", "//"⟩ := by decide +kernel
  have hsearch : SearchableFrom .standard h (.ofString "a") :=
    searchableFrom_iff_isSome_discover.2 (by decide +kernel)
  have hbroken : ¬ SearchableFrom .standard h (.ofString "c") := fun hs =>
    absurd (searchableFrom_iff_isSome_discover.1 hs) (by decide +kernel)
  obtain ⟨-, hmerged⟩ := Layer.dump_reproduced Toml.Format.standard_lawful l hp hb
  obtain ⟨hnone, hout⟩ := (hmerged (some (.ofString "a")) [] (by simp)).1 (by
    rintro start ⟨⟩
    exact hsearch)
  exact ⟨Toml.Format.standard_lawful, hp, hb, hnone, hout.trans hsettings,
    (hmerged (some (.ofString "c")) [] (by simp)).2 _ rfl hbroken⟩

end BnfSuppression
