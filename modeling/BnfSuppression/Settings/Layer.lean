import BnfSuppression.Settings
import BnfSuppression.Text.Quoted

/-!
# Layers of settings

Settings are put together from layers: the standard ones, those of configuration files, and so on.
A layer sets some of the values and inherits the others. Whatever a layer holds that cannot be used
is dropped and noted in a diagnostic, and the standard value takes its place.

## Main definitions

* `Key`: what can be set; `Key.accepts`: the values that can be used.
* `Diagnostic`: why something was dropped.
* `Layer`: values, the sources they come from, and diagnostics.
* `Layer.sanitize`, `Layer.merge`, `Layer.freeze`: dropping unusable values, laying one layer over
  another, and settling.
* `Configuration`: settled settings with their sources and diagnostics.

## Main results

* `Layer.value?_sanitize`: sanitizing keeps the accepted values and no other.
* `Layer.diagnostics_sanitize`: it notes the others in the order of the keys.
* `Layer.freeze_sanitize`, `Layer.freeze_thaw_freeze`: settling again changes nothing.
* `Layer.accepts_freeze`: settled values can be used.
-/

namespace BnfSuppression

/-- What can be set in a configuration file or by a caller. -/
inductive Key
  | verb
  | fileSuffix
  | allChecksId
  | marker
  deriving DecidableEq, Repr

namespace Key

/-- The keys in the order in which their values are checked. -/
def all : List Key := [verb, fileSuffix, allChecksId, marker]

/-- The name of a key in configuration files. -/
def name : Key → String
  | verb => "verb"
  | fileSuffix => "file_scope_suffix"
  | allChecksId => "all_checks_id"
  | marker => "comment_prefix"

/-- The key of a name. -/
def ofName? (name : String) : Option Key := all.find? (·.name == name)

/-- The list of all keys has every key. -/
theorem mem_all (k : Key) : k ∈ all := by cases k <;> decide

end Key

/-- The text is one id: characters of ids, which one line feed may follow. -/
def isToken (text : String) : Bool :=
  let cs := text.toList
  let body := if cs.getLast? = some '\n' then cs.dropLast else cs
  !body.isEmpty && body.all Directive.isIdChar

/-- The markers that a grammar reads as the start of a line comment. Directives are read after
others too, but could not be inserted with these. -/
def writableMarkers : List String := ["//"]

/-- A value that can be used for a key: a marker that can be written, and one id for any other
key. -/
def Key.accepts (key : Key) (value : String) : Bool :=
  match key with
  | marker => writableMarkers.contains value
  | verb | fileSuffix | allChecksId => isToken value

/-- The standard value of a key. -/
def Key.standard (key : Key) : String :=
  match key with
  | verb => Settings.standard.verb
  | fileSuffix => Settings.standard.fileSuffix
  | allChecksId => Settings.standard.allChecksId
  | marker => Settings.standard.marker

/-- The value of a key in settings. -/
def Settings.get (s : Settings) (key : Key) : String :=
  match key with
  | .verb => s.verb
  | .fileSuffix => s.fileSuffix
  | .allChecksId => s.allChecksId
  | .marker => s.marker

/-- The settings with a value for each key. -/
def Settings.ofValues (value : Key → String) : Settings :=
  ⟨value .verb, value .fileSuffix, value .allChecksId, value .marker⟩

/-- Settings made of values have these values. -/
@[simp]
theorem Settings.get_ofValues (value : Key → String) (key : Key) :
    (Settings.ofValues value).get key = value key := by
  cases key <;> rfl

/-- Why something in a configuration was dropped. -/
inductive Diagnostic
  /-- The section of the settings is not a table. -/
  | notATable
  | unknownKey (key : String)
  /-- The value of a key is no text, but of another type. -/
  | notText (key type : String)
  /-- The value cannot be used for the key. -/
  | rejected (key : Key) (value : String)
  deriving DecidableEq, Repr

/-- The name of the section of the settings in configuration files. -/
def sectionName : String := "suppress"

/-- What a value of a key has to be. -/
def Key.expectation : Key → String
  | marker => "expected one of " ++ ", ".intercalate writableMarkers
  | verb | fileSuffix | allChecksId => "expected a single token"

/-- The text of a diagnostic. -/
def Diagnostic.message : Diagnostic → String
  | notATable => "[" ++ sectionName ++ "] must be a table; ignored"
  | unknownKey key => "Unknown key '" ++ key ++ "' in [" ++ sectionName ++ "]; ignored"
  | notText key type => "Value for '" ++ key ++ "' must be a string, got " ++ type ++ "; ignored"
  | rejected key value =>
    "Invalid value for '" ++ key.name ++ "': " ++ Text.quote value ++ " (" ++ key.expectation ++
      "); using default"

/-- Some values, the sources they come from, and what was dropped. Values may be missing, and need
not be such as can be used. -/
structure Layer where
  value? : Key → Option String
  sources : List String
  diagnostics : List Diagnostic

/-- Settled settings, the sources they come from, and what was dropped. There is a value for every
key. -/
structure Configuration where
  settings : Settings
  sources : List String
  diagnostics : List Diagnostic
  deriving Repr, DecidableEq

namespace Layer

/-- The layer that sets nothing. -/
def empty : Layer := ⟨fun _ => none, [], []⟩

/-- The layer of the standard values. -/
def standard : Layer := ⟨fun key => some key.standard, ["<defaults>"], []⟩

/-- The layer with another value for a key, or without one. -/
def set (l : Layer) (key : Key) (value? : Option String) : Layer :=
  { l with value? := fun k => if k = key then value? else l.value? k }

/-- The layer with one more diagnostic. -/
def note (l : Layer) (d : Diagnostic) : Layer := { l with diagnostics := l.diagnostics ++ [d] }

/-- Drops and notes the value of a key if it cannot be used. A key without a value is left alone. -/
def check (l : Layer) (key : Key) : Layer :=
  match l.value? key with
  | none => l
  | some value => if key.accepts value then l else (l.set key none).note (.rejected key value)

/-- Drops and notes all values that cannot be used. -/
def sanitize (l : Layer) : Layer := Key.all.foldl check l

/-- The settings of a layer whose values can be used; keys without a value get the standard one. -/
def settle (l : Layer) : Configuration :=
  ⟨.ofValues fun key => (l.value? key).getD key.standard, l.sources, l.diagnostics⟩

/-- The settings of a layer: unusable values are dropped and noted first. -/
def freeze (l : Layer) : Configuration := l.sanitize.settle

/-- Lays a layer over another: what it sets wins, and its sources and diagnostics come last. -/
def merge (lower upper : Layer) : Layer where
  value? key := (upper.value? key).or (lower.value? key)
  sources := lower.sources ++ upper.sources
  diagnostics := lower.diagnostics ++ upper.diagnostics

end Layer

/-- The layer that sets what a configuration has settled, so that it can be changed and settled
again. -/
def Configuration.thaw (c : Configuration) : Layer :=
  ⟨fun key => some (c.settings.get key), c.sources, c.diagnostics⟩

/-- The configuration of the standard settings. -/
def Configuration.standard : Configuration := Layer.standard.freeze

/-! ### Sanitizing -/

namespace Layer

/-- Noting a diagnostic changes no value. -/
@[simp]
theorem value?_note (l : Layer) (d : Diagnostic) : (l.note d).value? = l.value? := rfl

/-- Checking a key drops its value if it is not accepted, and no other. -/
theorem value?_check (l : Layer) (key other : Key) :
    (l.check key).value? other =
      if other = key then (l.value? key).filter key.accepts else l.value? other := by
  unfold check
  by_cases h : other = key
  · subst h
    cases hv : l.value? other with
    | none => simp [hv]
    | some v => by_cases ha : other.accepts v <;> simp [ha, hv, set, Option.filter]
  · cases hv : l.value? key with
    | none => simp [h]
    | some v => by_cases ha : key.accepts v <;> simp [ha, h, set]

/-- Sanitizing keeps the values that can be used, and no other. -/
theorem value?_sanitize (l : Layer) (key : Key) :
    l.sanitize.value? key = (l.value? key).filter key.accepts := by
  cases key <;> simp [sanitize, Key.all, value?_check]

/-- Checking a key whose value is accepted, or missing, changes nothing. -/
theorem check_of_accepted (l : Layer) (key : Key)
    (h : (l.value? key).filter key.accepts = l.value? key) : l.check key = l := by
  cases hv : l.value? key with
  | none => simp [check, hv]
  | some v =>
    have ha : key.accepts v := by simpa [hv, Option.filter] using h
    simp [check, hv, ha]

/-- Sanitizing again changes nothing. -/
theorem sanitize_sanitize (l : Layer) : l.sanitize.sanitize = l.sanitize := by
  have h (key : Key) : l.sanitize.check key = l.sanitize :=
    check_of_accepted _ _ (by simp [value?_sanitize])
  generalize hl : l.sanitize = m at h
  simp [sanitize, Key.all, h]

/-- The diagnostic for the value of a key, if it cannot be used. -/
def rejection? (l : Layer) (key : Key) : Option Diagnostic :=
  ((l.value? key).filter (!key.accepts ·)).map (.rejected key)

/-- Checking a key notes its rejection, if there is one, behind what was noted before. -/
theorem diagnostics_check (l : Layer) (key : Key) :
    (l.check key).diagnostics = l.diagnostics ++ (l.rejection? key).toList := by
  unfold check rejection?
  cases hv : l.value? key with
  | none => simp
  | some v => by_cases ha : key.accepts v <;> simp [ha, set, note, Option.filter]

/-- Checking a key makes no difference to whether another one is rejected. -/
theorem rejection?_check {l : Layer} {key other : Key} (h : other ≠ key) :
    (l.check key).rejection? other = l.rejection? other := by
  simp [rejection?, value?_check, h]

/-- **Sanitizing notes the values that cannot be used**, in the order of the keys. -/
theorem diagnostics_sanitize (l : Layer) : l.sanitize.diagnostics =
    l.diagnostics ++ Key.all.flatMap fun key => (l.rejection? key).toList := by
  simp [sanitize, Key.all, diagnostics_check, rejection?_check]

/-! ### Settling -/

/-- What a key is settled to: its value if it can be used, and the standard one otherwise. -/
theorem get_freeze (l : Layer) (key : Key) :
    l.freeze.settings.get key = ((l.value? key).filter key.accepts).getD key.standard := by
  rw [freeze, settle, Settings.get_ofValues, value?_sanitize]

/-- Freezing a layer notes the rejections in the order of the keys, behind what was noted before. -/
theorem diagnostics_freeze (l : Layer) : l.freeze.diagnostics =
    l.diagnostics ++ Key.all.flatMap fun key => (l.rejection? key).toList :=
  l.diagnostics_sanitize

/-- Every key accepts its standard value. -/
theorem accepts_standard (key : Key) : key.accepts key.standard = true := by
  cases key <;> decide

/-- **The values of settled settings can be used.** -/
theorem accepts_freeze (l : Layer) (key : Key) :
    key.accepts (l.freeze.settings.get key) = true := by
  rw [get_freeze]
  cases hv : (l.value? key).filter key.accepts with
  | none => exact accepts_standard key
  | some value => exact (Option.filter_eq_some_iff.1 hv).2

/-- Whatever a layer sets, the marker of the settings is two slashes: no other one is accepted. -/
theorem marker_freeze (l : Layer) : l.freeze.settings.marker = "//" := by
  have h := l.accepts_freeze .marker
  simpa [Key.accepts, writableMarkers, Settings.get] using h

/-- **Settling again changes nothing.** -/
theorem freeze_sanitize (l : Layer) : l.sanitize.freeze = l.freeze := by
  rw [freeze, sanitize_sanitize, freeze]

/-- A layer all of whose values can be used is settled as it is. -/
theorem sanitize_of_accepted {l : Layer}
    (h : ∀ key value, l.value? key = some value → key.accepts value = true) : l.sanitize = l := by
  have hcheck (key : Key) : l.check key = l := check_of_accepted l key (by
    cases hv : l.value? key with
    | none => rfl
    | some value => simp [Option.filter, h key value hv])
  simp [sanitize, Key.all, hcheck]

/-- **What was settled is settled as it is.** -/
theorem freeze_thaw_freeze (l : Layer) : l.freeze.thaw.freeze = l.freeze := by
  have hthaw : l.freeze.thaw.sanitize = l.freeze.thaw := by
    refine sanitize_of_accepted fun key value hv => ?_
    obtain rfl := Option.some.inj hv
    exact l.accepts_freeze key
  rw [freeze, hthaw]
  rfl

end Layer

end BnfSuppression
