import BnfSuppression.Files.Disk
import Mathlib.Data.List.Basic

/-!
# Files That Are Read and Written

What the files of a machine have to do with the texts that are read and written at paths.

## Main results

* `Files.Host.isFile_of_readBytes`: what can be read is a file.
* `Files.Host.readText_eq_ok`: a text that was read is that of the bytes of one file.
* `Files.Host.writeText_eq_ok`, `Files.Disk.file?_write`: **a text that was written is in one file,
  and the others stay**.
-/

namespace BnfSuppression

/-- A sequence of two steps succeeds if the first does, and the second with its result. -/
theorem of_bind_eq_ok {ε α β : Type _} {x : Except ε α} {f : α → Except ε β} {b : β}
    (h : (x >>= f) = .ok b) : ∃ a, x = .ok a ∧ f a = .ok b := by
  cases x with
  | error e => cases h
  | ok a => exact ⟨a, rfl, h⟩

/-- Naming a failure anew makes no success. -/
theorem of_mapError_eq_ok {ε δ α : Type _} {x : Except ε α} {f : ε → δ} {a : α}
    (h : x.mapError f = .ok a) : x = .ok a := by
  cases x with
  | error e => cases h
  | ok a' => exact congrArg Except.ok (Except.ok.inj h)

namespace Files

variable {h h' : Host} {p : Path} {text : String}

/-! ### Reading -/

/-- Bytes that were read are those of the file at the path. -/
theorem Host.readBytes_eq_ok {bytes : ByteArray} (hr : h.readBytes p = .ok bytes) :
    ∃ place, h.find p = .ok place ∧ h.disk.file? place = some bytes := by
  obtain ⟨-, -, hr⟩ := of_bind_eq_ok hr
  obtain ⟨place, hplace, hr⟩ := of_bind_eq_ok hr
  refine ⟨place, hplace, ?_⟩
  cases hd : h.disk.isDirectory place with
  | true =>
      rw [hd] at hr
      cases hr
  | false =>
      rw [hd] at hr
      cases hfile : h.disk.file? place <;> rw [hfile] at hr <;> cases hr
      rfl

/-- Where a path leads to is what is found there, if that can be told. -/
theorem Host.lookUp_of_find {place : Place} {place? : Option Place} (hf : h.find p = .ok place)
    (hl : h.lookUp p = .ok place?) : place? = some place := by
  obtain ⟨-, -, hl⟩ := of_bind_eq_ok hl
  rw [hf] at hl
  exact (Except.ok.inj hl).symm

/-- What can be read is a file, if that can be told. -/
theorem Host.isFile_of_readBytes {bytes : ByteArray} {b : Bool} (hr : h.readBytes p = .ok bytes)
    (hb : h.isFile p = .ok b) : b = true := by
  obtain ⟨place, hplace, hfile⟩ := readBytes_eq_ok hr
  obtain ⟨place?, hl, hb⟩ := of_bind_eq_ok hb
  obtain rfl := lookUp_of_find hplace hl
  obtain rfl := Except.ok.inj hb
  simp [Disk.isFile, hfile]

/-- What is a file has a path. -/
theorem Host.readBytes_ne_nullCharacter (hf : h.isFile p = .ok true) :
    h.readBytes p ≠ .error .nullCharacter := by
  obtain ⟨place?, hl, hf⟩ := of_bind_eq_ok hf
  obtain ⟨-, -, hl⟩ := of_bind_eq_ok hl
  cases hplace : h.find p with
  | error t =>
      -- a path that leads nowhere is no file
      rw [hplace] at hl
      cases t <;> cases hl <;> cases hf
  | ok place =>
      simp only [readBytes, breakdownAt, hplace]
      cases h.breakdowns.find? fun b => b.access = .read && b.path == p.toString with
      | some b => simp [bind, Except.bind]
      | none =>
          simp only [bind, Except.bind]
          cases h.disk.isDirectory place <;> cases h.disk.file? place <;>
            simp [throw, throwThe, MonadExceptOf.throw, pure, Except.pure]

/-- A text that was read is that of the bytes at the path, with line feeds for its line breaks. -/
theorem Host.readText_eq_ok (hr : h.readText p = .ok text) :
    ∃ place bytes cs, h.find p = .ok place ∧ h.disk.file? place = some bytes ∧
      Text.decodeUtf8 bytes = .ok cs ∧ text = String.ofList (Text.normalizeBreaks cs) := by
  obtain ⟨bytes, hbytes, hr⟩ := of_bind_eq_ok hr
  obtain ⟨cs, hcs, hr⟩ := of_bind_eq_ok hr
  obtain ⟨place, hplace, hfile⟩ := readBytes_eq_ok (of_mapError_eq_ok hbytes)
  exact ⟨place, bytes, cs, hplace, hfile, of_mapError_eq_ok hcs, (Except.ok.inj hr).symm⟩

/-- Bytes that cannot be read are no text. -/
theorem Host.readText_of_trouble {e : Trouble} (he : h.readBytes p = .error e) :
    h.readText p = .error (.trouble e) := by
  rw [readText, he]
  rfl

/-- Bytes that spell characters are a text. -/
theorem Host.readText_of_decodeUtf8 {bytes : ByteArray} {cs : List Char}
    (hb : h.readBytes p = .ok bytes) (hcs : Text.decodeUtf8 bytes = .ok cs) :
    h.readText p = .ok (String.ofList (Text.normalizeBreaks cs)) := by
  rw [readText, hb]
  change ((Text.decodeUtf8 bytes).mapError TextTrouble.encoding >>= _) = _
  rw [hcs]
  rfl

/-- Bytes that spell no characters are no text. -/
theorem Host.readText_of_encoding {bytes : ByteArray} {e : Text.DecodeError}
    (hb : h.readBytes p = .ok bytes) (he : Text.decodeUtf8 bytes = .error e) :
    h.readText p = .error (.encoding e) := by
  rw [readText, hb]
  change ((Text.decodeUtf8 bytes).mapError TextTrouble.encoding >>= _) = _
  rw [he]
  rfl

/-! ### Writing -/

/-- Exchanging the bytes of one place leaves the others. -/
theorem Disk.lookup_map_exchange (files : List (Place × ByteArray)) (place other : Place)
    (bytes : ByteArray) :
    (files.map fun f => if f.1 == place then (place, bytes) else f).lookup other =
      if other = place then (files.lookup place).map fun _ => bytes else files.lookup other := by
  induction files with
  | nil => simp
  | cons f files ih =>
      rw [List.map_cons, List.lookup_cons, List.lookup_cons, List.lookup_cons, ih]
      by_cases ho : other = place
      · subst ho
        by_cases hf : f.1 = other
        · simp [hf]
        · simp [hf, beq_eq_false_iff_ne.2 (Ne.symm hf)]
      · by_cases hf : f.1 = place
        · simp [hf, ho, beq_eq_false_iff_ne.2 ho]
        · simp [hf, ho]

/-- **Only the file that is written changes.** -/
theorem Disk.file?_write (d : Disk) (place other : Place) (bytes : ByteArray) :
    (d.write place bytes).file? other = if other = place then some bytes else d.file? other := by
  rw [write]
  split
  · next h =>
      obtain ⟨b, hb⟩ := Option.isSome_iff_exists.1 h
      rw [file?] at hb
      rw [file?, lookup_map_exchange, hb]
      rfl
  · next h =>
      have hnone : d.files.lookup place = none := Option.not_isSome_iff_eq_none.1 h
      rw [file?, List.lookup_append, List.lookup_cons]
      by_cases ho : other = place
      · simp [ho, hnone]
      · simp [ho, file?, beq_eq_false_iff_ne.2 ho]

/-- A text that was written is at the path. -/
theorem Host.writeText_eq_ok (hw : h.writeText p text = .ok h') :
    ∃ place, h.find p = .ok place ∧ h' = { h with disk := h.disk.write place text.toUTF8 } := by
  obtain ⟨-, -, hw⟩ := of_bind_eq_ok hw
  obtain ⟨place, hplace, hw⟩ := of_bind_eq_ok hw
  refine ⟨place, hplace, ?_⟩
  split at hw <;> cases hw
  rfl

end Files

end BnfSuppression
