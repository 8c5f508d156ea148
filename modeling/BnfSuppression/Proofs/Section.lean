import BnfSuppression.Proofs.Directive.Grammar
import BnfSuppression.Toml.Format
import Mathlib.Data.List.Basic
import Mathlib.Data.List.Nodup

/-!
# Sections Are Read Back

A table with one section of texts is written as a header and a line for each text. Reading takes
these apart again: the quotes and escapes of a text give its characters back, whatever they are, a
bare key ends where its letters do, and as each key comes once, the parts of the section are put
together without any joining.

## Main definitions

* `Toml.Escaped`: how a character may be written in quotes.
* `Toml.IsBare`: a key that is written without quotes.
* `Toml.line`, `Toml.ofTexts`: the line of a key with a text, and the section of such lines.
* `Toml.Format.Lawful`: the law of a format that reads sections of texts back.

## Main results

* `Toml.quoted_escape`: **a text in quotes is read back**.
* `Toml.key_bare`: a bare key is read back.
* `Toml.readEntries_lines`: the lines of a section are read back.
* `Toml.settle_partsOfTable`: parts with keys that come once are the table that they stand for.
* `Toml.read_write_section`: **a table with a section of texts is read back**.
* `Toml.return_notMem_write_section`: the only line breaks of a section are line feeds.
* `Toml.Format.standard_lawful`: the format that the program uses keeps the law.
-/

namespace BnfSuppression.Toml

/-! ### Texts -/

/-- A character that may stand in quotes as it is. -/
def isPlain (c : Char) : Bool := c != '"' && c != '\\' && !isControl c

/-- How a character may be written in quotes: after a backslash, by its code, or as it is. -/
inductive Escaped (c : Char) : List Char → Prop
  | letter {l : Char} : escapes.lookup l = some c → Escaped c ['\\', l]
  | code {code : List Char} : code.length = 4 → codePoint? code = some c →
    code.all isPlain = true → Escaped c ('\\' :: 'u' :: code)
  | plain : isPlain c = true → Escaped c [c]

/-- What may stand in quotes as it is are all characters but the quotation mark, the backslash and
controls. -/
theorem isPlain_iff {c : Char} :
    isPlain c = true ↔ c ≠ '"' ∧ c ≠ '\\' ∧ isControl c = false := by
  simp [isPlain, and_assoc]

/-- The codes of control characters are read back. -/
theorem codePoint?_hex {n : Nat} (h : n < 0x80) :
    (Text.hex 4 n).length = 4 ∧ codePoint? (Text.hex 4 n) = some (Char.ofNat n) ∧
      (Text.hex 4 n).all isPlain = true := by
  revert n
  decide +kernel

/-- A letter that is written for a character is read as this character. -/
theorem lookup_escapes {c letter : Char} (h : escapeLetters.lookup c = some letter) :
    escapes.lookup letter = some c := by
  have hall : ∀ p ∈ escapeLetters, escapes.lookup p.2 = some p.1 := by decide
  obtain ⟨l, r, hl, -⟩ := List.lookup_eq_some_iff.1 h
  exact hall (c, letter) (by simp [hl])

/-- **Each character is written in one of these ways.** -/
theorem escaped_escapeChar (c : Char) : Escaped c (escapeChar c) := by
  rw [escapeChar]
  cases h : escapeLetters.lookup c with
  | some letter => exact .letter (lookup_escapes h)
  | none =>
      have hne : ∀ d ∈ escapeLetters.map Prod.fst, c ≠ d := by
        intro d hd
        obtain ⟨p, hp, rfl⟩ := List.mem_map.1 hd
        simpa using List.lookup_eq_none_iff.1 h p hp
      simp only
      split
      · next hc =>
          have hlt : c.toNat < 0x80 := by
            simp only [Bool.or_eq_true, decide_eq_true_eq] at hc
            omega
          obtain ⟨hlength, hcode, hplain⟩ := codePoint?_hex hlt
          rw [Char.ofNat_toNat] at hcode
          exact .code hlength hcode hplain
      · next hc =>
          simp only [Bool.or_eq_true, decide_eq_true_eq, not_or, Nat.not_lt] at hc
          refine .plain (isPlain_iff.2 ⟨hne _ (by decide), hne _ (by decide), ?_⟩)
          simp only [isControl, Bool.or_eq_false_iff, Bool.and_eq_false_iff,
            decide_eq_false_iff_not]
          omega

variable {c : Char} {cs rest : List Char}

/-- A character other than a backslash stands for itself. -/
theorem unescape?_plain (hc : c ≠ '\\') :
    unescape? false (c :: rest) = (unescape? false rest).map (c :: ·) := by
  rw [unescape?]
  · rintro rfl
    exact absurd rfl hc
  · rintro _ _ rfl
    exact absurd rfl hc

/-- What was written for a character stands for it. -/
theorem Escaped.unescape?_append (h : Escaped c cs) (rest : List Char) :
    unescape? false (cs ++ rest) = (unescape? false rest).map (c :: ·) := by
  cases h with
  | letter hl => simp [unescape?, hl]
  | code hlength hcode _ =>
      have hu : escapes.lookup 'u' = none := by decide
      rw [List.cons_append, List.cons_append, unescape?]
      simp only [hu, codeSize, List.length_append, hlength, isWhite, isSpace]
      rw [if_neg (by simp), if_neg (by omega), List.take_left' hlength, List.drop_left' hlength,
        hcode]
      cases unescape? false rest <;> rfl
  | plain hc => exact unescape?_plain (isPlain_iff.1 hc).2.1

/-- Characters that need no escape are passed over. -/
theorem quotedLine_append_of_plain (h : cs.all isPlain = true) (rest : List Char) :
    quotedLine '"' (cs ++ rest) = (fun r => (cs ++ r.1, r.2)) <$> quotedLine '"' rest := by
  induction cs with
  | nil => simp
  | cons c cs ih =>
      rw [List.all_cons, Bool.and_eq_true] at h
      obtain ⟨hq, hb, hc⟩ := isPlain_iff.1 h.1
      rw [List.cons_append, quotedLine, ih h.2]
      · cases quotedLine '"' rest <;> simp [hq, hc]
      · rintro _ _ rfl
        exact absurd rfl hb

/-- What was written for a character is passed over. -/
theorem Escaped.quotedLine_append (h : Escaped c cs) (rest : List Char) :
    quotedLine '"' (cs ++ rest) = (fun r => (cs ++ r.1, r.2)) <$> quotedLine '"' rest := by
  cases h with
  | letter => simp [quotedLine]
  | code _ _ hplain =>
      simp only [List.cons_append, quotedLine, quotedLine_append_of_plain hplain]
      cases quotedLine '"' rest <;> rfl
  | plain hc => exact quotedLine_append_of_plain (by simpa using hc) rest

/-- **What was written for a text stands for it.** -/
theorem unescape?_flatMap_escapeChar (cs : List Char) :
    unescape? false (cs.flatMap escapeChar) = some cs := by
  induction cs with
  | nil => simp [unescape?]
  | cons c cs ih =>
      rw [List.flatMap_cons, (escaped_escapeChar c).unescape?_append, ih]
      rfl

/-- The closing quote of a text is found. -/
theorem quotedLine_flatMap_escapeChar (cs rest : List Char) :
    quotedLine '"' (cs.flatMap escapeChar ++ '"' :: rest) = .ok (cs.flatMap escapeChar, rest) := by
  induction cs with
  | nil => simp [quotedLine]
  | cons c cs ih =>
      rw [List.flatMap_cons, List.append_assoc, (escaped_escapeChar c).quotedLine_append, ih]
      rfl

/-- No written character starts with a quote. -/
theorem Escaped.head?_ne (h : Escaped c cs) : cs.head? ≠ some '"' := by
  cases h with
  | letter | code => simp
  | plain hc => simpa using (isPlain_iff.1 hc).1

/-- Every character is written with at least one. -/
theorem Escaped.ne_nil (h : Escaped c cs) : cs ≠ [] := by
  cases h <;> simp

/-- **A text in quotes is read back**, whatever its characters are. -/
theorem quoted_escape (cs : List Char) (hr : rest.head? ≠ some '"') :
    quoted '"' (cs.flatMap escapeChar ++ '"' :: rest) = .ok (⟨cs, false⟩, rest) := by
  have hline := quotedLine_flatMap_escapeChar cs rest
  have hmeaning : meaning '"' false (cs.flatMap escapeChar) = .ok ⟨cs, false⟩ := by
    simp [meaning, unescape?_flatMap_escapeChar]
  have hopen : ∀ c d more, cs.flatMap escapeChar ++ '"' :: rest = c :: d :: more →
      (c == '"' && d == '"') = false := by
    intro c d more he
    cases cs with
    | nil =>
        obtain ⟨-, rfl⟩ := List.cons.inj he
        simp only [List.head?_cons, ne_eq, Option.some.injEq] at hr
        simp [hr]
    | cons x cs =>
        have hx := escaped_escapeChar x
        have hhead := congrArg List.head? he
        rw [List.flatMap_cons, List.append_assoc, List.head?_append_of_ne_nil _ hx.ne_nil] at hhead
        have hc : c ≠ '"' := fun hc => hx.head?_ne (hhead.trans (by rw [hc]; rfl))
        simp [hc]
  generalize cs.flatMap escapeChar ++ '"' :: rest = ds at hline hopen
  unfold quoted
  split
  · next c d more =>
      rw [hopen c d more rfl, hline]
      simp [hmeaning, bind, Except.bind, pure, Except.pure]
  · rw [hline]
    simp [hmeaning, bind, Except.bind, pure, Except.pure]

/-! ### Keys -/

/-- The key is written without quotes. -/
def IsBare (key : String) : Prop := key ≠ "" ∧ key.toList.all isBareKeyChar = true

instance (key : String) : Decidable (IsBare key) := inferInstanceAs (Decidable (_ ∧ _))

variable {name : String} {fuel depth : Nat}

/-- A key without quotes has at least one character. -/
theorem IsBare.toList_ne_nil (h : IsBare name) : name.toList ≠ [] := fun he =>
  h.1 (String.toList_eq_nil_iff.1 he)

/-- A key without quotes has only such characters as need none. -/
theorem IsBare.of_mem (h : IsBare name) (hc : c ∈ name.toList) : isBareKeyChar c = true :=
  List.all_eq_true.1 h.2 c hc

/-- A key that needs no quotes is written as it is. -/
theorem writeKey_bare (h : IsBare name) : writeKey name = name := by
  have hall : (name.toList.all fun c => c.isAlphanum || c == '-' || c == '_') = true := h.2
  simp [writeKey, h.1, hall]

/-- A character that needs no quotes differs from every one that does. -/
theorem ne_of_isBareKeyChar {d : Char} (h : isBareKeyChar c = true) (hd : isBareKeyChar d = false) :
    c ≠ d := by
  rintro rfl
  simp [hd] at h

/-- A bare key has no blanks. -/
theorem isBlank_of_isBareKeyChar (h : isBareKeyChar c = true) : Text.isBlank c = false := by
  refine Directive.isBlank_of_isIdChar ?_
  simp only [isBareKeyChar, Bool.or_eq_true] at h
  simp only [Directive.isIdChar, Bool.or_eq_true]
  tauto

/-- The spaces of the format are blanks. -/
theorem isBlank_of_isSpace (h : isSpace c = true) : Text.isBlank c = true := by
  simp only [isSpace, Bool.or_eq_true, beq_iff_eq] at h
  rcases h with rfl | rfl <;> decide

/-- No character of a key without quotes is a space. -/
theorem isSpace_of_isBareKeyChar (h : isBareKeyChar c = true) : isSpace c = false := by
  have h₁ := ne_of_isBareKeyChar h (d := ' ') (by decide)
  have h₂ := ne_of_isBareKeyChar h (d := '\t') (by decide)
  simp [isSpace, h₁, h₂]

/-- A bare key stands where it starts. -/
theorem IsBare.exists_cons (h : IsBare name) :
    ∃ c cs, name.toList = c :: cs ∧ isBareKeyChar c = true := by
  cases hn : name.toList with
  | nil => exact absurd hn h.toList_ne_nil
  | cons c cs => exact ⟨c, cs, rfl, h.of_mem (by simp [hn])⟩

/-- A key without quotes starts with no space, so nothing is dropped in front of it. -/
theorem IsBare.dropSpaces_eq (h : IsBare name) (rest : List Char) :
    dropSpaces (name.toList ++ rest) = name.toList ++ rest := by
  obtain ⟨c, cs, hn, hc⟩ := h.exists_cons
  rw [hn, List.cons_append, dropSpaces, List.dropWhile_cons_of_neg]
  simp [isSpace_of_isBareKeyChar hc]

/-- Nothing is dropped before a character that is not blank. -/
theorem dropBlanks_append (hne : cs ≠ []) (hcs : ∀ c ∈ cs, Text.isBlank c = false)
    (rest : List Char) : Text.dropBlanks (cs ++ rest) = cs ++ rest := by
  cases cs with
  | nil => exact absurd rfl hne
  | cons c cs => exact Directive.dropBlanks_cons (hcs c (by simp)) _

/-- Blanks after a bare key are cut off. -/
theorem IsBare.strip_append (h : IsBare name) {spaces : List Char}
    (hs : ∀ c ∈ spaces, isSpace c = true) : Text.strip (name.toList ++ spaces) = name.toList := by
  have hname : ∀ c ∈ name.toList, Text.isBlank c = false := fun c hc =>
    isBlank_of_isBareKeyChar (h.of_mem hc)
  have hspaces : ∀ c ∈ spaces.reverse, Text.isBlank c = true := fun c hc =>
    isBlank_of_isSpace (hs c (List.mem_reverse.1 hc))
  have hback := dropBlanks_append (List.reverse_ne_nil_iff.2 h.toList_ne_nil)
    (fun c hc => hname c (List.mem_reverse.1 hc)) []
  rw [List.append_nil] at hback
  rw [Text.strip, dropBlanks_append h.toList_ne_nil hname, List.reverse_append,
    Directive.AreBlank.dropBlanks_append hspaces, hback, List.reverse_reverse]

/-- The first part of a bare key is all of it. -/
theorem IsBare.simpleKey_eq (h : IsBare name) {spaces : List Char}
    (hs : ∀ c ∈ spaces, isSpace c = true) (hc : isBareKeyChar c = false) (hc' : isSpace c = false) :
    keyUpTo.simpleKey (name.toList ++ (spaces ++ c :: rest)) = .ok (name.toList, c :: rest) := by
  have hall : ∀ d ∈ name.toList ++ spaces, (isBareKeyChar d || isSpace d) = true := by
    intro d hd
    rcases List.mem_append.1 hd with hd | hd
    · simp [h.of_mem hd]
    · simp [hs d hd]
  have hspace : name.toList.any isSpace = false := by
    simpa using fun d hd => isSpace_of_isBareKeyChar (h.of_mem hd)
  have hquote : ∀ quote, isBareKeyChar quote = false →
      ∀ ds, name.toList ++ spaces ++ c :: rest = quote :: ds → False := by
    intro quote hq ds he
    obtain ⟨d, cs, hn, hd⟩ := h.exists_cons
    rw [hn, List.cons_append, List.cons_append] at he
    exact ne_of_isBareKeyChar hd hq (List.cons.inj he).1
  rw [← List.append_assoc, keyUpTo.simpleKey]
  · rw [List.takeWhile_append_of_pos hall, List.dropWhile_append_of_pos hall,
      List.takeWhile_cons, List.dropWhile_cons]
    simp [hc, hc', h.strip_append hs, h.toList_ne_nil, hspace]
  · exact hquote '"' (by decide)
  · exact hquote '\'' (by decide)

/-- **A bare key is read back.** -/
theorem key_bare (h : IsBare name) {spaces : List Char} (hs : ∀ c ∈ spaces, isSpace c = true)
    (hc : isBareKeyChar c = false) (hc' : isSpace c = false) (hdot : c ≠ '.') :
    key (name.toList ++ (spaces ++ c :: rest)) = .ok ([name], c :: rest) := by
  rw [key, maxDepth, keyUpTo, h.dropSpaces_eq, h.simpleKey_eq hs hc hc']
  simp [bind, Except.bind, pure, Except.pure, hdot]

/-! ### Lines -/

/-- The line of a key with a text. -/
def line (e : String × String) : List Char :=
  e.1.toList ++ ([' '] ++ '=' :: ' ' :: '"' :: (e.2.toList.flatMap escapeChar ++ ['"', '\n']))

/-- The entries of a section of texts. -/
def ofTexts (texts : List (String × String)) : Table := texts.map fun e => (e.1, .text e.2)

/-- A text is read back as a value. -/
theorem value_escape (fuel depth : Nat) (cs : List Char) (hr : rest.head? ≠ some '"') :
    value (fuel + 1) depth ('"' :: (cs.flatMap escapeChar ++ '"' :: rest)) =
      .ok (.text (String.ofList cs), rest) := by
  cases depth <;> simp [value, quoted_escape cs hr, bind, Except.bind, pure, Except.pure]

/-- A key with a text is read back. -/
theorem entry_line {e : String × String} (h : IsBare e.1) (fuel depth : Nat) (rest : List Char) :
    entry (fuel + 2) depth (line e ++ rest) = .ok (([e.1], .text e.2), '\n' :: rest) := by
  have hvalue : value (fuel + 1) depth
      ('"' :: (e.2.toList.flatMap escapeChar ++ '"' :: '\n' :: rest)) =
        .ok (.text e.2, '\n' :: rest) := by
    rw [value_escape fuel depth e.2.toList (by simp), String.ofList_toList]
  generalize hquoted : '"' :: (e.2.toList.flatMap escapeChar ++ '"' :: '\n' :: rest) = text
    at hvalue
  have hline : line e ++ rest = e.1.toList ++ ([' '] ++ '=' :: ' ' :: text) := by
    simp [line, ← hquoted]
  have hkey : key (e.1.toList ++ ([' '] ++ '=' :: ' ' :: text)) =
      .ok ([e.1], '=' :: ' ' :: text) :=
    key_bare h (by simp [isSpace]) (by decide) (by decide) (by decide)
  have hseparator : separator false ('=' :: ' ' :: text) = .ok text := by
    simp [separator, ← hquoted]
  rw [entry, hline, hkey]
  simp [bind, Except.bind, pure, Except.pure, hseparator, hvalue]

/-- A line that was written for a key is read as its entry, and reading goes on behind it. -/
theorem readEntries_line {e : String × String} (h : IsBare e.1) (fuel : Nat) (rest : List Char) :
    readEntries (fuel + 3) (line e ++ rest) =
      ⟨⟨[e.1], .text e.2⟩ :: (readEntries (fuel + 2) rest).entries,
        (readEntries (fuel + 2) rest).ending⟩ := by
  have hentry := entry_line h fuel maxDepth rest
  obtain ⟨c, cs, hn, hc⟩ := h.exists_cons
  have hdrop : dropSpaces (line e ++ rest) = line e ++ rest := by
    rw [line, List.append_assoc, h.dropSpaces_eq]
  obtain ⟨more, hmore⟩ : ∃ more, line e ++ rest = c :: more := ⟨_, by rw [line, hn]; rfl⟩
  rw [hmore] at hentry hdrop
  rw [hmore, readEntries, hdrop]
  split
  · next he => cases he
  -- a line break, a bracket and a hash are no characters of a bare key
  iterate 3
    next he =>
      cases he
      exact absurd hc (by decide)
  · rw [hentry]
    rfl

/-- **The lines of a section are read back**, given enough fuel. -/
theorem readEntries_lines {texts : List (String × String)} (h : ∀ e ∈ texts, IsBare e.1)
    {fuel : Nat} (hfuel : texts.length + 3 ≤ fuel) :
    readEntries fuel (texts.flatMap line) =
      ⟨texts.map fun e => ⟨[e.1], .text e.2⟩, .ok []⟩ := by
  induction texts generalizing fuel with
  | nil =>
      obtain ⟨fuel, rfl⟩ := Nat.exists_eq_add_of_le' hfuel
      rfl
  | cons e texts ih =>
      obtain ⟨he, htexts⟩ := List.forall_mem_cons.1 h
      rw [List.length_cons] at hfuel
      obtain ⟨fuel, rfl⟩ := Nat.exists_eq_add_of_le' (show 3 ≤ fuel by omega)
      rw [List.flatMap_cons, readEntries_line he, ih htexts (by omega), List.map_cons]

/-! ### Putting the parts together -/

variable {parts : List Part} {joins reaches : Bool} {t : Table}

/-- The parts that the entries of a table stand for. -/
def partsOfTable (t : Table) : List Part := t.map fun e => .ofPath e.2 [e.1]

/-- The parts that a table stands for have the keys of the table, in their order. -/
@[simp]
theorem map_key_partsOfTable (t : Table) : (partsOfTable t).map Part.key = t.map Prod.fst := by
  simp [partsOfTable, Part.ofPath, Part.key, Function.comp_def]

/-- If no part has a key, the key has no latest part. -/
theorem latest?_eq_none {key : String} (h : key ∉ parts.map Part.key) :
    latest? parts key = none := by
  rw [latest?, Option.map_eq_none_iff, List.find?_eq_none]
  rintro ⟨p, place⟩ hp
  have hmem := List.fst_mem_of_mem_zipIdx (List.mem_reverse.1 hp)
  simpa using fun he => h (List.mem_map.2 ⟨p, hmem, he⟩)

/-- A key that comes once is not scattered. -/
theorem isScattered_eq_false (h : (parts.map Part.key).Nodup) (key : String) :
    isScattered parts key = false := by
  have hcount := List.nodup_iff_count_le_one.1 h key
  rw [List.count_eq_countP, List.countP_map, List.countP_eq_length_filter] at hcount
  exact decide_eq_false (Nat.not_lt.2 hcount)

/-- A key that is new gets a part. -/
theorem append_of_new {c : Content} {p : Part} (h : p.key ∉ c.parts.map Part.key) (depth : Nat) :
    append (depth + 1) joins reaches c p = .ok (c.push p) := by
  rw [append, latest?_eq_none h]

/-- Pushing a part puts it behind the parts that were there. -/
theorem Content.parts_push (c : Content) (p : Part) : (c.push p).parts = c.parts ++ [p] := by
  cases c
  rfl

/-- A part with a new key is put behind the parts that were there, and nothing has to be united. -/
theorem extend_of_new {c : Content} {p : Part} (h : ((c.parts ++ [p]).map Part.key).Nodup)
    (depth : Nat) : extend (depth + 2) joins reaches c p = .ok (c.push p) := by
  have hnew : p.key ∉ c.parts.map Part.key := by
    rw [List.map_append, List.map_singleton, List.nodup_middle, List.append_nil] at h
    exact h.notMem
  rw [extend, append_of_new hnew]
  simp [bind, Except.bind, pure, Except.pure, Content.parts_push, isScattered_eq_false h]

/-- Entries with keys of their own are added one after the other. -/
theorem foldlM_extend (depth : Nat) (held : List Part)
    (h : ((held ++ partsOfTable t).map Part.key).Nodup) :
    t.foldlM (fun c e => extend (depth + 2) joins reaches c (.ofPath e.2 [e.1])) (.mk held []) =
      .ok (.mk (held ++ partsOfTable t) []) := by
  induction t generalizing held with
  | nil => simp [partsOfTable, pure, Except.pure]
  | cons e t ih =>
      have hsplit : held ++ partsOfTable (e :: t) =
          held ++ [.ofPath e.2 [e.1]] ++ partsOfTable t := by
        simp [partsOfTable]
      rw [hsplit] at h ⊢
      have hfront : ((held ++ [Part.ofPath e.2 [e.1]]).map Part.key).Nodup := by
        rw [List.map_append] at h
        exact (List.nodup_append.1 h).1
      rw [List.foldlM_cons, extend_of_new (c := .mk held []) hfront]
      exact ih _ h

/-- Nothing is joined where no key is scattered. -/
theorem refreshAll_of_nodup {c : Content} (h : (c.parts.map Part.key).Nodup) (depth : Nat) :
    refreshAll depth c = .ok c := by
  have hkeep : refreshWith (append depth true true) c = fun _ => .ok c := by
    funext key
    simp [refreshWith, isScattered_eq_false h]
  rw [refreshAll]
  generalize (c.parts.map Part.key).eraseDups = keys
  induction keys with
  | nil => rfl
  | cons key keys ih =>
      rw [List.foldlM_cons, hkeep]
      exact ih

/-- Entries with keys of their own are taken one after the other. -/
theorem foldlM_partsOfTable {take : Table → Part → Except Failure Table} {done : Table}
    (htake : ∀ done e, e.1 ∉ done.map Prod.fst → take done (.ofPath e.2 [e.1]) = .ok (done ++ [e]))
    (h : ((done ++ t).map Prod.fst).Nodup) :
    (partsOfTable t).foldlM take done = .ok (done ++ t) := by
  induction t generalizing done with
  | nil => simp [partsOfTable, pure, Except.pure]
  | cons e t ih =>
      have hnew : e.1 ∉ done.map Prod.fst := by
        rw [List.map_append, List.map_cons, List.nodup_middle] at h
        exact fun hd => h.notMem (List.mem_append_left _ hd)
      rw [List.append_cons] at h ⊢
      rw [partsOfTable, List.map_cons, List.foldlM_cons, htake done e hnew]
      exact ih h

/-- **A table whose keys come once is what its parts stand for.** -/
theorem settle_partsOfTable (h : (t.map Prod.fst).Nodup) (depth : Nat) :
    settle (depth + 2) (partsOfTable t) = .ok t := by
  have hscattered := isScattered_eq_false ((map_key_partsOfTable t).symm ▸ h)
  rw [settle]
  refine foldlM_partsOfTable (fun done e hnew => ?_) h
  have hany : done.any (·.1 == e.1) = false := by
    rw [List.any_eq_false]
    exact fun d hd he => hnew (List.mem_map.2 ⟨d, hd, beq_iff_eq.1 he⟩)
  simp [Part.ofPath, Part.key, Part.node, hany, hscattered, settleNode, bind, Except.bind, pure,
    Except.pure]

/-- The table of a section that is the last one. -/
theorem buildTable_of_last (h : (t.map Prod.fst).Nodup) (depth fuel : Nat) (path : List String)
    (inList : Bool) :
    buildTable (depth + 2) none (fuel + 2) ⟨path, inList, t.map fun e => ⟨[e.1], e.2⟩⟩ [] =
      .ok (.mk (partsOfTable t) [], []) := by
  have hparts : ((partsOfTable t).map Part.key).Nodup := (map_key_partsOfTable t).symm ▸ h
  have hentries : (t.map fun e => (⟨[e.1], e.2⟩ : Entry)).foldlM
      (fun c e => extend (depth + 2) true true c (.ofPath e.value e.path)) Content.empty =
        .ok (.mk (partsOfTable t) []) := by
    rw [List.foldlM_map]
    exact foldlM_extend depth [] hparts
  have hrefresh := refreshAll_of_nodup (c := .mk (partsOfTable t) []) hparts (depth + 2)
  simp [buildTable, buildBelow, hentries, hrefresh, bind, Except.bind, pure, Except.pure]

/-- **The table of a single section** is that of its entries. -/
theorem table_section (h : (t.map Prod.fst).Nodup) (depth : Nat) :
    Layout.table ⟨[], [⟨[name], false, t.map fun e => ⟨[e.1], e.2⟩⟩], none⟩ (depth + 4) =
      .ok [(name, .table t)] := by
  have hbuild : build (depth + 4) none 0 5 ⟨[name], false, t.map fun e => ⟨[e.1], e.2⟩⟩ [] =
      .ok (.mk name false (.table false (.mk (partsOfTable t) [])), []) := by
    simp [build, buildTable_of_last h, bind, Except.bind, pure, Except.pure]
  have hnode : settleNode (depth + 3) (.table false (.mk (partsOfTable t) [])) =
      .ok (.table t) := by
    simp [settleNode, Content.parts, settle_partsOfTable h, Functor.map, Except.map]
  have hsettle : settle (depth + 4) [.mk name false (.table false (.mk (partsOfTable t) []))] =
      .ok [(name, .table t)] := by
    rw [settle]
    simp [hnode, isScattered, partsOf, Part.key, Part.node, bind, Except.bind, pure, Except.pure]
  simp [Layout.table, buildAll, hbuild, append, latest?, Content.empty, Content.parts, Content.push,
    hsettle, asMalformed, Except.mapError, bind, Except.bind, pure, Except.pure]

/-! ### Sections -/

variable {texts : List (String × String)}

/-- Every entry of a section of texts has a value, so none is left out. -/
@[simp]
theorem presentEntries_ofTexts (texts : List (String × String)) :
    presentEntries (ofTexts texts) = ofTexts texts := by
  induction texts with
  | nil => rfl
  | cons e texts ih => simp_all [ofTexts, presentEntries, Value.present]

/-- No entry of a section of texts has a header of its own. -/
@[simp]
theorem blocks_ofTexts (path : List String) (below apart : Bool) :
    blocks path .all below apart (ofTexts texts) = "" := by
  induction texts generalizing apart with
  | nil => simp [ofTexts, blocks]
  | cons e texts ih =>
      rw [ofTexts, List.map_cons, blocks]
      exact ih _

/-- The header of a table of texts is written, even if there are none. -/
@[simp]
theorem isImplicit_ofTexts (texts : List (String × String)) :
    isImplicit (ofTexts texts) = false := by
  cases texts <;> simp [ofTexts, isImplicit, Value.hasHeader, Value.isTable, Value.isTableList]

/-- A section of texts is written line by line. -/
theorem toList_lines (h : ∀ e ∈ texts, IsBare e.1) :
    (lines (ofTexts texts)).toList = texts.flatMap line := by
  induction texts with
  | nil => simp [ofTexts, lines]
  | cons e texts ih =>
      obtain ⟨he, htexts⟩ := List.forall_mem_cons.1 h
      have hlines := ih htexts
      simp only [ofTexts] at hlines
      simp [ofTexts, lines, Value.hasHeader, Value.isTable, Value.isTableList, writeKey_bare he,
        inline, inQuotes, line, hlines]

/-- **A section of texts is a header and a line for each text.** -/
theorem toList_write_section (hname : IsBare name) (h : ∀ e ∈ texts, IsBare e.1) :
    (write [(name, .table (ofTexts texts))]).toList =
      '[' :: (name.toList ++ ']' :: '\n' :: texts.flatMap line) := by
  simp [write, presentEntries, Value.present, lines, blocks, Choice.takes, Value.hasHeader,
    Value.isTable, hasLines, block, blankLine, writePath, writeKey_bare hname, toList_lines h]

/-- The header of a section is read back. -/
theorem header_bare (hname : IsBare name) (body : List Char) :
    header (name.toList ++ ']' :: '\n' :: body) = .ok (([name], false), body) := by
  have hkey : key (name.toList ++ ([] ++ ']' :: '\n' :: body)) =
      .ok ([name], ']' :: '\n' :: body) :=
    key_bare hname (by simp) (by decide) (by decide) (by decide)
  have hend : endOfLine ('\n' :: body) = .ok body := by
    simp [endOfLine, dropSpaces, isSpace]
  obtain ⟨c, cs, hn, hc⟩ := hname.exists_cons
  have hopen : c ≠ '[' := ne_of_isBareKeyChar hc (by decide)
  rw [hn, List.cons_append] at hkey ⊢
  rw [List.nil_append] at hkey
  simp [header, hopen, hkey, hend, bind, Except.bind, pure, Except.pure]

/-- Lines are not empty, so there are at least as many characters as entries to read. -/
theorem length_le_flatMap_line (texts : List (String × String)) :
    texts.length ≤ (texts.flatMap line).length := by
  induction texts with
  | nil => simp
  | cons e texts ih =>
      simp only [List.length_cons, List.flatMap_cons, List.length_append, line]
      omega

/-- The section is read back. -/
theorem ofText_section (hname : IsBare name) (h : ∀ e ∈ texts, IsBare e.1) :
    Layout.ofText ('[' :: (name.toList ++ ']' :: '\n' :: texts.flatMap line)) =
      ⟨[], [⟨[name], false, texts.map fun e => ⟨[e.1], .text e.2⟩⟩], none⟩ := by
  have hlength := length_le_flatMap_line texts
  rw [Layout.ofText]
  generalize hfuel : 4 * _ + 8 = fuel
  obtain ⟨fuel, rfl⟩ : ∃ n, fuel = texts.length + n + 3 + 1 := by
    refine ⟨fuel - texts.length - 4, ?_⟩
    simp only [List.length_cons, List.length_append] at hfuel
    omega
  have htop (cs : List Char) :
      readEntries (texts.length + fuel + 3 + 1) ('[' :: cs) = ⟨[], .ok ('[' :: cs)⟩ := by
    simp [readEntries, dropSpaces, isSpace]
  have hbody := readEntries_lines h (show texts.length + 3 ≤ texts.length + fuel + 3 by omega)
  simp [htop, readSections, header_bare hname, hbody]

/-- **A table with a section of texts is read back.** -/
theorem read_write_section (hname : IsBare name) (h : ∀ e ∈ texts, IsBare e.1)
    (hkeys : (texts.map Prod.fst).Nodup) :
    read (write [(name, .table (ofTexts texts))]) = .ok [(name, .table (ofTexts texts))] := by
  have hentries : ((ofTexts texts).map fun e => (⟨[e.1], e.2⟩ : Entry)) =
      texts.map fun e => ⟨[e.1], .text e.2⟩ := by
    simp [ofTexts]
  rw [read, toList_write_section hname h, ofText_section hname h, ← hentries]
  exact table_section (by simpa [ofTexts, Function.comp_def] using hkeys) _

/-! ### Line breaks -/

/-- A carriage return is never written as it is. -/
theorem Escaped.return_notMem (h : Escaped c cs) : '\r' ∉ cs := by
  cases h with
  | letter hl =>
      have hr : escapes.lookup '\r' = none := by decide
      rintro (_ | ⟨_, _ | ⟨_, ⟨⟩⟩⟩)
      simp [hr] at hl
  | code _ _ hplain =>
      intro hr
      simp only [List.mem_cons, Char.reduceEq, false_or] at hr
      exact absurd (List.all_eq_true.1 hplain _ hr) (by decide)
  | plain hc =>
      intro hr
      obtain rfl := List.mem_singleton.1 hr
      exact absurd hc (by decide)

/-- **The only line breaks of a section are line feeds.** -/
theorem return_notMem_write_section (hname : IsBare name) (h : ∀ e ∈ texts, IsBare e.1) :
    '\r' ∉ (write [(name, .table (ofTexts texts))]).toList := by
  have hbare {key : String} (hkey : IsBare key) : '\r' ∉ key.toList := fun hr =>
    absurd (hkey.of_mem hr) (by decide)
  have hlines : ∀ e ∈ texts, '\r' ∉ line e := by
    intro e he
    simp only [line, List.mem_append, List.mem_cons, List.mem_flatMap, Char.reduceEq, false_or,
      List.not_mem_nil, or_false, not_or, not_exists, not_and]
    exact ⟨hbare (h e he), fun c _ => (escaped_escapeChar c).return_notMem⟩
  rw [toList_write_section hname h]
  simp only [List.mem_cons, List.mem_append, List.mem_flatMap, Char.reduceEq, false_or, not_or,
    not_exists, not_and]
  exact ⟨hbare hname, hlines⟩

/-! ### The law of formats -/

/-- A table with one section of texts, whose keys are bare and come once, is read back from what is
written of it, which holds no carriage return. -/
structure Format.Lawful (toml : Format) : Prop where
  read_write {name : String} {texts : List (String × String)} (hname : IsBare name)
    (h : ∀ e ∈ texts, IsBare e.1) (hkeys : (texts.map Prod.fst).Nodup) :
    toml.read (toml.write [(name, .table (ofTexts texts))]) = .ok [(name, .table (ofTexts texts))]
  return_notMem {name : String} {texts : List (String × String)} (hname : IsBare name)
    (h : ∀ e ∈ texts, IsBare e.1) (hkeys : (texts.map Prod.fst).Nodup) :
    '\r' ∉ (toml.write [(name, .table (ofTexts texts))]).toList

/-- **The format that the program uses keeps the law.** -/
theorem Format.standard_lawful : Format.standard.Lawful :=
  ⟨read_write_section, fun hname h _ => return_notMem_write_section hname h⟩

end BnfSuppression.Toml
