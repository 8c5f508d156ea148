import BnfSuppression.Directive
import Mathlib.Data.List.Basic
import Mathlib.Data.List.TakeWhile

/-!
# The Grammar of Directives

A directive is a comment marker, the verb and a list of ids, with blanks in between and behind. An
id is a word over the letters, the digits and the characters `_`, `.` and `-`, and what separates
two ids of the list is blanks, or one comma with or without blanks around it. This module writes the
grammar down apart from the functions that read it.

The reader tries the verb behind any number of blanks, and a verb may be anything: it may be empty,
start with blanks itself, or look like an id. Several places may then do for the same comment. What
makes the reading unambiguous is that blanks in front of the verb are cut off together with those
that the verb starts with, so whatever follows the verb is the same for all of them.

## Main definitions

* `Directive.Lists`: a text lists ids.
* `Directive.Reading`: the parts of a comment that is a directive.

## Main results

* `Directive.idList?_eq_some_iff`: the reader of lists accepts lists with blanks behind them.
* `Directive.Reading.unique`: all readings of a comment have the same list.
* `Directive.parse?_exact`: **comments are read by the grammar**, and cutting the list at commas and
  blanks gives the ids of the grammar.
-/

namespace BnfSuppression

namespace Directive

/-! ### Words -/

/-- The text has characters of ids only. -/
def IsWord (s : String) : Prop := ∀ c ∈ s.toList, isIdChar c = true

instance (s : String) : Decidable (IsWord s) :=
  decidable_of_iff (s.toList.all isIdChar = true) List.all_eq_true

/-- The text is an id: a word that is not empty. -/
def IsId (s : String) : Prop := s ≠ "" ∧ IsWord s

/-- An id has at least one character. -/
theorem IsId.toList_ne_nil {s : String} (h : IsId s) : s.toList ≠ [] := fun hs =>
  h.1 (String.toList_inj.1 hs)

/-- Two words written next to each other are a word. -/
theorem IsWord.append {s t : String} (hs : IsWord s) (ht : IsWord t) : IsWord (s ++ t) := by
  intro c hc
  rw [String.toList_append, List.mem_append] at hc
  exact hc.elim (hs c) (ht c)

/-- The codes of the characters of ids. -/
theorem toNat_of_isIdChar {c : Char} (h : isIdChar c = true) :
    (48 ≤ c.toNat ∧ c.toNat ≤ 57) ∨ (65 ≤ c.toNat ∧ c.toNat ≤ 90) ∨
      (97 ≤ c.toNat ∧ c.toNat ≤ 122) ∨ c.toNat = 95 ∨ c.toNat = 46 ∨ c.toNat = 45 := by
  delta isIdChar Char.isAlphanum Char.isAlpha Char.isUpper Char.isLower Char.isDigit at h
  simp only [Bool.or_eq_true, Bool.and_eq_true, decide_eq_true_eq, beq_iff_eq, ge_iff_le,
    UInt32.le_iff_toNat_le] at h
  have hn : c.toNat = c.val.toNat := rfl
  rcases h with ((((h | h) | h) | rfl) | rfl) | rfl
  · simp at h; omega
  · simp at h; omega
  · simp at h; omega
  · simp
  · simp
  · simp

/-- No character of an id is a blank. -/
theorem isBlank_of_isIdChar {c : Char} (h : isIdChar c = true) : Text.isBlank c = false := by
  have := toNat_of_isIdChar h
  simp only [Text.isBlank, Bool.or_eq_false_iff, Bool.and_eq_false_iff, decide_eq_false_iff_not,
    beq_eq_false_iff_ne]
  omega

/-- A character of an id differs from every character that ids may not have. -/
theorem ne_of_isIdChar {c d : Char} (h : isIdChar c = true) (hd : isIdChar d = false) : c ≠ d := by
  rintro rfl
  rw [h] at hd
  simp at hd

/-- No character of an id separates ids. -/
theorem isSeparator_of_isIdChar {c : Char} (h : isIdChar c = true) : isSeparator c = false := by
  simp [isSeparator, isBlank_of_isIdChar h, ne_of_isIdChar h (by decide : isIdChar ',' = false)]

/-! ### The grammar -/

/-- The text has blanks only, if any. -/
def AreBlank (cs : List Char) : Prop := ∀ c ∈ cs, Text.isBlank c = true

/-- What separates two ids: blanks, or one comma with or without blanks around it. -/
inductive IsGap : List Char → Prop
  | blanks {cs : List Char} : cs ≠ [] → AreBlank cs → IsGap cs
  | comma {before after : List Char} :
    AreBlank before → AreBlank after → IsGap (before ++ ',' :: after)

/-- The text lists the ids, at least one, with a gap between each two of them. -/
inductive Lists : List Char → List String → Prop
  | one {id : String} : IsId id → Lists id.toList [id]
  | more {id : String} {gap list : List Char} {ids : List String} :
    IsId id → IsGap gap → Lists list ids → Lists (id.toList ++ (gap ++ list)) (id :: ids)

/-- The parts of a comment that is a directive with the verb. -/
structure Reading (comment verb : String) where
  marker : List Char
  before : List Char
  gap : List Char
  list : List Char
  ids : List String
  after : List Char
  comment_eq : comment.toList = marker ++ (before ++ (verb.toList ++ (gap ++ (list ++ after))))
  marker_mem : marker ∈ markers
  before_blank : AreBlank before
  gap_ne_nil : gap ≠ []
  gap_blank : AreBlank gap
  lists : Lists list ids
  after_blank : AreBlank after

/-! ### Blanks -/

/-- Nothing is left after dropping the leading blanks exactly if there were only blanks. -/
theorem dropBlanks_eq_nil_iff {cs : List Char} : Text.dropBlanks cs = [] ↔ AreBlank cs :=
  List.dropWhile_eq_nil_iff

/-- The leading blanks of a text are blanks. -/
theorem areBlank_takeWhile (cs : List Char) : AreBlank (cs.takeWhile Text.isBlank) := fun _ hc =>
  List.mem_takeWhile_imp hc

/-- A text is its leading blanks followed by what is left after dropping them. -/
theorem takeWhile_append_dropBlanks (cs : List Char) :
    cs.takeWhile Text.isBlank ++ Text.dropBlanks cs = cs := List.takeWhile_append_dropWhile

/-- Dropping leading blanks skips a text of blanks and goes on in what follows. -/
theorem AreBlank.dropBlanks_append {cs : List Char} (h : AreBlank cs) (rest : List Char) :
    Text.dropBlanks (cs ++ rest) = Text.dropBlanks rest := List.dropWhile_append_of_pos h

/-- Dropping leading blanks stops at once in front of a character that is none. -/
theorem dropBlanks_cons {c : Char} (h : Text.isBlank c = false) (rest : List Char) :
    Text.dropBlanks (c :: rest) = c :: rest := List.dropWhile_cons_of_neg (by simp [h])

/-! ### Lists of ids -/

variable {list list' cs : List Char} {ids ids' : List String}

/-- A list starts with an id. -/
theorem Lists.exists_cons (h : Lists list ids) :
    ∃ c cs, list = c :: cs ∧ isIdChar c = true := by
  have start : ∀ {id : String}, IsId id → ∀ rest : List Char,
      ∃ c cs, id.toList ++ rest = c :: cs ∧ isIdChar c = true := by
    intro id hid rest
    obtain ⟨c, cs, hc⟩ := List.exists_cons_of_ne_nil hid.toList_ne_nil
    exact ⟨c, cs ++ rest, by rw [hc, List.cons_append], hid.2 c (by simp [hc])⟩
  cases h with
  | one hid => simpa using start hid []
  | more hid _ _ => exact start hid _

/-- A list ends with an id. -/
theorem Lists.exists_concat (h : Lists list ids) :
    ∃ cs c, list = cs ++ [c] ∧ isIdChar c = true := by
  induction h with
  | @one id hid =>
      obtain ⟨cs, c, hc⟩ := (List.eq_nil_or_concat' _).resolve_left hid.toList_ne_nil
      exact ⟨cs, c, hc, hid.2 c (by simp [hc])⟩
  | @more id gap list ids hid hgap _ ih =>
      obtain ⟨cs, c, rfl, hc⟩ := ih
      exact ⟨id.toList ++ (gap ++ cs), c, by simp, hc⟩

/-- The ids of a list are ids, and there is one. -/
theorem Lists.isId (h : Lists list ids) : ids ≠ [] ∧ ∀ id ∈ ids, IsId id := by
  induction h with
  | one hid => simpa using hid
  | more hid _ _ ih => exact ⟨by simp, List.forall_mem_cons.2 ⟨hid, ih.2⟩⟩

/-- A list of ids starts with no blank, so nothing is dropped in front of it. -/
theorem Lists.dropBlanks_append (h : Lists list ids) (rest : List Char) :
    Text.dropBlanks (list ++ rest) = list ++ rest := by
  obtain ⟨c, cs, rfl, hc⟩ := h.exists_cons
  exact dropBlanks_cons (isBlank_of_isIdChar hc) _

/-- One id and what follows it. -/
theorem idList?_append {id : String} {rest : List Char} (h : IsId id)
    (hr : ∀ c, rest.head? = some c → isIdChar c = false) :
    idList? (id.toList ++ rest) = match Text.dropBlanks rest with
      | [] => some [id.toList]
      | d :: rest =>
        if d = ',' then (idList? (Text.dropBlanks rest)).map (id.toList :: ·)
        else (idList? (d :: rest)).map (id.toList :: ·) := by
  obtain ⟨c, cs, hid⟩ := List.exists_cons_of_ne_nil h.toList_ne_nil
  have hword := h.2
  rw [IsWord, hid, List.forall_mem_cons] at hword
  obtain ⟨hc, hcs⟩ := hword
  have htake : (cs ++ rest).takeWhile isIdChar = cs := by
    rw [List.takeWhile_append_of_pos hcs]
    cases rest with
    | nil => simp
    | cons d rest => simp [hr d rfl]
  have hdrop : (cs ++ rest).dropWhile isIdChar = rest := by
    rw [List.dropWhile_append_of_pos hcs]
    cases rest with
    | nil => rfl
    | cons d rest => simp [hr d rfl]
  rw [hid, List.cons_append, idList?]
  simp only [hc, if_true, htake]
  split
  · next hd => rw [hdrop] at hd; rw [hd]
  · next hd => rw [hdrop] at hd; rw [hd]

/-- **A list is read**, with blanks behind it. -/
theorem Lists.idList?_eq (h : Lists list ids) {after : List Char} (ha : AreBlank after) :
    idList? (list ++ after) = some (ids.map String.toList) := by
  have hblank : ∀ {c : Char}, Text.isBlank c = true → isIdChar c = false := by
    intro c hc
    by_contra hi
    simp [isBlank_of_isIdChar (by simpa using hi)] at hc
  induction h with
  | @one id hid =>
      have hstop : ∀ c, after.head? = some c → isIdChar c = false := fun c hc =>
        hblank (ha c (List.mem_of_head? hc))
      rw [idList?_append hid hstop, dropBlanks_eq_nil_iff.2 ha]
      rfl
  | @more id gap list ids hid hgap hlist ih =>
      rw [List.append_assoc, List.append_assoc]
      cases hgap with
      | blanks hne hgap =>
          have hstop : ∀ c, (gap ++ (list ++ after)).head? = some c → isIdChar c = false := by
            intro c hc
            obtain ⟨d, ds, rfl⟩ := List.exists_cons_of_ne_nil hne
            obtain rfl : d = c := by simpa using hc
            exact hblank (hgap d (by simp))
          obtain ⟨c, cs, hc, hword⟩ := hlist.exists_cons
          have hcomma : c ≠ ',' := ne_of_isIdChar hword (by decide)
          rw [idList?_append hid hstop, hgap.dropBlanks_append, hlist.dropBlanks_append, hc,
            List.cons_append]
          simp only [if_neg hcomma]
          rw [← List.cons_append, ← hc, ih]
          rfl
      | @comma before behind hbefore hbehind =>
          have hstop : ∀ c, ((before ++ ',' :: behind) ++ (list ++ after)).head? = some c →
              isIdChar c = false := by
            intro c hc
            cases before with
            | nil =>
                obtain rfl : ',' = c := by simpa using hc
                decide
            | cons d ds =>
                obtain rfl : d = c := by simpa using hc
                exact hblank (hbefore d (by simp))
          rw [idList?_append hid hstop, List.append_assoc, hbefore.dropBlanks_append,
            List.cons_append, dropBlanks_cons (by decide)]
          simp only [if_true]
          rw [hbehind.dropBlanks_append, hlist.dropBlanks_append, ih]
          rfl

/-- The first word of a text that starts with a character of ids. -/
theorem exists_isId_of_isIdChar {c : Char} (h : isIdChar c = true) (cs : List Char) :
    ∃ id, IsId id ∧ id.toList = c :: cs.takeWhile isIdChar ∧
      c :: cs = id.toList ++ cs.dropWhile isIdChar := by
  refine ⟨String.ofList (c :: cs.takeWhile isIdChar), ⟨fun he => ?_, ?_⟩, String.toList_ofList,
    by rw [String.toList_ofList, List.cons_append, List.takeWhile_append_dropWhile]⟩
  · simpa using congrArg String.toList he
  · rw [IsWord, String.toList_ofList]
    exact List.forall_mem_cons.2 ⟨h, fun d hd => List.mem_takeWhile_imp hd⟩

/-- **What is read as a list is one**, with blanks behind it. -/
theorem exists_lists_of_idList? {words : List (List Char)} (h : idList? cs = some words) :
    ∃ list after ids, cs = list ++ after ∧ AreBlank after ∧ Lists list ids ∧
      words = ids.map String.toList := by
  fun_induction idList? cs generalizing words with
  | case1 => simp at h
  | case2 c cs hc word =>
      rename_i hnil
      obtain rfl := Option.some.inj h
      obtain ⟨id, hid, hword, hcs⟩ := exists_isId_of_isIdChar hc cs
      exact ⟨id.toList, cs.dropWhile isIdChar, [id], hcs, dropBlanks_eq_nil_iff.1 hnil, .one hid,
        by simp [hword, word]⟩
  | case3 c cs hc word rest hrest =>
      rename_i ih
      obtain ⟨is, his, rfl⟩ := Option.map_eq_some_iff.1 h
      obtain ⟨list, after, ids, hlist, hafter, hlists, rfl⟩ := ih his
      obtain ⟨id, hid, hword, hcs⟩ := exists_isId_of_isIdChar hc cs
      refine ⟨_, after, id :: ids, ?_, hafter, .more hid (.comma
        (areBlank_takeWhile (cs.dropWhile isIdChar)) (areBlank_takeWhile rest)) hlists,
        by simp [hword, word]⟩
      have hgap : cs.dropWhile isIdChar = (cs.dropWhile isIdChar).takeWhile Text.isBlank ++
          ',' :: (rest.takeWhile Text.isBlank ++ (list ++ after)) := by
        rw [← hlist, takeWhile_append_dropBlanks, ← hrest, takeWhile_append_dropBlanks]
      calc c :: cs = id.toList ++ cs.dropWhile isIdChar := hcs
        _ = id.toList ++ _ := congrArg (id.toList ++ ·) hgap
        _ = _ := by simp
  | case4 c cs hc word d rest hrest hd =>
      rename_i ih
      obtain ⟨is, his, rfl⟩ := Option.map_eq_some_iff.1 h
      obtain ⟨list, after, ids, hlist, hafter, hlists, rfl⟩ := ih his
      obtain ⟨id, hid, hword, hcs⟩ := exists_isId_of_isIdChar hc cs
      have hnext : cs.dropWhile isIdChar =
          (cs.dropWhile isIdChar).takeWhile Text.isBlank ++ (list ++ after) := by
        rw [← hlist, ← hrest, takeWhile_append_dropBlanks]
      have hgap : (cs.dropWhile isIdChar).takeWhile Text.isBlank ≠ [] := by
        -- without blanks, the next id would be part of this one
        intro hnil
        obtain ⟨e, es, he, hchar⟩ := hlists.exists_cons
        rw [hnil, he] at hnext
        have hhead := List.head?_dropWhile_not isIdChar cs
        rw [hnext] at hhead
        simp [hchar] at hhead
      refine ⟨_, after, id :: ids, ?_, hafter, .more hid (.blanks hgap (areBlank_takeWhile _))
        hlists, by simp [hword, word]⟩
      calc c :: cs = id.toList ++ cs.dropWhile isIdChar := hcs
        _ = id.toList ++ _ := congrArg (id.toList ++ ·) hnext
        _ = _ := by simp
  | case5 => simp at h

/-- **The reader of lists accepts lists with blanks behind them.** -/
theorem idList?_eq_some_iff {words : List (List Char)} :
    idList? cs = some words ↔ ∃ list after ids, cs = list ++ after ∧ AreBlank after ∧
      Lists list ids ∧ words = ids.map String.toList := by
  constructor
  · exact exists_lists_of_idList?
  · rintro ⟨list, after, ids, rfl, hafter, hlists, rfl⟩
    exact hlists.idList?_eq hafter

/-! ### Cutting a list at its separators -/

/-- Separators in front are skipped. -/
theorem words_append_of_separators {seps : List Char} (h : ∀ c ∈ seps, isSeparator c = true)
    (rest : List Char) : words (seps ++ rest) = words rest := by
  induction seps with
  | nil => rfl
  | cons c seps ih =>
      obtain ⟨hc, hseps⟩ := List.forall_mem_cons.1 h
      rw [List.cons_append, words, if_pos hc, ih hseps]

/-- An id in front is the first word, if a separator or the end of the text follows it. -/
theorem words_append_of_isId {id : String} (h : IsId id) {rest : List Char}
    (hr : ∀ c, rest.head? = some c → isSeparator c = true) :
    words (id.toList ++ rest) = id.toList :: words rest := by
  obtain ⟨c, cs, hid⟩ := List.exists_cons_of_ne_nil h.toList_ne_nil
  have hword : ∀ d ∈ c :: cs, isSeparator d = false := fun d hd =>
    isSeparator_of_isIdChar (h.2 d (hid ▸ hd))
  obtain ⟨hc, hcs⟩ := List.forall_mem_cons.1 hword
  have hcs' : ∀ d ∈ cs, (!isSeparator d) = true := fun d hd => by simp [hcs d hd]
  have hstop : rest.takeWhile (!isSeparator ·) = [] ∧ rest.dropWhile (!isSeparator ·) = rest := by
    cases rest with
    | nil => exact ⟨rfl, rfl⟩
    | cons d rest => simp [hr d rfl]
  rw [hid, List.cons_append, words, if_neg (by simp [hc]), List.takeWhile_append_of_pos hcs',
    List.dropWhile_append_of_pos hcs', hstop.1, hstop.2, List.append_nil]

/-- A gap between two ids is not empty and consists of separators only. -/
theorem IsGap.separates {gap : List Char} (h : IsGap gap) :
    gap ≠ [] ∧ ∀ c ∈ gap, isSeparator c = true := by
  have hblank : ∀ {c : Char}, Text.isBlank c = true → isSeparator c = true := fun hc => by
    simp [isSeparator, hc]
  cases h with
  | blanks hne hgap => exact ⟨hne, fun c hc => hblank (hgap c hc)⟩
  | comma hbefore hafter =>
      refine ⟨by simp, fun c hc => ?_⟩
      rcases List.mem_append.1 hc with hc | hc
      · exact hblank (hbefore c hc)
      · rcases List.mem_cons.1 hc with rfl | hc
        · decide
        · exact hblank (hafter c hc)

/-- **Cutting a list at its separators gives its ids.** -/
theorem Lists.words_eq (h : Lists list ids) : words list = ids.map String.toList := by
  induction h with
  | @one id hid =>
      have := @words_append_of_isId id hid [] (by simp)
      simpa [words] using this
  | @more id gap list ids hid hgap _ ih =>
      obtain ⟨hne, hseps⟩ := hgap.separates
      have hnext : ∀ c, (gap ++ list).head? = some c → isSeparator c = true := by
        intro c hc
        obtain ⟨d, ds, rfl⟩ := List.exists_cons_of_ne_nil hne
        obtain rfl : d = c := by simpa using hc
        exact hseps d (by simp)
      rw [words_append_of_isId hid hnext, words_append_of_separators hseps, ih, List.map_cons]

/-- Splitting a list of ids gives the ids in it, each where it occurs first. -/
theorem Lists.splitIds_eq (h : Lists list ids) : splitIds (String.ofList list) = ids.eraseDups := by
  simp [splitIds, h.words_eq, Function.comp_def]

/-! ### Reading a comment -/

variable {comment verb : String}

/-- What stands after a marker is found exactly if the text starts with one of the markers. -/
theorem afterMarker?_eq_some_iff {rest : List Char} :
    afterMarker? cs = some rest ↔ ∃ marker ∈ markers, cs = marker ++ rest := by
  constructor
  · intro h
    obtain ⟨marker, hfind, rfl⟩ := Option.map_eq_some_iff.1 h
    have hstarts : marker.isPrefixOf cs = true := by simpa using List.find?_some hfind
    obtain ⟨rest, rfl⟩ := List.isPrefixOf_iff_prefix.1 hstarts
    exact ⟨marker, List.mem_of_find?_eq_some hfind, by simp⟩
  · rintro ⟨marker, hm, rfl⟩
    simp only [markers, List.mem_cons, List.not_mem_nil, or_false] at hm
    rcases hm with rfl | rfl | rfl | rfl <;> rfl

/-- What is read has the verb in it, with blanks before it and the ids right after it. -/
theorem exists_afterVerb?_of_body? {verb : List Char} {words : List (List Char)}
    (h : body? verb cs = some words) :
    ∃ before rest, cs = before ++ (verb ++ rest) ∧ AreBlank before ∧
      afterVerb? rest = some words := by
  fun_induction body? verb cs with
  | case1 cs here words' hwords =>
      obtain rfl := Option.some.inj h
      obtain ⟨hstarts, hafter⟩ : verb.isPrefixOf cs = true ∧
          afterVerb? (cs.drop verb.length) = some words' := by simpa [here] using hwords
      obtain ⟨rest, rfl⟩ := List.isPrefixOf_iff_prefix.1 hstarts
      exact ⟨[], rest, rfl, by simp [AreBlank], by simpa using hafter⟩
  | case2 => simp at h
  | case3 c cs hc _ _ ih =>
      obtain ⟨before, rest, rfl, hbefore, hafter⟩ := ih h
      exact ⟨c :: before, rest, rfl, List.forall_mem_cons.2 ⟨hc, hbefore⟩, hafter⟩
  | case4 => simp at h

/-- Something is read if the verb and ids are found behind blanks. -/
theorem isSome_body? {verb before rest : List Char} (hb : AreBlank before)
    (h : (afterVerb? rest).isSome) : (body? verb (before ++ (verb ++ rest))).isSome := by
  induction before with
  | nil =>
      have hp : verb.isPrefixOf (verb ++ rest) = true := by simp
      obtain ⟨words, hwords⟩ := Option.isSome_iff_exists.1 h
      rw [List.nil_append, body?.eq_def]
      simp only [hp, if_true, List.drop_left, hwords, Option.isSome_some]
  | cons c before ih =>
      obtain ⟨hc, hb⟩ := List.forall_mem_cons.1 hb
      rw [List.cons_append, body?.eq_def]
      dsimp only
      cases if verb.isPrefixOf (c :: (before ++ (verb ++ rest))) then
          afterVerb? ((c :: (before ++ (verb ++ rest))).drop verb.length) else none with
      | some words => rfl
      | none =>
          simp only [hc, if_true]
          exact ih hb

/-- What follows the verb is blanks and a list of ids. -/
theorem afterVerb?_eq_some_iff {words : List (List Char)} :
    afterVerb? cs = some words ↔ ∃ gap list after ids, cs = gap ++ (list ++ after) ∧ gap ≠ [] ∧
      AreBlank gap ∧ AreBlank after ∧ Lists list ids ∧ words = ids.map String.toList := by
  constructor
  · intro h
    cases cs with
    | nil => simp [afterVerb?] at h
    | cons c cs =>
        by_cases hc : Text.isBlank c = true
        · rw [afterVerb?, if_pos hc] at h
          obtain ⟨list, after, ids, hcs, hafter, hlists, hwords⟩ := idList?_eq_some_iff.1 h
          refine ⟨c :: cs.takeWhile Text.isBlank, list, after, ids, ?_, by simp,
            List.forall_mem_cons.2 ⟨hc, areBlank_takeWhile cs⟩, hafter, hlists, hwords⟩
          rw [← hcs, List.cons_append, takeWhile_append_dropBlanks]
        · simp [afterVerb?, hc] at h
  · rintro ⟨gap, list, after, ids, rfl, hne, hgap, hafter, hlists, rfl⟩
    obtain ⟨c, gap, rfl⟩ := List.exists_cons_of_ne_nil hne
    obtain ⟨hc, hgap⟩ := List.forall_mem_cons.1 hgap
    rw [List.cons_append, afterVerb?, if_pos hc, AreBlank.dropBlanks_append hgap,
      hlists.dropBlanks_append, hlists.idList?_eq hafter]

/-- Without the blanks in front, what follows the verb does not depend on how many there were. -/
theorem dropBlanks_verb {before before' verb rest rest' : List Char} (h : AreBlank before)
    (h' : AreBlank before') (he : before ++ (verb ++ rest) = before' ++ (verb ++ rest')) :
    Text.dropBlanks rest = Text.dropBlanks rest' := by
  have hdrop := congrArg Text.dropBlanks he
  rw [h.dropBlanks_append, h'.dropBlanks_append] at hdrop
  by_cases hv : AreBlank verb
  · rwa [hv.dropBlanks_append, hv.dropBlanks_append] at hdrop
  · have hcut : ∀ rest, Text.dropBlanks (verb ++ rest) = Text.dropBlanks verb ++ rest := by
      intro rest
      rw [Text.dropBlanks, List.dropWhile_append, if_neg]
      · rfl
      · rwa [List.isEmpty_iff, ← Text.dropBlanks, dropBlanks_eq_nil_iff]
    rw [hcut, hcut, List.append_cancel_left_eq] at hdrop
    rw [hdrop]

/-- A list with blanks behind it ends where the blanks start. -/
theorem Lists.append_inj (h : Lists list ids) (h' : Lists list' ids') {after after' : List Char}
    (ha : AreBlank after) (ha' : AreBlank after') (he : list ++ after = list' ++ after') :
    list = list' := by
  have hcut : ∀ {list after : List Char} {ids : List String}, Lists list ids → AreBlank after →
      Text.dropBlanks (list ++ after).reverse = list.reverse := by
    intro list after ids h ha
    obtain ⟨cs, c, rfl, hc⟩ := h.exists_concat
    have hr : AreBlank after.reverse := fun c hc => ha c (List.mem_reverse.1 hc)
    rw [List.reverse_append, hr.dropBlanks_append, List.reverse_append, List.reverse_singleton,
      List.singleton_append, dropBlanks_cons (isBlank_of_isIdChar hc)]
  have hrev := hcut h ha
  rw [he, hcut h' ha'] at hrev
  exact (List.reverse_inj.1 hrev).symm

/-- **All readings of a comment have the same list of the same ids.** -/
theorem Reading.unique (r r' : Reading comment verb) : r.list = r'.list ∧ r.ids = r'.ids := by
  have hrest : r.before ++ (verb.toList ++ (r.gap ++ (r.list ++ r.after))) =
      r'.before ++ (verb.toList ++ (r'.gap ++ (r'.list ++ r'.after))) := by
    have hm := afterMarker?_eq_some_iff.2 ⟨_, r.marker_mem, r.comment_eq⟩
    rw [afterMarker?_eq_some_iff.2 ⟨_, r'.marker_mem, r'.comment_eq⟩] at hm
    exact (Option.some.inj hm).symm
  have hlist := dropBlanks_verb r.before_blank r'.before_blank hrest
  rw [r.gap_blank.dropBlanks_append, r'.gap_blank.dropBlanks_append, r.lists.dropBlanks_append,
    r'.lists.dropBlanks_append] at hlist
  have hl := r.lists.append_inj r'.lists r.after_blank r'.after_blank hlist
  have hwords := r.lists.words_eq
  rw [hl, r'.lists.words_eq] at hwords
  exact ⟨hl, (List.map_injective_iff.2 (fun _ _ => String.toList_inj.1) hwords).symm⟩

/-- What is read has a reading with these ids. -/
theorem exists_reading_of_parse? {d : Directive} (h : parse? comment verb = some d) :
    ∃ r : Reading comment verb, d = ⟨verb, r.ids.eraseDups⟩ := by
  simp only [parse?, Option.bind_eq_bind, Option.bind_eq_some_iff] at h
  obtain ⟨rest, hrest, words, hwords, hd⟩ := h
  obtain ⟨marker, hmarker, hcomment⟩ := afterMarker?_eq_some_iff.1 hrest
  obtain ⟨before, rest, rfl, hbefore, hafter⟩ := exists_afterVerb?_of_body? hwords
  obtain ⟨gap, list, after, ids, rfl, hne, hgap, hblank, hlists, rfl⟩ :=
    afterVerb?_eq_some_iff.1 hafter
  refine ⟨⟨marker, before, gap, list, ids, after, hcomment, hmarker, hbefore, hne, hgap, hlists,
    hblank⟩, ?_⟩
  simpa [Function.comp_def] using hd.symm

/-- A comment with a reading is read. -/
theorem Reading.isSome_parse? (r : Reading comment verb) : (parse? comment verb).isSome := by
  have hafter : (afterVerb? (r.gap ++ (r.list ++ r.after))).isSome :=
    Option.isSome_iff_exists.2 ⟨_, afterVerb?_eq_some_iff.2 ⟨_, _, _, _, rfl, r.gap_ne_nil,
      r.gap_blank, r.after_blank, r.lists, rfl⟩⟩
  have hbody : (body? verb.toList
      (r.before ++ (verb.toList ++ (r.gap ++ (r.list ++ r.after))))).isSome :=
    isSome_body? r.before_blank hafter
  obtain ⟨words, hwords⟩ := Option.isSome_iff_exists.1 hbody
  have hmarker := afterMarker?_eq_some_iff.2 ⟨_, r.marker_mem, r.comment_eq⟩
  simp [parse?, hmarker, hwords]

/-- **A comment with a reading is read as the ids of the reading**, each where it comes first. -/
theorem Reading.parse?_eq (r : Reading comment verb) :
    parse? comment verb = some ⟨verb, r.ids.eraseDups⟩ := by
  obtain ⟨d, hd⟩ := Option.isSome_iff_exists.1 r.isSome_parse?
  obtain ⟨r', rfl⟩ := exists_reading_of_parse? hd
  rw [hd, (r.unique r').2]

/-- A list whose repetitions are erased holds each of its members once. -/
theorem nodup_eraseDups : (ids : List String) → ids.eraseDups.Nodup
  | [] => List.nodup_nil
  | id :: ids => by
    have hl : (ids.filter fun i => !(i == id)).length < (id :: ids).length :=
      Nat.lt_succ_of_le (List.length_filter_le _ ids)
    rw [List.eraseDups_cons, List.nodup_cons]
    exact ⟨by simp, nodup_eraseDups _⟩
termination_by ids => ids.length
decreasing_by exact hl

/-- Erasing repetitions leaves something of every list that is not empty. -/
theorem eraseDups_ne_nil (h : ids ≠ []) : ids.eraseDups ≠ [] := by
  obtain ⟨id, ids, rfl⟩ := List.exists_cons_of_ne_nil h
  simp [List.eraseDups_cons]

/-- **Comments are read by the grammar.** A comment is a directive with the verb exactly if it has a
reading, and all its readings have the same list. It then says the ids of that list, each where it
comes first, and so does cutting the list at its commas and blanks. -/
theorem parse?_exact (comment verb : String) :
    ((parse? comment verb).isSome = true ↔ Nonempty (Reading comment verb)) ∧
    ∀ r : Reading comment verb, parse? comment verb = some ⟨verb, r.ids.eraseDups⟩ ∧
      splitIds (String.ofList r.list) = r.ids.eraseDups ∧ r.ids.eraseDups ≠ [] ∧
      r.ids.eraseDups.Nodup ∧
      ∀ r' : Reading comment verb, r'.list = r.list ∧ r'.ids = r.ids := by
  refine ⟨⟨fun h => ?_, fun ⟨r⟩ => r.isSome_parse?⟩, fun r => ⟨r.parse?_eq, r.lists.splitIds_eq,
    eraseDups_ne_nil r.lists.isId.1, nodup_eraseDups _, fun r' => r'.unique r⟩⟩
  obtain ⟨d, hd⟩ := Option.isSome_iff_exists.1 h
  obtain ⟨r, -⟩ := exists_reading_of_parse? hd
  exact ⟨r⟩

end Directive

end BnfSuppression
