import BnfSuppression.Proofs.Effect
import BnfSuppression.Proofs.Faithful

/-!
# The Tokens before a Container

What an action writes before a rule or an attribute is a function of the tokens before it: going
back over white space and comments, the nearest directive lists the id in the end, and without a
directive there, one is put at the end, with a line break that copies the indentation. The function
is local. It sees no token behind a solid one, but for the indentation, and a solid token on the
same line leaves none to copy.

## Main definitions

* `Settings.entered`: the tokens before a container after an action.

## Main results

* `Settings.entered_entered`: **entering an id twice is entering it once**.
* `Settings.entered_append`: **what stands before a solid token does not matter**.
* `Leaves.entered_of_directive?`: entering an id, seen at the nearest directive.
-/

namespace BnfSuppression

open Directive (IsId)

namespace Settings

variable {s : Settings} {id : String} {ts us : List Token} {t u : Token} {dir : Directive}

/-- What a comment says as a directive with the verb. -/
def directive? (s : Settings) (t : Token) : Option Directive :=
  if t.isComment then Directive.parse? t.text s.verb else none

/-- Tokens, the nearest to a container first, with the id in the nearest directive that leads the
container, if there is one. -/
def relisted? (s : Settings) (id : String) : List Token → Option (List Token)
  | [] => none
  | t :: ts =>
    if t.isTrivia then
      match s.directive? t with
      | some dir =>
        some (if id ∈ dir.ids then t :: ts
          else ⟨.lineComment, (dir.withId id).render s.marker⟩ :: ts)
      | none => (relisted? s id ts).map (t :: ·)
    else none

/-- The line that is put before a container, given the characters before it. -/
def line (s : Settings) (id : String) (cs : List Char) : List Token :=
  [⟨.lineComment, s.comment id⟩, ⟨.whitespace, "\n" ++ Forest.trailingIndent cs⟩]

/-- The tokens before a container after an id was entered. -/
def entered (s : Settings) (id : String) (ts : List Token) : List Token :=
  match s.relisted? id ts.reverse with
  | some us => us.reverse
  | none => ts ++ s.line id (Token.spell ts)

/-! ### Going back -/

/-- A directive is where the search ends: it gets the id, unless it lists it already. -/
theorem relisted?_cons_of_directive (h : s.directive? t = some dir) :
    s.relisted? id (t :: ts) = some (if id ∈ dir.ids then t :: ts
      else ⟨.lineComment, (dir.withId id).render s.marker⟩ :: ts) := by
  have ht : t.isTrivia = true := by
    rw [directive?] at h
    split at h
    · next hc => exact Token.isTrivia_of_isComment hc
    · simp at h
  rw [relisted?, if_pos ht, h]

/-- White space, and comments that are no directives, are passed over by the search. -/
theorem relisted?_cons_of_quiet (ht : t.isTrivia = true) (h : s.directive? t = none) :
    s.relisted? id (t :: ts) = (s.relisted? id ts).map (t :: ·) := by
  rw [relisted?, if_pos ht, h]

/-- The search ends without a directive at the first token that is not trivia. -/
theorem relisted?_cons_of_solid (h : t.isTrivia = false) : s.relisted? id (t :: ts) = none := by
  rw [relisted?, if_neg (by simp [h])]

/-- A comment says what its text is read as. -/
theorem directive?_of_isComment (h : t.isComment = true) :
    s.directive? t = Directive.parse? t.text s.verb :=
  if_pos h

/-- A token that is no comment says nothing. -/
theorem directive?_of_not_isComment (h : t.isComment = false) : s.directive? t = none :=
  if_neg (by simp [h])

/-- Going back ends at a solid token. -/
theorem relisted?_append (hu : u.isTrivia = false) :
    s.relisted? id (ts ++ u :: us) = (s.relisted? id ts).map (· ++ u :: us) := by
  induction ts with
  | nil => exact relisted?_cons_of_solid hu
  | cons t ts ih =>
      cases ht : t.isTrivia with
      | false => rw [List.cons_append, relisted?_cons_of_solid ht, relisted?_cons_of_solid ht]; rfl
      | true =>
          cases hd : s.directive? t with
          | none =>
              rw [List.cons_append, relisted?_cons_of_quiet ht hd, relisted?_cons_of_quiet ht hd,
                ih]
              cases s.relisted? id ts <;> rfl
          | some dir =>
              rw [List.cons_append, relisted?_cons_of_directive hd, relisted?_cons_of_directive hd]
              split <;> rfl

/-- Where the nearest directive lists the id, nothing is written. -/
theorem relisted?_relisted? (hs : s.Legible) (hid : IsId id)
    (h : s.relisted? id ts = some us) : s.relisted? id us = some us := by
  induction ts generalizing us with
  | nil => simp [relisted?] at h
  | cons t ts ih =>
      cases ht : t.isTrivia with
      | false => simp [relisted?_cons_of_solid ht] at h
      | true =>
          cases hd : s.directive? t with
          | none =>
              rw [relisted?_cons_of_quiet ht hd, Option.map_eq_some_iff] at h
              obtain ⟨vs, hvs, rfl⟩ := h
              rw [relisted?_cons_of_quiet ht hd, ih hvs]
              rfl
          | some dir =>
              rw [relisted?_cons_of_directive hd, Option.some.injEq] at h
              by_cases hi : id ∈ dir.ids
              · rw [if_pos hi] at h
                rw [← h, relisted?_cons_of_directive hd, if_pos hi]
              · rw [if_neg hi] at h
                have hc : t.isComment = true := by
                  by_contra hc
                  simp [directive?_of_not_isComment (by simpa using hc)] at hd
                rw [directive?_of_isComment hc] at hd
                have hread : s.directive? ⟨.lineComment, (dir.withId id).render s.marker⟩ =
                    some (dir.withId id) :=
                  (directive?_of_isComment rfl).trans (parse?_withId hs hid hd)
                rw [← h, relisted?_cons_of_directive hread,
                  if_pos (Directive.mem_ids_withId dir id)]

/-! ### Entering an id -/

/-- After an id was entered, the search finds a directive with this id and changes nothing. -/
theorem relisted?_entered (hs : s.Legible) (hid : IsId id) (ts : List Token) :
    s.relisted? id (s.entered id ts).reverse = some (s.entered id ts).reverse := by
  rw [entered]
  cases h : s.relisted? id ts.reverse with
  | some us => simpa using relisted?_relisted? hs hid h
  | none =>
      have hread : s.directive? ⟨.lineComment, s.comment id⟩ = some ⟨s.verb, [id]⟩ :=
        (directive?_of_isComment rfl).trans (parse?_comment hs hid)
      have hbreak : ∀ text : String, s.directive? ⟨.whitespace, text⟩ = none := fun _ =>
        directive?_of_not_isComment rfl
      simp only [line, List.reverse_append, List.reverse_cons, List.reverse_nil, List.nil_append,
        List.cons_append]
      rw [relisted?_cons_of_quiet rfl (hbreak _), relisted?_cons_of_directive hread,
        if_pos (by simp)]
      rfl

/-- **Entering an id twice is entering it once.** -/
theorem entered_entered (hs : s.Legible) (hid : IsId id) (ts : List Token) :
    s.entered id (s.entered id ts) = s.entered id ts := by
  rw [entered, relisted?_entered hs hid]
  exact List.reverse_reverse _

/-- Behind a token that is not blank, the indentation does not depend on what stands before it. -/
theorem trailingIndent_append {cs ds : List Char} (h : ∃ c ∈ ds, Text.isBlank c = false) :
    Forest.trailingIndent (cs ++ ds) = Forest.trailingIndent ds := by
  by_cases hl : '\n' ∈ ds
  · rw [Forest.trailingIndent, Forest.trailingIndent, Forest.afterLineFeed_append_of_mem hl]
  · obtain ⟨c, hc, hb⟩ := h
    have hne : ∀ cs, (Forest.afterLineFeed (cs ++ ds)).all Text.isBlank = false := by
      intro cs
      rw [Forest.afterLineFeed_append_of_notMem hl, List.all_append, Bool.and_eq_false_iff]
      exact .inr (List.all_eq_false.2 ⟨c, hc, by simp [hb]⟩)
    have hnil := hne []
    rw [List.nil_append] at hnil
    simp [Forest.trailingIndent, hne cs, hnil]

/-- **What stands before a solid token does not matter** to what is entered behind it. -/
theorem entered_append (hu : u.isTrivia = false) (hb : ∃ c ∈ u.text.toList, Text.isBlank c = false)
    (ts us : List Token) : s.entered id (ts ++ u :: us) = ts ++ s.entered id (u :: us) := by
  have hrev : (ts ++ u :: us).reverse = us.reverse ++ u :: ts.reverse := by simp
  have hrev' : (u :: us).reverse = us.reverse ++ u :: [] := by simp
  obtain ⟨c, hc, hblank⟩ := hb
  have hindent : Forest.trailingIndent (Token.spell (ts ++ u :: us)) =
      Forest.trailingIndent (Token.spell (u :: us)) := by
    rw [Token.spell_append]
    exact trailingIndent_append ⟨c, by simp [hc], hblank⟩
  rw [entered, entered, hrev, hrev', relisted?_append hu, relisted?_append hu]
  cases s.relisted? id us.reverse with
  | some vs => simp
  | none => simp only [Option.map_none, line, hindent, List.append_assoc]

/-- A solid token stays where it is. -/
theorem exists_entered_cons (hu : u.isTrivia = false) (s : Settings) (id : String)
    (us : List Token) :
    ∃ vs, s.entered id (u :: us) = u :: vs := by
  have hrev : (u :: us).reverse = us.reverse ++ u :: [] := by simp
  rw [entered, hrev, relisted?_append hu]
  cases s.relisted? id us.reverse with
  | some vs => exact ⟨vs.reverse, by simp⟩
  | none => exact ⟨us ++ s.line id (Token.spell (u :: us)), rfl⟩

end Settings

/-! ### Leaves with their tokens -/

/-- The characters of leaves are what their tokens spell. -/
theorem Forest.charsOf_eq_spell (xs : List (ElementId × Token)) :
    Forest.charsOf xs = Token.spell (xs.map Prod.snd) := by
  rw [charsOf, Token.spell, List.flatMap_map]

namespace Leaves

variable {s : Settings} {id : String} {xs ys : List (ElementId × Token)} {x : ElementId × Token}
  {dir : Directive}

/-- The nearest directive among the comments that start some leaves is where going back over their
tokens arrives. -/
theorem relisted?_map_snd (s : Settings) (id : String) (ys : List (ElementId × Token)) :
    match directive? s.verb (openingComments ys) with
    | none => s.relisted? id (ys.map Prod.snd) = none
    | some (x, dir) => ∃ gap rest, ys = gap ++ x :: rest ∧ (∀ y ∈ gap, y.2.isTrivia = true) ∧
        s.directive? x.2 = some dir ∧
        s.relisted? id (ys.map Prod.snd) = some (if id ∈ dir.ids then ys.map Prod.snd
          else gap.map Prod.snd ++ ⟨.lineComment, (dir.withId id).render s.marker⟩ ::
            rest.map Prod.snd) := by
  induction ys with
  | nil => rfl
  | cons y ys ih =>
      cases ht : y.2.isTrivia with
      | false =>
          have hnone : directive? s.verb (openingComments (y :: ys)) = none := by
            simp [openingComments, directive?, ht]
          rw [hnone]
          exact Settings.relisted?_cons_of_solid ht
      | true =>
          cases hd : s.directive? y.2 with
          | some dir =>
              have hc : y.2.isComment = true := by
                by_contra hc
                simp [Settings.directive?_of_not_isComment (by simpa using hc)] at hd
              have hparse := hd
              rw [Settings.directive?_of_isComment hc] at hparse
              have hsome : directive? s.verb (openingComments (y :: ys)) = some (y, dir) := by
                simp [openingComments, directive?, ht, hc, hparse]
              rw [hsome]
              refine ⟨[], ys, rfl, by simp, hd, ?_⟩
              exact Settings.relisted?_cons_of_directive hd
          | none =>
              have hsame : directive? s.verb (openingComments (y :: ys)) =
                  directive? s.verb (openingComments ys) := by
                cases hc : y.2.isComment with
                | false => simp [openingComments, directive?, ht, hc]
                | true =>
                    rw [Settings.directive?_of_isComment hc] at hd
                    simp [openingComments, directive?, ht, hc, hd]
              have hstep : s.relisted? id ((y :: ys).map Prod.snd) =
                  (s.relisted? id (ys.map Prod.snd)).map (y.2 :: ·) :=
                Settings.relisted?_cons_of_quiet ht hd
              rw [hsame, hstep]
              revert ih
              cases directive? s.verb (openingComments ys) with
              | none => exact fun ih => by rw [ih]; rfl
              | some r =>
                  rintro ⟨gap, rest, rfl, hgap, hdir, hlisted⟩
                  refine ⟨y :: gap, rest, rfl, by simpa [ht] using hgap, hdir, ?_⟩
                  rw [hlisted]
                  split <;> rfl

/-- The comments at the start of reversed leaves are those at the end of the leaves. -/
theorem openingComments_reverse (xs : List (ElementId × Token)) :
    openingComments xs.reverse = trailingComments xs := rfl

/-- Without a directive before the container, a line is put at the end. -/
theorem entered_of_none (h : directive? s.verb (trailingComments xs) = none) (id : String) :
    s.entered id (xs.map Prod.snd) =
      xs.map Prod.snd ++ s.line id (Token.spell (xs.map Prod.snd)) := by
  have hrun := relisted?_map_snd s id xs.reverse
  rw [openingComments_reverse, h, List.map_reverse] at hrun
  rw [Settings.entered, hrun]

/-- **The id is entered at the nearest directive.** -/
theorem entered_of_directive? (h : directive? s.verb (trailingComments xs) = some (x, dir))
    (id : String) : ∃ pre gap, xs = pre ++ x :: gap ∧ (∀ y ∈ gap, y.2.isTrivia = true) ∧
      s.entered id (xs.map Prod.snd) = if id ∈ dir.ids then xs.map Prod.snd
        else pre.map Prod.snd ++ ⟨.lineComment, (dir.withId id).render s.marker⟩ ::
          gap.map Prod.snd := by
  have hrun := relisted?_map_snd s id xs.reverse
  rw [openingComments_reverse, h] at hrun
  obtain ⟨gap, rest, hxs, hgap, -, hlisted⟩ := hrun
  refine ⟨rest.reverse, gap.reverse, ?_, fun y hy => hgap y (List.mem_reverse.1 hy), ?_⟩
  · rw [← List.reverse_reverse xs, hxs]
    simp
  · rw [List.map_reverse] at hlisted
    rw [Settings.entered, hlisted]
    by_cases hi : id ∈ dir.ids <;> simp [hi]

/-- Where an id was entered, the nearest directive lists it. -/
theorem exists_directive?_of_entered (hs : s.Legible) (hid : IsId id) {ts : List Token}
    (h : xs.map Prod.snd = s.entered id ts) :
    ∃ x dir, directive? s.verb (trailingComments xs) = some (x, dir) ∧ id ∈ dir.ids := by
  have hlisted := Settings.relisted?_entered hs hid ts
  have hrun := relisted?_map_snd s id xs.reverse
  rw [openingComments_reverse, List.map_reverse, h] at hrun
  cases hd : directive? s.verb (trailingComments xs) with
  | none => simp [hd, hlisted] at hrun
  | some r =>
      obtain ⟨x, dir⟩ := r
      refine ⟨x, dir, rfl, ?_⟩
      rw [hd] at hrun
      obtain ⟨gap, rest, hxs, -, hdir, hsame⟩ := hrun
      by_contra hi
      -- the directive would have been written anew, and is not what it was
      rw [hlisted, if_neg hi, Option.some.injEq, ← h, ← List.map_reverse, hxs, List.map_append,
        List.map_cons] at hsame
      have htoken := (List.cons.inj (List.append_cancel_left hsame)).1
      have hc : x.2.isComment = true := by rw [htoken]; rfl
      rw [Settings.directive?_of_isComment hc] at hdir
      have hread := Settings.parse?_withId hs hid hdir
      have htext : x.2.text = (dir.withId id).render s.marker := by rw [htoken]
      rw [← htext, hdir, Option.some.injEq] at hread
      exact hi (hread ▸ Directive.mem_ids_withId dir id)

end Leaves

end BnfSuppression
