import BnfSuppression.Proofs.Lexing.Spelled
import BnfSuppression.Proofs.Reading

/-!
# White Space Side by Side

Writing a line break before white space puts two tokens of white space side by side, which are one
token once the text is read again. Joining them makes a sequence of tokens, or a tree, into the one
that is read.

## Main results

* `Token.Spelled.separate`: what is read from a text has no white space side by side.
* `Token.spell_joined`: joining keeps the text.
* `Tree.parseFile_joined`: **reading joined tokens gives the joined tree**, where white space is
  side by side at the start only.
-/

namespace BnfSuppression

namespace Token

variable {t u y : Token} {ts A B : List Token}

/-- A token in front of others; white space is joined with white space that they start with. -/
def join (t : Token) : List Token → List Token
  | [] => [t]
  | u :: ts => if t.isWhitespace && u.isWhitespace then ⟨.whitespace, t.text ++ u.text⟩ :: ts
      else t :: u :: ts

/-- The tokens, with white space side by side joined. -/
def joined : List Token → List Token
  | [] => []
  | t :: ts => join t (joined ts)

/-- No two tokens of white space stand side by side. -/
def Separate (ts : List Token) : Prop :=
  ts.IsChain fun t u => (t.isWhitespace && u.isWhitespace) = false

/-- Joining white space changes no character of the text. -/
theorem spell_join (t : Token) (ts : List Token) : spell (join t ts) = spell (t :: ts) := by
  cases ts with
  | nil => rfl
  | cons u ts =>
      rw [join]
      split
      · simp
      · rfl

/-- Joining keeps the text. -/
@[simp]
theorem spell_joined (ts : List Token) : spell (joined ts) = spell ts := by
  induction ts with
  | nil => rfl
  | cons t ts ih => rw [joined, spell_join, spell_cons, ih, spell_cons]

/-- A token that is no white space is put in front as it is. -/
theorem join_of_not_whitespace (h : t.isWhitespace = false) (ts : List Token) :
    join t ts = t :: ts := by
  cases ts <;> simp [join, h]

/-- Joining goes no further than the first token that is no white space. -/
theorem join_append_cons (hy : y.isWhitespace = false) (t : Token) (A B : List Token) :
    join t (A ++ y :: B) = join t A ++ y :: B := by
  cases A with
  | nil => simp [join, hy]
  | cons u A =>
      rw [List.cons_append, join, join]
      split <;> rfl

/-- What is not white space separates what is joined. -/
theorem joined_append_cons (hy : y.isWhitespace = false) (A B : List Token) :
    joined (A ++ y :: B) = joined A ++ y :: joined B := by
  induction A with
  | nil => exact join_of_not_whitespace hy _
  | cons t A ih => rw [List.cons_append, joined, ih, join_append_cons hy, joined]

/-- Where nothing stands side by side, nothing is joined. -/
theorem Separate.joined_eq (h : Separate ts) : joined ts = ts := by
  induction ts with
  | nil => rfl
  | cons t ts ih =>
      rw [joined, ih h.tail]
      cases ts with
      | nil => rfl
      | cons u ts => rw [join, (List.isChain_cons_cons.1 h).1, if_neg (by simp)]

/-- **What is read from a text has no white space side by side.** -/
theorem Spelled.separate (h : Spelled ts) : Separate ts := by
  induction ts with
  | nil => exact List.isChain_nil
  | cons t ts ih =>
      cases ts with
      | nil => exact List.isChain_singleton t
      | cons u ts =>
          refine List.isChain_cons_cons.2 ⟨?_, ih h.2⟩
          rw [Bool.and_eq_false_iff]
          by_contra hws
          simp only [not_or, Bool.not_eq_false] at hws
          obtain ⟨d, ds, hd⟩ := List.exists_cons_of_ne_nil h.2.1.text_ne_nil
          have hblank := (h.2.1.of_whitespace hws.2).1 d (by simp [hd])
          rw [(h.1.of_whitespace hws.1).2 d (by simp [hd])] at hblank
          simp at hblank

/-- A token in front of others is at least one token, whether it was joined or not. -/
theorem join_ne_nil (t : Token) (ts : List Token) : join t ts ≠ [] := by
  cases ts with
  | nil => simp [join]
  | cons u ts =>
      rw [join]
      split <;> simp

/-- Joining makes no token disappear altogether. -/
theorem eq_nil_of_joined (h : joined ts = []) : ts = [] := by
  cases ts with
  | nil => rfl
  | cons t ts => exact absurd h (join_ne_nil t _)

/-- Joining leaves the last token as it is, unless it is white space. -/
theorem getLast?_joined (ht : t.isWhitespace = false) (h : (joined ts).getLast? = some t) :
    ts.getLast? = some t := by
  induction ts with
  | nil => simp [joined] at h
  | cons u ts ih =>
      rw [joined] at h
      cases hts : joined ts with
      | nil =>
          obtain rfl : ts = [] := eq_nil_of_joined hts
          rw [hts] at h
          simpa [join] using h
      | cons v vs =>
          have hlast : (v :: vs).getLast? = some t := by
            rw [hts, join] at h
            split at h
            · cases vs with
              | nil =>
                  obtain rfl : _ = t := by simpa using h
                  simp [isWhitespace] at ht
              | cons w vs => simpa using h
            · simpa using h
          have := ih (hts ▸ hlast)
          cases ts with
          | nil => simp at this
          | cons w ts => simpa using this

/-- Joining leaves the solid tokens alone. -/
theorem filter_solid_joined (ts : List Token) :
    (joined ts).filter (fun t => !t.isTrivia) = ts.filter fun t => !t.isTrivia := by
  induction ts with
  | nil => rfl
  | cons t ts ih =>
      have hjoin : (join t (joined ts)).filter (fun t => !t.isTrivia) =
          (t :: joined ts).filter fun t => !t.isTrivia := by
        cases joined ts with
        | nil => rfl
        | cons u us =>
            rw [join]
            split
            · next hws =>
              rw [Bool.and_eq_true] at hws
              have hj : isTrivia ⟨.whitespace, t.text ++ u.text⟩ = true := rfl
              simp [hj, isTrivia_of_isWhitespace hws.1, isTrivia_of_isWhitespace hws.2]
            · rfl
      rw [joined, hjoin, List.filter_cons, List.filter_cons, ih]

/-- Joined white space is white space. -/
theorem isTrivia_of_mem_joined (h : ∀ u ∈ ts, u.isTrivia = true) :
    ∀ u ∈ joined ts, u.isTrivia = true := by
  induction ts with
  | nil => simp [joined]
  | cons t ts ih =>
      obtain ⟨ht, hts⟩ := List.forall_mem_cons.1 h
      have ih := ih hts
      rw [joined]
      cases hj : joined ts with
      | nil => simpa [join] using ht
      | cons v vs =>
          rw [hj] at ih
          obtain ⟨hv, hvs⟩ := List.forall_mem_cons.1 ih
          rw [join]
          split
          · exact List.forall_mem_cons.2 ⟨rfl, hvs⟩
          · exact List.forall_mem_cons.2 ⟨ht, ih⟩

end Token

namespace Tree

open Token (Separate)

/-- A tree in front of others; white space is joined with white space that they start with. -/
def join : Tree → List Tree → List Tree
  | leaf t, leaf u :: ts =>
    if t.isWhitespace && u.isWhitespace then leaf ⟨.whitespace, t.text ++ u.text⟩ :: ts
    else leaf t :: leaf u :: ts
  | t, ts => t :: ts

mutual

/-- The tree, with white space side by side joined. -/
def joined : Tree → Tree
  | leaf t => leaf t
  | node type children => node type (joinedAll children)

/-- The trees, with white space side by side joined. -/
def joinedAll : List Tree → List Tree
  | [] => []
  | t :: ts => join (joined t) (joinedAll ts)

end

variable {t : Token} {ts : List Token} {us : List Tree}

mutual

/-- Where no white space is side by side, nothing is joined. -/
theorem joined_of_separate : (u : Tree) → Separate u.leaves → u.joined = u
  | leaf _, _ => rfl
  | node type us, h => by rw [joined, joinedAll_of_separate us h]

/-- Trees whose leaves have no white space side by side stay as they are. -/
theorem joinedAll_of_separate : (us : List Tree) → Separate (leavesOf us) → joinedAll us = us
  | [], _ => rfl
  | u :: us, h => by
    have hu : Separate u.leaves := h.left_of_append
    have hus : Separate (leavesOf us) := h.right_of_append
    rw [joinedAll, joined_of_separate u hu, joinedAll_of_separate us hus]
    cases u with
    | node type ds => rfl
    | leaf t =>
        cases us with
        | nil => rfl
        | cons v us =>
            cases v with
            | node type ds => rfl
            | leaf u =>
                have hsep := (List.isChain_cons_cons.1 h).1
                rw [join, hsep, if_neg (by simp)]

end

/-- The trees do not start with white space. -/
def StartsOther (us : List Tree) : Prop := ∀ t us', us = leaf t :: us' → t.isWhitespace = false

/-- Leaves are joined like tokens. -/
theorem join_leaf (h : StartsOther us) (t : Token) (ts : List Token) :
    join (leaf t) (ts.map leaf ++ us) = (Token.join t ts).map leaf ++ us := by
  cases ts with
  | nil =>
      cases us with
      | nil => rfl
      | cons u us =>
          cases u with
          | node type ds => rfl
          | leaf u => simp [join, Token.join, h u us rfl]
  | cons u ts =>
      simp only [List.map_cons, List.cons_append, join, Token.join]
      split <;> rfl

/-- Leaves in front of joined trees are joined like their tokens, if the trees do not start with
white space. -/
theorem joinedAll_leaves (h : StartsOther us) (hj : joinedAll us = us) (ts : List Token) :
    joinedAll (ts.map leaf ++ us) = (Token.joined ts).map leaf ++ us := by
  induction ts with
  | nil => exact hj
  | cons t ts ih => rw [List.map_cons, List.cons_append, joinedAll, ih, joined, join_leaf h,
      Token.joined]

/-! ### Reading -/

/-- What a file holds from a solid token on starts with no white space. -/
theorem startsOther_fileItems (h : t.isTrivia = false) (ts : List Token) :
    StartsOther (fileItems (t :: ts)) := by
  intro u us hu
  rcases fileItems_cases t ts with ⟨-, he⟩ | ⟨_, _, _, -, -, he⟩ | ⟨-, -, he⟩
  · rw [he] at hu
    simp [parseBlock] at hu
  · rw [he] at hu
    simp [parseRule] at hu
  · rw [he] at hu
    obtain ⟨htu, -⟩ := List.cons.inj hu
    obtain rfl := Tree.leaf.inj htu
    rw [Token.isTrivia, TokenType.isTrivia_eq, Bool.or_eq_false_iff] at h
    exact h.1

/-- **Reading joined tokens gives the joined tree**, if white space is side by side at the start
only. -/
theorem parseFile_joined (h : Separate (skipTrivia ts)) :
    parseFile (Token.joined ts) = (parseFile ts).joined := by
  have hlead : ∀ t ∈ leadingTrivia ts, t.isTrivia = true := fun t ht => List.mem_takeWhile_imp ht
  have hother : StartsOther (fileItems (skipTrivia ts)) := by
    cases hs : skipTrivia ts with
    | nil => simp [StartsOther, fileItems]
    | cons t us => exact startsOther_fileItems (isTrivia_of_skipTrivia hs) us
  have hitems : joinedAll (fileItems (skipTrivia ts)) = fileItems (skipTrivia ts) :=
    joinedAll_of_separate _ (by rwa [leavesOf_fileItems])
  have htokens : Token.joined ts = Token.joined (leadingTrivia ts) ++ skipTrivia ts := by
    conv_lhs => rw [← leadingTrivia_append ts]
    cases hs : skipTrivia ts with
    | nil => simp
    | cons t us =>
        have ht := isTrivia_of_skipTrivia hs
        rw [Token.isTrivia, TokenType.isTrivia_eq, Bool.or_eq_false_iff] at ht
        have hus : Separate us := (hs ▸ h).tail
        rw [Token.joined_append_cons ht.1, hus.joined_eq]
  rw [htokens, parseFile, parseFile, fileItems_append (Token.isTrivia_of_mem_joined hlead),
    joined, ← joinedAll_leaves hother hitems, ← fileItems_append hlead, leadingTrivia_append]

end Tree

end BnfSuppression
