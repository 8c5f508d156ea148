import BnfSuppression.Proofs.Reading.Composites

/-!
# How Items Begin and End

White space and comments between items belong to what holds the items, with two exceptions at the
end of an item. After `::=` and `=` the white space on the same line is taken before it is known
whether an expression or a value follows, and a pattern or a block that is never closed takes all
that there is. A rule or an attribute of either kind breaks off; every other one ends with a token
that is neither white space nor a comment. All of them begin with an identifier.

## Main definitions

* `Tree.BreaksOff`: the items that white space or a comment may end.

## Main results

* `Tree.IsRule.endsSolid_or`, `Tree.IsAttr.endsSolid_or`: rules and attributes end with a solid
  token or break off.
* `Tree.edges_of_mem_composites`: **an item begins with an identifier, and white space or a comment
  ends it exactly if it breaks off**.
-/

namespace BnfSuppression

namespace Tree

/-- A pattern without a closing parenthesis, or a block without a closing brace. -/
inductive IsUnclosed : Tree → Prop
  | pattern {Us : List Tree} : (∀ u ∈ leavesOf Us, u.isOperator ")" = false) →
    IsUnclosed (node .attrPattern Us)
  | block {Us : List Tree} : (∀ u ∈ leavesOf Us, u.isOperator closeBrace = false) →
    IsUnclosed (node .attrs Us)

/-- An item breaks off where nothing follows the white space after its `::=` or `=`, and where its
last part is never closed and has white space or a comment at its end. -/
inductive BreaksOff : Tree → Prop
  | empty {item part : ElementType} {Ts : List Tree} {space : Token} :
    part = .expression ∨ part = .value → space.isInlineSpace = true →
    BreaksOff (node item (Ts ++ [leaf space, node part []]))
  | unclosed {item : ElementType} {Ts : List Tree} {T : Tree} : IsUnclosed T →
    ¬ EndsSolid T.leaves → BreaksOff (node item (Ts ++ [T]))

variable {t : Token} {ts us rest : List Token} {Ts Us : List Tree} {T : Tree}
  {item part : ElementType} {k : Nat} {c : Nat × Tree}

/-! ### The last token -/

/-- Tokens end solid exactly if the last one is neither white space nor a comment. -/
theorem endsSolid_concat : EndsSolid (ts ++ [t]) ↔ t.isTrivia = false := by simp [EndsSolid]

/-- Where tokens follow, they alone decide whether the whole ends solid. -/
theorem endsSolid_append (hne : us ≠ []) (ts : List Token) :
    EndsSolid (ts ++ us) ↔ EndsSolid us := by
  rw [← List.dropLast_concat_getLast hne, ← List.append_assoc, endsSolid_concat, endsSolid_concat]

/-- Tokens that do not end solid have a last one. -/
theorem ne_nil_of_not_endsSolid (h : ¬ EndsSolid ts) : ts ≠ [] := fun hnil =>
  h (hnil ▸ endsSolid_nil)

/-- What breaks off ends with white space or a comment. -/
theorem BreaksOff.not_endsSolid (h : BreaksOff T) : ¬ EndsSolid T.leaves := by
  cases h with
  | @empty item part Ts space _ hspace =>
      have hleaves : (node item (Ts ++ [leaf space, node part []])).leaves =
          leavesOf Ts ++ [space] := by
        simp [leaves, leavesOf]
      rw [hleaves, endsSolid_concat, isTrivia_of_isInlineSpace hspace]
      decide
  | @unclosed item Ts T _ hT =>
      rwa [leaves, leavesOf_append, leavesOf_singleton,
        endsSolid_append (ne_nil_of_not_endsSolid hT)]

/-! ### The last part -/

/-- Whatever stands before these children, the item ends with a solid token or breaks off. -/
def EndsOrBreaks (Ts : List Tree) : Prop :=
  ∀ item Us, EndsSolid (leavesOf (Us ++ Ts)) ∨ BreaksOff (node item (Us ++ Ts))

/-- Children in front make no difference to how an item ends. -/
theorem EndsOrBreaks.append (h : EndsOrBreaks Ts) (Us : List Tree) : EndsOrBreaks (Us ++ Ts) := by
  intro item Vs
  rw [← List.append_assoc]
  exact h item (Vs ++ Us)

/-- Children that end with a solid token end the item with it. -/
theorem endsOrBreaks_of_endsSolid (h : EndsSolid (leavesOf Ts)) (hne : leavesOf Ts ≠ []) :
    EndsOrBreaks Ts := by
  intro item Us
  rw [leavesOf_append, endsSolid_append hne]
  exact .inl h

/-- An operator at the end of an item is a solid token. -/
theorem endsOrBreaks_operator {spelling : String} (h : t.isOperator spelling = true) :
    EndsOrBreaks [leaf t] :=
  endsOrBreaks_of_endsSolid (endsSolid_nil.cons fun _ => isTrivia_of_isOperator h)
    (List.cons_ne_nil t [])

/-- An unclosed part at the end leaves no third way. -/
theorem endsOrBreaks_of_isUnclosed (h : IsUnclosed T) (hne : T.leaves ≠ []) :
    EndsOrBreaks [T] := by
  intro item Us
  by_cases hT : EndsSolid T.leaves
  · exact endsOrBreaks_of_endsSolid (by rwa [leavesOf_singleton]) (by rwa [leavesOf_singleton])
      item Us
  · exact .inr (.unclosed h hT)

/-- After a sign there may be white space with nothing behind it. -/
theorem endsOrBreaks_sign {spelling : String} {sign : Token} {gap : List Token}
    (hsign : sign.isOperator spelling = true) (hgap : IsGap gap) (hts : EndsSolid ts)
    (hpart : part = .expression ∨ part = .value) :
    EndsOrBreaks ((sign :: gap).map leaf ++ [node part (ts.map leaf)]) := by
  by_cases hnil : ts = []
  · rw [hnil]
    cases hgap with
    | none =>
        refine endsOrBreaks_of_endsSolid ?_ (by simp [leavesOf, leaves])
        simpa [leavesOf, leaves, EndsSolid] using isTrivia_of_isOperator hsign
    | @space t ht =>
        intro item Us
        have hbreaks : BreaksOff (node item ((Us ++ [leaf sign]) ++ [leaf t, node part []])) :=
          .empty hpart ht
        exact .inr (by simpa using hbreaks)
  · refine EndsOrBreaks.append (endsOrBreaks_of_endsSolid ?_ ?_) _
    · simpa [leavesOf, leaves] using hts
    · simpa [leavesOf, leaves] using hnil

/-- A pattern ends with its parenthesis or is never closed. -/
theorem IsPattern.endsOrBreaks (h : IsPattern ts) :
    EndsOrBreaks [node .attrPattern (ts.map leaf)] := by
  cases h with
  | @intro opening us hopen _ hparen =>
      by_cases hlast : ∀ t ∈ us.getLast?, t.isOperator ")" = false
      · refine endsOrBreaks_of_isUnclosed (.pattern ?_) (by simp [leaves, leavesOf])
        rw [leavesOf_map_leaf, List.forall_mem_cons]
        refine ⟨isOperator_of_ne hopen (by decide), fun u hu => ?_⟩
        have hne := List.ne_nil_of_mem hu
        rw [← List.dropLast_concat_getLast hne, List.mem_append, List.mem_singleton] at hu
        rcases hu with hu | rfl
        · exact hparen u hu
        · exact hlast _ (List.getLast?_eq_some_getLast hne)
      · simp only [not_forall, Bool.not_eq_false, Option.mem_def] at hlast
        obtain ⟨t, ht, hclosing⟩ := hlast
        obtain ⟨vs, rfl⟩ := List.getLast?_eq_some_iff.1 ht
        refine endsOrBreaks_of_endsSolid ?_ (by simp [leavesOf, leaves])
        rw [leavesOf_singleton, leaves, leavesOf_map_leaf, ← List.cons_append, endsSolid_concat]
        exact isTrivia_of_isOperator hclosing

/-- A block ends with its brace or is never closed. -/
theorem IsBlock.endsOrBreaks (h : IsBlock rest T) : EndsOrBreaks [T] := by
  cases h with
  | @closed opening closing items _ _ hclosing =>
      refine endsOrBreaks_of_endsSolid ?_ (by simp [leavesOf, leaves])
      have hleaves : leavesOf [node .attrs (leaf opening :: items ++ [leaf closing])] =
          opening :: leavesOf items ++ [closing] := by
        simp [leavesOf, leaves]
      rw [hleaves, endsSolid_concat]
      exact isTrivia_of_isOperator hclosing
  | @unclosed opening items hopening hitems _ =>
      refine endsOrBreaks_of_isUnclosed (.block ?_) (by simp [leaves, leavesOf])
      rw [leavesOf, leaves, List.singleton_append, List.forall_mem_cons]
      exact ⟨isOperator_of_ne hopening (by decide), free_of_blockItems hitems⟩

/-- A semicolon ends what it closes. -/
theorem IsClose.endsOrBreaks {between : Token → Bool} {close : List Token}
    (h : IsClose between close) (hTs : EndsOrBreaks Ts) : EndsOrBreaks (Ts ++ close.map leaf) := by
  cases h with
  | none => simpa using hTs
  | semicolon _ ht =>
      rw [List.map_append]
      exact ((endsOrBreaks_operator ht).append _).append _

/-! ### Items -/

/-- **A rule ends with a token that is neither white space nor a comment, or it breaks off.** -/
theorem IsRule.endsSolid_or (h : IsRule rest T) : EndsSolid T.leaves ∨ BreaksOff T := by
  cases h with
  | @intro modifiers block name sign space gap expression close _ _ _ hsign hgap hexpression hblock
      hclose =>
      have hbody : EndsOrBreaks ((space ++ sign :: gap).map leaf ++
          node .expression (expression.map leaf) :: block) := by
        cases hblock with
        | none =>
            rw [List.map_append, List.append_assoc]
            exact (endsOrBreaks_sign hsign hgap hexpression.last (.inl rfl)).append _
        | block _ hT =>
            rw [← List.cons_append, ← List.append_assoc]
            exact hT.endsOrBreaks.append _
      simpa [leaves] using hclose.endsOrBreaks hbody .rule (modifiers ++ [leaf name])

/-- **An attribute ends with a token that is neither white space nor a comment, or it breaks
off.** -/
theorem IsAttr.endsSolid_or (h : IsAttr T) : EndsSolid T.leaves ∨ BreaksOff T := by
  cases h with
  | @intro name pattern value close _ hpattern hvalue hne hclose =>
      have hparts : EndsOrBreaks (pattern ++ value) := by
        cases hvalue with
        | none =>
            cases hpattern with
            | none => exact absurd rfl (hne rfl)
            | pattern _ hts =>
                rw [List.append_nil]
                exact hts.endsOrBreaks.append _
        | value _ hsign hgap hts =>
            rw [List.map_append, List.append_assoc]
            exact ((endsOrBreaks_sign hsign hgap hts.last (.inr rfl)).append _).append _
      simpa [leaves] using hclose.endsOrBreaks hparts .attr [leaf name]

/-- With modifiers or without, a rule starts with an identifier. -/
theorem IsModifierPart.exists_identifier (h : IsModifierPart Us) (ht : t.isIdentifier = true)
    (Ts : List Tree) : ∃ u us, leavesOf (Us ++ leaf t :: Ts) = u :: us ∧ u.isIdentifier = true := by
  cases h with
  | none => exact ⟨t, leavesOf Ts, rfl, ht⟩
  | modifiers hms _ => cases hms <;> exact ⟨_, _, rfl, by assumption⟩

/-- The first token of a rule is an identifier. -/
theorem IsRule.exists_identifier (h : IsRule rest T) :
    ∃ t ts, T.leaves = t :: ts ∧ t.isIdentifier = true := by
  obtain ⟨hm, hname, -⟩ := h
  exact hm.exists_identifier hname _

/-- The first token of an attribute is an identifier. -/
theorem IsAttr.exists_identifier (h : IsAttr T) :
    ∃ t ts, T.leaves = t :: ts ∧ t.isIdentifier = true := by
  obtain ⟨hname, -⟩ := h
  exact ⟨_, _, rfl, hname⟩

/-- **What begins and ends the items.** In every text, rules and attributes begin with an
identifier, and the last token of one is white space or a comment exactly if it breaks off: if
nothing follows the white space after its `::=` or `=`, or if it ends with a pattern or a block that
is never closed. -/
theorem edges_of_mem_composites {text : String} (hc : c ∈ (parse text).composites 0)
    (hitem : c.2.type? = some .rule ∨ c.2.type? = some .attr) :
    (∃ t ts, c.2.leaves = t :: ts ∧ t.isIdentifier = true) ∧
      ((∃ ts t, c.2.leaves = ts ++ [t] ∧ t.isTrivia = true) ↔ BreaksOff c.2) := by
  obtain ⟨hrule, hattr⟩ := of_mem_composites_parse hc
  have hends : EndsSolid c.2.leaves ∨ BreaksOff c.2 := by
    rcases hitem with ht | ht
    · obtain ⟨rest, hform⟩ := hrule ht
      exact hform.endsSolid_or
    · exact (hattr ht).endsSolid_or
  refine ⟨?_, ?_, fun h => ?_⟩
  · rcases hitem with ht | ht
    · obtain ⟨rest, hform⟩ := hrule ht
      exact hform.exists_identifier
    · exact (hattr ht).exists_identifier
  · rintro ⟨ts, t, hleaves, ht⟩
    refine hends.resolve_left fun hsolid => ?_
    rw [hleaves, endsSolid_concat, ht] at hsolid
    cases hsolid
  · have hlast := h.not_endsSolid
    have hleaves := List.dropLast_concat_getLast (ne_nil_of_not_endsSolid hlast)
    rw [← hleaves, endsSolid_concat, Bool.not_eq_false] at hlast
    exact ⟨_, _, hleaves.symm, hlast⟩

/-- A comment right behind `::=` leaves a rule the white space before the comment; a rule with an
expression ends there. -/
theorem edges_of_mem_composites_empty :
    let composites := (parse "foo ::= // bar\nbaz ::= qux\n").composites 0
    (∃ c ∈ composites, c.2.type? = some .rule ∧ c.2.leaves = tokenize "foo ::= " ∧
      BreaksOff c.2) ∧
    ∃ c ∈ composites, c.2.type? = some .rule ∧ c.2.leaves = tokenize "baz ::= qux" ∧
      ¬ BreaksOff c.2 := by
  intro composites
  constructor
  · obtain ⟨c, hc, ht, hleaves⟩ : ∃ c ∈ composites, c.2.type? = some .rule ∧
        c.2.leaves = tokenize "foo ::= " := by decide +kernel
    obtain ⟨-, hends⟩ := edges_of_mem_composites hc (.inl ht)
    have hspace : tokenize "foo ::= " = tokenize "foo ::=" ++ [⟨.whitespace, " "⟩] := by
      decide +kernel
    exact ⟨c, hc, ht, hleaves, hends.1 ⟨_, _, hleaves.trans hspace, rfl⟩⟩
  · obtain ⟨c, hc, ht, hleaves⟩ : ∃ c ∈ composites, c.2.type? = some .rule ∧
        c.2.leaves = tokenize "baz ::= qux" := by decide +kernel
    obtain ⟨-, hends⟩ := edges_of_mem_composites hc (.inl ht)
    have hsolid : EndsSolid (tokenize "baz ::= qux") := by unfold EndsSolid; decide +kernel
    refine ⟨c, hc, ht, hleaves, fun h => ?_⟩
    obtain ⟨ts, t, hlast, htrivia⟩ := hends.2 h
    rw [← hleaves, hlast, endsSolid_concat, htrivia] at hsolid
    cases hsolid

end Tree

end BnfSuppression
