import BnfSuppression.Proofs.Faithful

/-!
# Reading Is Local

An element of a tree has an address, the indices of the children to go down to from the top. Where
the tokens that are read hold a comment and white space more, right before the first token of a
rule or of an attribute, the tree has two leaves more, right before that rule or attribute, and is
the same tree elsewhere.

## Main results

* `Tree.subtreeAt_modifyAt_append`: what stands below a composite whose children were changed.
* `Planted.exists_place_of_subtreeAt`: an address is a place.
* `Tree.parseFile_insert`: **reading is local before rules and attributes**.
-/

namespace BnfSuppression

open Planted (plug Place Change)

namespace Tree

/-! ### Addresses -/

/-- The tree at an address. -/
def subtreeAt : Tree → List Nat → Option Tree
  | T, [] => some T
  | T, i :: path => T.children[i]?.bind fun U => U.subtreeAt path

/-- The leaves before an address, in the order of the text. -/
def leavesBefore : Tree → List Nat → List Token
  | _, [] => []
  | T, i :: path =>
    leavesOf (T.children.take i) ++ (T.children[i]?.elim [] fun U => U.leavesBefore path)

/-- A tree with other children. -/
def mapChildren (f : List Tree → List Tree) : Tree → Tree
  | leaf t => leaf t
  | node type children => node type (f children)

/-- A tree with the children of the composite at an address changed. -/
def modifyAt (f : List Tree → List Tree) : List Nat → Tree → Tree
  | [], T => T.mapChildren f
  | i :: path, T => T.mapChildren fun Ts => Ts.modify i (modifyAt f path)

/-- Trees put in before the child of an index. -/
def insertAll (i : Nat) (Us Ts : List Tree) : List Tree := Ts.take i ++ Us ++ Ts.drop i

variable {T U C : Tree} {Ts Us : List Tree} {f : List Tree → List Tree} {path : List Nat}
  {i j : Nat}

/-- Changing the children of a composite applies the function to them. -/
theorem children_mapChildren (h : T.children ≠ []) : (T.mapChildren f).children = f T.children := by
  cases T with
  | leaf t => simp [children] at h
  | node type Ts => rfl

/-- A tree is at an address exactly if it is at the rest of it below the child that the address
names first. -/
theorem subtreeAt_cons_eq_some_iff : T.subtreeAt (i :: path) = some C ↔
    ∃ U, T.children[i]? = some U ∧ U.subtreeAt path = some C := by
  simp [subtreeAt, Option.bind_eq_some_iff]

/-- A tree that has a child at some index has children. -/
theorem children_ne_nil_of_getElem? (h : T.children[i]? = some U) : T.children ≠ [] := by
  intro hn
  simp [hn] at h

/-- A tree is at an address in two parts exactly if it is at the second below the tree at the
first. -/
theorem subtreeAt_append_eq_some_iff {path' : List Nat} : T.subtreeAt (path ++ path') = some C ↔
    ∃ U, T.subtreeAt path = some U ∧ U.subtreeAt path' = some C := by
  induction path generalizing T with
  | nil => simp [subtreeAt]
  | cons i path ih =>
      simp only [List.cons_append, subtreeAt_cons_eq_some_iff, ih]
      tauto

/-- **What stands below a composite whose children were changed** is what stands below the changed
children. -/
theorem subtreeAt_modifyAt_append (h : T.subtreeAt path = some U) (path' : List Nat) :
    (T.modifyAt f path).subtreeAt (path ++ path') = (U.mapChildren f).subtreeAt path' := by
  induction path generalizing T with
  | nil =>
      obtain rfl : T = U := by simpa [subtreeAt] using h
      rfl
  | cons i path ih =>
      obtain ⟨V, hV, hU⟩ := subtreeAt_cons_eq_some_iff.1 h
      simp only [modifyAt, List.cons_append, subtreeAt,
        children_mapChildren (children_ne_nil_of_getElem? hV), List.getElem?_modify, hV]
      exact ih hU

section

variable {l r : List Tree} (type : ElementType)

/-- In the middle of a list stands the member that was put there. -/
theorem getElem?_append_cons (hl : l.length = i) : (l ++ U :: r)[i]? = some U := by
  simp [← hl]

/-- Before an address in a composite are the leaves of the children to the left, and those before it
in the child. -/
theorem leavesBefore_node (hl : l.length = i) (path : List Nat) :
    (node type (l ++ U :: r)).leavesBefore (i :: path) = leavesOf l ++ U.leavesBefore path := by
  rw [leavesBefore, children, getElem?_append_cons hl, List.take_left' hl]
  rfl

/-- A change below the middle child of a composite leaves the other children alone. -/
theorem modifyAt_node (hl : l.length = i) (path : List Nat) :
    (node type (l ++ U :: r)).modifyAt f (i :: path) =
      node type (l ++ U.modifyAt f path :: r) := by
  subst hl
  rw [modifyAt, mapChildren, List.modify_eq_take_cons_drop (by simp), List.take_left' rfl]
  simp [List.drop_append]

/-- Trees put in between two parts of a list stand between them. -/
theorem insertAll_append (hl : l.length = i) (Us : List Tree) :
    insertAll i Us (l ++ r) = l ++ Us ++ r := by
  rw [insertAll, List.take_left' hl, List.drop_left' hl]

end

/-- The trees from the index on stand behind those that were put in. -/
theorem getElem?_insertAll (h : i ≤ j) (hi : i ≤ Ts.length) :
    (insertAll i Us Ts)[j + Us.length]? = Ts[j]? := by
  rw [insertAll, List.getElem?_append_right (by simp; omega), List.getElem?_drop]
  congr 1
  simp
  omega

/-- After trees were put in, the first part of the list ends with them. -/
theorem take_insertAll (hi : i ≤ Ts.length) :
    (insertAll i Us Ts).take (i + Us.length) = Ts.take i ++ Us :=
  List.take_left' (by simp; omega)

/-- An index at which there is a tree is below the length of the list. -/
theorem lt_length_of_getElem? {Ts : List Tree} (h : Ts[i]? = some U) : i < Ts.length :=
  (List.getElem?_eq_some_iff.1 h).1

/-- What trees are put in before stands behind them. -/
theorem subtreeAt_modifyAt_insertAll (h : T.subtreeAt (path ++ [i]) = some C) (Us : List Tree) :
    (T.modifyAt (insertAll i Us) path).subtreeAt (path ++ [i + Us.length]) = some C := by
  obtain ⟨P, hP, hC⟩ := subtreeAt_append_eq_some_iff.1 h
  obtain ⟨U, hU, hUC⟩ := subtreeAt_cons_eq_some_iff.1 hC
  rw [subtreeAt_modifyAt_append hP, subtreeAt,
    children_mapChildren (children_ne_nil_of_getElem? hU),
    getElem?_insertAll (Nat.le_refl i) (lt_length_of_getElem? hU).le, hU]
  exact hUC

/-- The leaves before it are those that were before it and those of the trees put in. -/
theorem leavesBefore_modifyAt_insertAll (h : T.subtreeAt (path ++ [i]) = some C)
    (Us : List Tree) :
    (T.modifyAt (insertAll i Us) path).leavesBefore (path ++ [i + Us.length]) =
      T.leavesBefore (path ++ [i]) ++ leavesOf Us := by
  induction path generalizing T with
  | nil =>
      obtain ⟨U, hU, -⟩ := subtreeAt_cons_eq_some_iff.1 h
      have hi := (lt_length_of_getElem? hU).le
      simp [leavesBefore, modifyAt, children_mapChildren (children_ne_nil_of_getElem? hU),
        take_insertAll hi, getElem?_insertAll (Nat.le_refl i) hi, hU]
  | cons j path ih =>
      obtain ⟨V, hV, hC⟩ := subtreeAt_cons_eq_some_iff.1 h
      have htake : (T.children.take j).modify j (modifyAt (insertAll i Us) path) =
          T.children.take j := List.modify_eq_self (List.length_take_le _ _)
      simp [leavesBefore, modifyAt, children_mapChildren (children_ne_nil_of_getElem? hV), hV,
        ih hC, List.take_modify, htake]

end Tree

namespace Planted

variable {p q : Planted} {C : Tree} {path : List Nat} {i : Nat}

/-- The children of a composite without ids are its children without ids. -/
theorem children_tree_node (id : ElementId) (type : ElementType) (ps : List Planted) :
    (node id type ps).tree.children = ps.map tree := by
  rw [tree, treesOf_eq_map, Tree.children]

/-- Taking the ids off a composite takes them off the child in the middle and those beside it. -/
theorem tree_node_append (id : ElementId) (type : ElementType) (l : List Planted) (q : Planted)
    (r : List Planted) :
    (node id type (l ++ q :: r)).tree = .node type (l.map tree ++ q.tree :: r.map tree) := by
  simp [tree, treesOf_eq_map]

/-- A child of a tree without its ids is a child of the tree. -/
theorem exists_child_of_getElem? (h : p.tree.children[i]? = some C) :
    ∃ id type l q r, p = node id type (l ++ q :: r) ∧ l.length = i ∧ q.tree = C := by
  cases p with
  | leaf id t => simp [tree, Tree.children] at h
  | node id type ps =>
      rw [children_tree_node, List.getElem?_map, Option.map_eq_some_iff] at h
      obtain ⟨q, hq, rfl⟩ := h
      obtain ⟨hi, rfl⟩ := List.getElem?_eq_some_iff.1 hq
      refine ⟨id, type, ps.take i, ps[i], ps.drop (i + 1), ?_, by simp; omega, rfl⟩
      rw [List.getElem_cons_drop, List.take_append_drop]

/-- **An address is a place**, and putting leaves in at the address is an insertion at the place. -/
theorem exists_place_of_subtreeAt (h : p.tree.subtreeAt (path ++ [i]) = some C) :
    ∃ c cs q, p = plug (c :: cs) q ∧ q.tree = C ∧
      (Place.before (c :: cs)).map Prod.snd = p.tree.leavesBefore (path ++ [i]) ∧
      ∀ xs, (Change.insertion c cs q xs).target.tree =
        p.tree.modifyAt (Tree.insertAll i (xs.map fun x => .leaf x.2)) path := by
  induction path generalizing p with
  | nil =>
      obtain ⟨U, hU, hUC⟩ := Tree.subtreeAt_cons_eq_some_iff.1 h
      obtain rfl : U = C := by simpa [Tree.subtreeAt] using hUC
      obtain ⟨id, type, l, q, r, rfl, rfl, rfl⟩ := exists_child_of_getElem? hU
      refine ⟨⟨id, type, l, r⟩, [], q, rfl, rfl, ?_, fun xs => ?_⟩
      · rw [tree_node_append, List.nil_append, Tree.leavesBefore_node _ (by simp)]
        simp [Place.before, Tree.leavesBefore, ← treesOf_eq_map, leavesOf_treesOf]
      · rw [tree_node_append, Change.target_insertion, Tree.modifyAt, Tree.mapChildren,
          Tree.insertAll_append (by simp)]
        simp [plug, tree, leafs, treesOf_eq_map, Function.comp_def]
  | cons j path ih =>
      obtain ⟨V, hV, hC⟩ := Tree.subtreeAt_cons_eq_some_iff.1 h
      obtain ⟨id, type, l, p', r, rfl, rfl, rfl⟩ := exists_child_of_getElem? hV
      obtain ⟨c, cs, q, rfl, hq, hbefore, hinsert⟩ := ih hC
      refine ⟨c, cs ++ [⟨id, type, l, r⟩], q, ?_, hq, ?_, fun xs => ?_⟩
      · rw [← List.cons_append, plug_append]
        rfl
      · rw [tree_node_append, List.cons_append, Tree.leavesBefore_node _ (by simp), ← hbefore,
          ← List.cons_append, Place.before_append, List.map_append]
        simp [Place.before, ← treesOf_eq_map, leavesOf_treesOf]
      · have hstep := hinsert xs
        rw [Change.target_insertion] at hstep ⊢
        rw [tree_node_append, Tree.modifyAt_node _ (by simp), ← hstep, plug_append, plug, plug,
          tree_node_append]

end Planted

namespace Tree

variable {ts : List Token} {path : List Nat} {i k : Nat} {C : Tree} {c b : Token}

/-- **Reading is local before rules and attributes.** A rule or an attribute starts with the token
whose index is the number of leaves before it. Where a comment and white space are put right before
that token, the tree that is read is the one that was read with two leaves for them put in right
before the rule or the attribute, among the children of its parent. -/
theorem parseFile_insert (hC : (parseFile ts).subtreeAt (path ++ [i]) = some C)
    (hkind : C.type? = some .rule ∨ C.type? = some .attr)
    (hk : ((parseFile ts).leavesBefore (path ++ [i])).length = k)
    (hc : c.isComment = true) (hb : b.isTrivia = true) :
    (∃ t us, C.leaves = t :: us ∧ ts[k]? = some t) ∧
      ∃ T, parseFile (ts.take k ++ c :: b :: ts.drop k) = T ∧
        T = (parseFile ts).modifyAt (insertAll i [leaf c, leaf b]) path ∧
          T.subtreeAt (path ++ [i + 2]) = some C ∧
            (T.leavesBefore (path ++ [i + 2])).length = k + 2 := by
  obtain ⟨p, hp⟩ : ∃ p : Planted, p.tree = parseFile ts := ⟨_, tree_plantedFrom 0 _⟩
  have hread : p.tree.IsRead := by rw [hp, IsRead, leaves_parseFile]
  have hshaped : p.tree.WellShaped := hp ▸ wellShaped_parseFile ts
  rw [← hp] at hC hk ⊢
  obtain ⟨e, es, q, rfl, rfl, hbefore, hinsert⟩ := Planted.exists_place_of_subtreeAt hC
  -- the tokens are those before the place, those at it and those after it
  have hts : (Place.before (e :: es)).map Prod.snd ++
      (q.leaves.map Prod.snd ++ (Place.after (e :: es)).map Prod.snd) = ts := by
    rw [← leaves_parseFile ts, ← hp, Planted.leaves_tree, Planted.leaves_plug]
    simp
  rw [← hbefore] at hk
  obtain ⟨x, xs, hx, -⟩ := Planted.exists_name hshaped hread hkind
  refine ⟨⟨x.2, xs.map Prod.snd, by rw [Planted.leaves_tree, hx, List.map_cons], ?_⟩, _, ?_, rfl,
    subtreeAt_modifyAt_insertAll hC _, ?_⟩
  · rw [← hts, ← hk, List.getElem?_append_right (Nat.le_refl _), hx]
    simp
  · have hnew := Planted.read_insertion (x := (0, c)) (b := (0, b)) hshaped hread hkind hc hb
    rw [IsRead, Planted.leaves_tree, Change.leaves_target, hinsert] at hnew
    rw [← hts, List.take_left' hk, List.drop_left' hk]
    simpa [Change.insertion, Change.front, Change.back, Place.before, Place.after,
      Planted.leavesOf] using hnew
  · have hlength := congrArg List.length (leavesBefore_modifyAt_insertAll hC [leaf c, leaf b])
    rwa [List.length_append, ← hbefore, hk] at hlength

/-- Before the second attribute of a rule's block, which is what the value of the first one ends
at. -/
theorem parseFile_insert_second_attr :
    let ts := tokenize "r ::= a \x7b j = 1 k = 2 \x7d"
    ∃ C, (parseFile ts).subtreeAt ([0, 6] ++ [4]) = some C ∧ C.type? = some .attr ∧
      ((parseFile ts).leavesBefore ([0, 6] ++ [4])).length = 14 ∧
        parseFile (ts.take 14 ++
            ⟨.lineComment, "// noinspection X"⟩ :: ⟨.whitespace, "\n"⟩ :: ts.drop 14) =
          (parseFile ts).modifyAt (insertAll 4
            [leaf ⟨.lineComment, "// noinspection X"⟩, leaf ⟨.whitespace, "\n"⟩]) [0, 6] := by
  intro ts
  have htype : ((parseFile ts).subtreeAt ([0, 6] ++ [4])).bind type? = some .attr := by
    decide +kernel
  obtain ⟨C, hC, hattr⟩ := Option.bind_eq_some_iff.1 htype
  have hk : ((parseFile ts).leavesBefore ([0, 6] ++ [4])).length = 14 := by decide +kernel
  obtain ⟨-, T, hT, hnew, -⟩ := parseFile_insert (c := ⟨.lineComment, "// noinspection X"⟩)
    (b := ⟨.whitespace, "\n"⟩) hC (.inr hattr) hk rfl rfl
  exact ⟨C, hC, hattr, hk, hT.trans hnew⟩

end Tree

end BnfSuppression
