import BnfSuppression.Proofs.Integrity
import BnfSuppression.Proofs.Shape.Kept
import BnfSuppression.Suppression.Listing
import Mathlib.Data.List.Flatten
import Mathlib.Data.List.Pairwise

/-!
# Listings Show Every Element Once

A listing is put together from three walks: over the blocks right below the root, over the rules,
and over the attributes in every rule. In a well-shaped tree, the rules stand right below the root,
and an attribute is in exactly one child of the root, which is a block or a rule. What a listing
shows of blocks and what it shows of rules are then both read off the children of the root, one
child after the other, and have nothing in common.

## Main definitions

* `Document.ruled`: the rules, each with its attributes.

## Main results

* `Workspace.Standing.mem_children_of_rule`, `Workspace.Standing.child_cases`: what stands right
  below the root.
* `Workspace.Standing.attr_cases`: where an attribute is listed.
* `Session.suppressible_listed_once`: **a listing shows the root, all rules and all attributes, each
  once**.
-/

namespace BnfSuppression

open BnfSuppression.Tree (mayHold)
open Planted (plug)

/-- The rules of a document, each followed by the attributes in it. -/
def Document.ruled (d : Document) (f : Forest) : List ElementId :=
  (d.rules f).flatMap fun r => r :: f.composites .attr r

/-- The suppressible elements are the root, the attributes outside rules, and the rules with their
attributes. -/
theorem Document.suppressible_eq (d : Document) (f : Forest) :
    d.suppressible f = d.root :: (d.globalAttrs f ++ d.ruled f) := rfl

namespace Forest

variable {f : Forest} {root c c' i : ElementId} {type : ElementType}

/-- Of the types that can be suppressed, each has a kind of its own. -/
theorem kind_eq_iff (f : Forest) (i : ElementId) (type : ElementType)
    (hs : type.kind.suppressible = true) : f.kind i = type.kind ↔ f.type? i = some type := by
  rw [kind]
  rcases f.type? i with _ | other
  · cases type <;> simp_all [ElementType.kind, NodeKind.suppressible]
  · cases type <;> cases other <;> simp_all [ElementType.kind, NodeKind.suppressible]

/-- The elements of the kind of rules are those of the type of rules. -/
theorem kind_eq_rule_iff : f.kind i = .rule ↔ f.type? i = some .rule := f.kind_eq_iff i .rule rfl

/-- The elements of the kind of attributes are those of the type of attributes. -/
theorem kind_eq_attr_iff : f.kind i = .attr ↔ f.type? i = some .attr := f.kind_eq_iff i .attr rfl

/-- A forest that stores a tree gives its root the type that the tree has. -/
theorem Stores.type?_eq {outer? : Option ElementId} {p : Planted}
    (h : f.Stores outer? p) : f.type? p.id = p.tree.type? := by
  cases p with
  | leaf id t =>
      simp only [Stores] at h
      simp [type?, Planted.id, Planted.tree, Tree.type?, h]
  | node id type ps => simp [Planted.id, Planted.tree, Tree.type?, h.type?_node]

/-- The composites of a type below an element are the elements there that have the type. -/
theorem mem_composites : i ∈ f.composites type c ↔ i ∈ f.below c ∧ f.type? i = some type := by
  simp [composites]

/-- The composites of a type below an element are listed in the order of the elements there. -/
theorem composites_sublist (f : Forest) (type : ElementType) (c : ElementId) :
    (f.composites type c).Sublist (f.below c) :=
  List.filter_sublist

/-- An element is among those below it, which start with the element itself. -/
theorem mem_below_self (f : Forest) (i : ElementId) : i ∈ f.below i := by
  rw [below]
  cases f.size <;> simp [belowUpTo]

namespace Consistent

variable (h : f.Consistent root)
include h

/-- The elements below the root are the root and those below its children, child by child. -/
theorem below_root : f.below root = root :: (f.children root).flatMap f.below :=
  h.below_eq root (f.mem_below_self root)

/-- An element below the root is the root or below one of the root's children. -/
theorem exists_child (hi : i ∈ f.below root) (hr : i ≠ root) :
    ∃ c ∈ f.children root, i ∈ f.below c := by
  rw [h.below_root] at hi
  exact List.mem_flatMap.1 ((List.mem_cons.1 hi).resolve_left hr)

/-- Two children of the root have nothing in common. -/
theorem child_unique (hc : c ∈ f.children root) (hc' : c' ∈ f.children root) (hi : i ∈ f.below c)
    (hi' : i ∈ f.below c') : c = c' := by
  have hn := h.once
  rw [h.below_root, List.nodup_cons, List.nodup_flatMap] at hn
  have hsymm : Std.Symm (Function.onFun List.Disjoint f.below) := ⟨fun _ _ hd _ hi hj => hd hj hi⟩
  by_contra hne
  exact hn.2.2.forall hc hc' hne hi hi'

/-- The children of the root stand in the order of the text, and what is read off some of them
does, too. -/
theorem flatMap_sublist (g : ElementId → List ElementId) (P : ElementId → Bool)
    (hg : ∀ c ∈ f.children root, P c = true → (g c).Sublist (f.below c)) :
    (((f.children root).filter P).flatMap g).Sublist (f.below root) := by
  have hbelow : (((f.children root).filter P).flatMap g).Sublist
      (((f.children root).filter P).flatMap f.below) :=
    .flatMap_right _ fun c hc => hg c (List.mem_filter.1 hc).1 (List.mem_filter.1 hc).2
  rw [h.below_root]
  exact (hbelow.trans (List.filter_sublist.flatMap f.below)).cons root

/-- The children of the root are listed in the order of the elements below it. -/
theorem children_sublist : (f.children root).Sublist (f.below root) := by
  have hsub := h.flatMap_sublist (fun c => [c]) (fun _ => true) fun c _ _ =>
    List.singleton_sublist.2 (f.mem_below_self c)
  simpa using hsub

/-- An element of another type comes before what it holds of a type. -/
theorem cons_composites_sublist (hc : c ∈ f.below root) (ht : f.type? c ≠ some type) :
    (c :: f.composites type c).Sublist (f.below c) := by
  rw [composites, h.below_eq c hc, List.filter_cons_of_neg (by simpa using ht)]
  exact List.filter_sublist.cons_cons c

end Consistent

end Forest

namespace Workspace.Standing

variable {w : Workspace} {d : Document} {p : Planted} {a c i r : ElementId}

/-- A workspace of one document is consistent at its root. -/
theorem consistent (h : w.Standing d p) : w.forest.Consistent d.root :=
  h.id_eq ▸ h.comprises.consistent

/-- The root of the only document is a file. -/
theorem type?_root (h : w.Standing d p) : w.forest.type? d.root = some .file := by
  obtain ⟨ps, rfl⟩ := h.root
  exact h.comprises.stores.type?_node

/-- The attributes outside rules are those below the lists of attributes that the file itself
holds. -/
theorem mem_globalAttrs_iff {f : Forest} : a ∈ d.globalAttrs f ↔
    ∃ c ∈ f.children d.root, f.type? c = some .attrs ∧
      a ∈ f.below c ∧ f.type? a = some .attr := by
  simp [Document.globalAttrs, Forest.mem_composites, and_assoc]

/-- The attributes outside rules are listed in the order of the text. -/
theorem globalAttrs_sublist (h : w.Standing d p) :
    (d.globalAttrs w.forest).Sublist (w.forest.below d.root) :=
  h.consistent.flatMap_sublist _ _ fun c _ _ => w.forest.composites_sublist .attr c

variable (h : w.Standing d p) (hs : p.tree.WellShaped)
include h hs

/-! ### What stands right below the root -/

/-- **Every rule stands right below the root.** -/
theorem mem_children_of_rule (hi : i ∈ w.forest.below d.root)
    (ht : w.forest.type? i = some .rule) : i ∈ w.forest.children d.root := by
  have hr : i ≠ d.root := by
    rintro rfl
    simp [h.type?_root] at ht
  obtain ⟨c, cs, q, rfl, rfl⟩ := h.exists_crumb (h.below_eq ▸ hi) hr
  have hholds := h.comprises.toHolds
  rw [hholds.stores_at.type?_eq] at ht
  obtain ⟨-, rfl⟩ := Planted.parent_of_rule hs ht
  rw [← h.id_eq]
  exact hholds.children_eq ▸ List.mem_append_right _ (List.mem_cons_self ..)

/-- **What stands right below the root** is a rule, a block, or a leaf. -/
theorem child_cases (hc : c ∈ w.forest.children d.root) :
    w.forest.type? c = some .rule ∨ w.forest.type? c = some .attrs ∨
      w.forest.type? c = none ∧ w.forest.below c = [c] := by
  obtain ⟨ps, rfl⟩ := h.root
  have hholds := h.comprises.toHolds
  rw [hholds.stores.children_node] at hc
  obtain ⟨q, hq, rfl⟩ := List.mem_map.1 hc
  obtain ⟨l, r, rfl⟩ := List.append_of_mem hq
  -- the child is at the place between its siblings
  have hat : w.forest.Holds (plug [⟨d.root, .file, l, r⟩] q) := hholds
  have hsat : (plug [⟨d.root, .file, l, r⟩] q).tree.WellShaped := hs
  rw [hat.stores_at.type?_eq, hat.stores_at.below_eq hat.nodup_at]
  cases q with
  | leaf id t => exact .inr (.inr ⟨rfl, rfl⟩)
  | node id type qs =>
      have hm : mayHold .file type = true := Planted.mayHold_at hsat rfl
      cases type <;> simp [mayHold, Planted.tree, Tree.type?] at hm ⊢

/-- The rules are those of the children of the root that are rules, in their order. -/
theorem rules_eq : d.rules w.forest =
    (w.forest.children d.root).filter fun c => w.forest.type? c == some .rule := by
  have hsub : ((w.forest.children d.root).filter fun c => w.forest.type? c == some .rule).Sublist
      (d.rules w.forest) := h.consistent.children_sublist.filter _
  have hn : (d.rules w.forest).Nodup := (w.forest.composites_sublist _ _).nodup h.consistent.once
  refine (hsub.eq_of_length_le (hn.subperm fun r hr => ?_).length_le).symm
  obtain ⟨hb, ht⟩ := Forest.mem_composites.1 hr
  exact List.mem_filter.2 ⟨h.mem_children_of_rule hs hb ht, beq_iff_eq.2 ht⟩

/-- The rules of a document are the children of its root that are rules. -/
theorem mem_rules_iff : r ∈ d.rules w.forest ↔
    r ∈ w.forest.children d.root ∧ w.forest.type? r = some .rule := by
  rw [h.rules_eq hs, List.mem_filter, beq_iff_eq]

/-! ### Where elements are listed -/

/-- What is listed of a rule stands as the rule has it. -/
theorem ruled_sublist : (d.ruled w.forest).Sublist (w.forest.below d.root) := by
  rw [Document.ruled, h.rules_eq hs]
  refine h.consistent.flatMap_sublist _ _ fun c hc ht => ?_
  refine h.consistent.cons_composites_sublist (h.consistent.children_sublist.subset hc) ?_
  simp [beq_iff_eq.1 ht]

/-- **Where an attribute is listed**: among the global ones if no rule holds it, and else under the
only rule that does. -/
theorem attr_cases (ha : a ∈ w.forest.below d.root) (ht : w.forest.type? a = some .attr) :
    (a ∈ d.globalAttrs w.forest ∧ ∀ r ∈ d.rules w.forest, a ∉ w.forest.below r) ∨
      a ∉ d.globalAttrs w.forest ∧ ∃ r ∈ d.rules w.forest, a ∈ w.forest.composites .attr r ∧
        ∀ r' ∈ d.rules w.forest, a ∈ w.forest.below r' → r' = r := by
  have hr : a ≠ d.root := by
    rintro rfl
    simp [h.type?_root] at ht
  obtain ⟨c, hc, hac⟩ := h.consistent.exists_child ha hr
  -- what else holds it is the same child of the root
  have honly : ∀ c' ∈ w.forest.children d.root, a ∈ w.forest.below c' → c' = c :=
    fun c' hc' hac' => h.consistent.child_unique hc' hc hac' hac
  simp only [h.mem_rules_iff hs, mem_globalAttrs_iff, Forest.mem_composites]
  rcases h.child_cases hs hc with htc | htc | ⟨htc, hleaf⟩
  · refine .inr ⟨?_, c, ⟨hc, htc⟩, ⟨hac, ht⟩, fun r hr => honly r hr.1⟩
    rintro ⟨c', hc', htc', hac', -⟩
    obtain rfl := honly c' hc' hac'
    simp [htc] at htc'
  · refine .inl ⟨⟨c, hc, htc, hac, ht⟩, ?_⟩
    rintro r ⟨hr, htr⟩ har
    obtain rfl := honly r hr har
    simp [htc] at htr
  · rw [hleaf, List.mem_singleton] at hac
    simp [← hac, ht] at htc

/-- What is listed are all rules and attributes. -/
theorem mem_listed_iff : i ∈ d.globalAttrs w.forest ++ d.ruled w.forest ↔
    i ∈ w.forest.below d.root ∧ (w.forest.kind i = .rule ∨ w.forest.kind i = .attr) := by
  rw [List.mem_append, Forest.kind_eq_rule_iff, Forest.kind_eq_attr_iff]
  constructor
  · rintro (hg | hr)
    · obtain ⟨c, -, -, -, ht⟩ := mem_globalAttrs_iff.1 hg
      exact ⟨h.globalAttrs_sublist.subset hg, .inr ht⟩
    · refine ⟨(h.ruled_sublist hs).subset hr, ?_⟩
      obtain ⟨r, hr, hi⟩ := List.mem_flatMap.1 hr
      rcases List.mem_cons.1 hi with rfl | hi
      · exact .inl ((h.mem_rules_iff hs).1 hr).2
      · exact .inr (Forest.mem_composites.1 hi).2
  · rintro ⟨hb, ht | ht⟩
    · have hr : i ∈ d.rules w.forest := Forest.mem_composites.2 ⟨hb, ht⟩
      exact .inr (List.mem_flatMap.2 ⟨i, hr, List.mem_cons_self ..⟩)
    · rcases h.attr_cases hs hb ht with ⟨hg, -⟩ | ⟨-, r, hr, hi, -⟩
      · exact .inl hg
      · exact .inr (List.mem_flatMap.2 ⟨r, hr, List.mem_cons_of_mem r hi⟩)

/-- Nothing is listed twice. -/
theorem nodup_suppressible : (d.suppressible w.forest).Nodup := by
  have hc := h.consistent
  rw [Document.suppressible_eq, List.nodup_cons, List.nodup_append]
  refine ⟨fun hroot => ?_, h.globalAttrs_sublist.nodup hc.once, (h.ruled_sublist hs).nodup hc.once,
    ?_⟩
  · have hk := ((h.mem_listed_iff hs).1 hroot).2
    simp [Forest.kind, h.type?_root, ElementType.kind] at hk
  · rintro a hg b hr rfl
    obtain ⟨c, -, -, -, ht⟩ := mem_globalAttrs_iff.1 hg
    -- an attribute is listed below a rule that holds it, a rule is no attribute
    obtain ⟨r, hr, hi⟩ := List.mem_flatMap.1 hr
    rcases List.mem_cons.1 hi with rfl | hi
    · simp [((h.mem_rules_iff hs).1 hr).2] at ht
    · rcases h.attr_cases hs (h.globalAttrs_sublist.subset hg) ht with ⟨-, hnone⟩ | ⟨hng, -⟩
      · exact hnone r hr (Forest.mem_composites.1 hi).1
      · exact hng hg

end Workspace.Standing

/-- **A listing shows the root, all rules and all attributes, each once**, and nothing else, in
every state that actions and undo lead to. After the root come the attributes that no rule holds,
then the rules, each with the attributes in it; an attribute is listed in one of these places, and
in each the elements stand in the order of the text. -/
theorem Session.suppressible_listed_once {text name : String} {writable : Bool} {w : Workspace}
    {log : Session.Log}
    (h : Session Workspace.Applies (Workspace.empty.open text name writable) w log) {d : Document}
    (hd : w.documents = #[d]) :
    d.suppressible w.forest = d.root :: (d.globalAttrs w.forest ++ d.ruled w.forest) ∧
    (d.suppressible w.forest).Nodup ∧
    (∀ i, i ∈ d.globalAttrs w.forest ++ d.ruled w.forest ↔
      i ∈ w.forest.below d.root ∧ (w.forest.kind i = .rule ∨ w.forest.kind i = .attr)) ∧
    (∀ a ∈ w.forest.below d.root, w.forest.kind a = .attr →
      (a ∈ d.globalAttrs w.forest ∧ ∀ r ∈ d.rules w.forest, a ∉ w.forest.below r) ∨
        a ∉ d.globalAttrs w.forest ∧ ∃ r ∈ d.rules w.forest, a ∈ w.forest.composites .attr r ∧
          ∀ r' ∈ d.rules w.forest, a ∈ w.forest.below r' → r' = r) ∧
    (d.globalAttrs w.forest).Sublist (w.forest.below d.root) ∧
    (d.ruled w.forest).Sublist (w.forest.below d.root) := by
  obtain ⟨p, hw, hs⟩ := h.exists_standing hd
  exact ⟨d.suppressible_eq w.forest, hw.nodup_suppressible hs, fun _ => hw.mem_listed_iff hs,
    fun a ha hk => hw.attr_cases hs ha (Forest.kind_eq_attr_iff.1 hk), hw.globalAttrs_sublist,
    hw.ruled_sublist hs⟩

/-- The attribute of a block that is never closed is listed before the rule above it, also once a
directive was inserted in the block. -/
theorem Session.suppressible_listed_once_of_unclosed : ∃ w d log,
    Session Workspace.Applies (Workspace.empty.open "a::=b\x7bp=1\x7d\x7bg=2" "g" true) w log ∧
      w.documents = #[d] ∧ d.suppressible w.forest = [0, 16, 1, 8] ∧
      d.globalAttrs w.forest = [16] ∧ d.rules w.forest = [1] ∧ (d.suppressible w.forest).Nodup ∧
      16 ∉ w.forest.below 1 := by
  let start := Workspace.empty.open "a::=b\x7bp=1\x7d\x7bg=2" "g" true
  let applied := result (start.apply .standard ⟨"X", .attr, rfl⟩ (some 16)) (by decide +kernel)
  have h : Session Workspace.Applies start applied [(start, applied)] :=
    of_result _ (by decide +kernel)
  obtain ⟨d, p, hw, -⟩ := h.wellShaped
  have hlisted : applied.documents[0]?.map (fun d => (d.suppressible applied.forest,
      d.globalAttrs applied.forest, d.rules applied.forest)) = some ([0, 16, 1, 8], [16], [1]) := by
    decide +kernel
  obtain ⟨hall, hglobal, hrules⟩ : d.suppressible applied.forest = [0, 16, 1, 8] ∧
      d.globalAttrs applied.forest = [16] ∧ d.rules applied.forest = [1] := by
    simpa [hw.documents] using hlisted
  obtain ⟨-, hnodup, -, hattr, -⟩ := h.suppressible_listed_once hw.documents
  have hbelow : 16 ∈ applied.forest.below d.root :=
    hw.globalAttrs_sublist.subset (hglobal ▸ List.mem_singleton_self 16)
  have hk : applied.forest.kind 16 = .attr := by decide +kernel
  refine ⟨applied, d, _, h, hw.documents, hall, hglobal, hrules, hnodup, ?_⟩
  rcases hattr 16 hbelow hk with ⟨-, hnone⟩ | ⟨hng, -⟩
  · exact hnone 1 (hrules ▸ List.mem_singleton_self 1)
  · exact absurd (hglobal ▸ List.mem_singleton_self 16) hng

end BnfSuppression
