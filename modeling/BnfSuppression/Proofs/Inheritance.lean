import BnfSuppression.Proofs.Ancestry

/-!
# Suppression Is Inherited

A check is suppressed for an element by the start of its document, which is the same for all of its
elements, or by the comments before an element on the way up. The way up from a nested element goes
through the one around it. What is suppressed for an element is then suppressed for all that is
nested in it, at any depth, and what is suppressed further in but not further out is suppressed by a
comment in between.

## Main results

* `Workspace.Standing.isSuppressed_iff_isSuppressedAt`: what suppresses a check, along the way up.
* `Workspace.Standing.isSuppressed_nested_iff`: the answer for a nested element, from the answer for
  one around it.
* `Session.isSuppressed_inherited`: **suppression is inherited downwards**.
-/

namespace BnfSuppression

open Planted (plug Place)

namespace Workspace.Standing

variable {w : Workspace} {d : Document} {p : Planted} {m n : ElementId}

/-- **What suppresses a check, along the way up.** -/
theorem isSuppressed_iff_isSuppressedAt (h : w.Standing d p) (hn : n ∈ p.ids)
    (hk : (w.forest.kind n).suppressible = true) (s : Settings) (check : String) :
    w.isSuppressed s n check = .ok true ↔
      w.forest.isSuppressedAt s .documentStart d.root (s.fileId check) = .ok true ∨
      ∃ a ∈ w.forest.ancestors n, a ≠ d.root ∧
        w.forest.isSuppressedAt s .beforeNode a check = .ok true := by
  obtain ⟨cs, q, rfl, rfl⟩ := Planted.exists_place hn
  rw [h.comprises.stores_at.kind_eq] at hk
  rw [h.isSuppressed_eq s check, h.isSuppressedAt_start s, hk, Bool.true_and, Except.ok.injEq,
    Except.ok.injEq, Bool.or_eq_true, Place.isLed_iff]
  -- the elements on the way up are at the suffixes of the place
  have hat : ∀ es ds, cs = es ++ ds → w.Standing d (plug ds (plug es q)) := by
    rintro es ds rfl
    rwa [← Planted.plug_append]
  refine or_congr_right ⟨?_, ?_⟩
  · rintro ⟨ds, ⟨es, rfl⟩, hds, hl⟩
    refine ⟨(plug es q).id, h.comprises.toHolds.mem_ancestors_place_iff.2 ⟨es, ds, rfl, rfl⟩,
      (hat es ds rfl).id_ne_root hds, ?_⟩
    rw [(hat es ds rfl).isSuppressedAt_before s, hl]
  · rintro ⟨a, ha, hr, hl⟩
    obtain ⟨es, ds, rfl, rfl⟩ := h.comprises.toHolds.mem_ancestors_place_iff.1 ha
    rw [(hat es ds rfl).isSuppressedAt_before s, Except.ok.injEq] at hl
    refine ⟨ds, List.suffix_append es ds, ?_, hl⟩
    rintro rfl
    exact hr (hat es [] rfl).id_eq

/-- **A check is suppressed for a nested element** if it is for an element around that one, or if a
comment before an element between the two suppresses it. -/
theorem isSuppressed_nested_iff (h : w.Standing d p) (hm : m ∈ p.ids) (hn : n ∈ w.forest.below m)
    (hkm : (w.forest.kind m).suppressible = true) (hkn : (w.forest.kind n).suppressible = true)
    (s : Settings) (check : String) :
    w.isSuppressed s n check = .ok true ↔ w.isSuppressed s m check = .ok true ∨
      ∃ a ∈ w.forest.ancestors n, a ∉ w.forest.ancestors m ∧
        w.forest.isSuppressedAt s .beforeNode a check = .ok true := by
  have hholds := h.comprises.toHolds
  have hnp : n ∈ p.ids := by
    obtain ⟨ds, r, rfl, rfl⟩ := Planted.exists_place hm
    rw [hholds.stores_at.below_eq hholds.nodup_at] at hn
    exact Planted.ids_subset_plug ds r hn
  have hmn : m ∈ w.forest.ancestors n := (hholds.mem_ancestors_iff hnp).2 ⟨hm, hn⟩
  have hroot : d.root ∈ w.forest.ancestors m := by
    rw [hholds.mem_ancestors_iff hm, h.below_eq, ← h.id_eq]
    exact ⟨p.id_mem_ids, hm⟩
  rw [h.isSuppressed_iff_isSuppressedAt hnp hkn, h.isSuppressed_iff_isSuppressedAt hm hkm]
  constructor
  · rintro (hstart | ⟨a, ha, hr, hl⟩)
    · exact .inl (.inl hstart)
    · by_cases ham : a ∈ w.forest.ancestors m
      · exact .inl (.inr ⟨a, ham, hr, hl⟩)
      · exact .inr ⟨a, ha, ham, hl⟩
  · rintro ((hstart | ⟨a, ha, hr, hl⟩) | ⟨a, ha, ham, hl⟩)
    · exact .inl hstart
    · exact .inr ⟨a, hholds.ancestors_trans hnp hmn ha, hr, hl⟩
    · exact .inr ⟨a, ha, fun he => ham (he ▸ hroot), hl⟩

end Workspace.Standing

/-- **Suppression is inherited downwards**, in every state that actions and undo lead to, whatever
the settings. What is suppressed for an element is suppressed for every element nested in it, and
nothing else is but for the comments in between. A check is suppressed for the document only if it
is for every rule and every attribute. -/
theorem Session.isSuppressed_inherited {text name : String} {writable : Bool} {w : Workspace}
    {log : Session.Log}
    (h : Session Workspace.Applies (Workspace.empty.open text name writable) w log) {d : Document}
    (hd : w.documents = #[d]) (s : Settings) (check : String) :
    (∀ m ∈ w.forest.below d.root, ∀ n ∈ w.forest.below m,
      (w.forest.kind m).suppressible = true → (w.forest.kind n).suppressible = true →
      (w.isSuppressed s m check = .ok true → w.isSuppressed s n check = .ok true) ∧
      (w.isSuppressed s n check = .ok true → w.isSuppressed s m check = .ok true ∨
        ∃ a ∈ w.forest.ancestors n, a ∉ w.forest.ancestors m ∧
          w.forest.isSuppressedAt s .beforeNode a check = .ok true)) ∧
    (w.isSuppressed s d.root check = .ok true → ∀ n ∈ w.forest.below d.root,
      w.forest.kind n = .rule ∨ w.forest.kind n = .attr →
        w.isSuppressed s n check = .ok true) := by
  obtain ⟨p, hw, -⟩ := h.exists_standing hd
  have hroot : d.root ∈ p.ids := hw.id_eq ▸ p.id_mem_ids
  refine ⟨fun m hm n hn hkm hkn => ?_, fun hsup n hn hk => ?_⟩
  · have hiff := hw.isSuppressed_nested_iff (hw.below_eq ▸ hm) hn hkm hkn s check
    exact ⟨fun hsup => hiff.2 (.inl hsup), hiff.1⟩
  · have hkroot : (w.forest.kind d.root).suppressible = true := by
      obtain ⟨ps, rfl⟩ := hw.root
      rw [← hw.id_eq, hw.comprises.stores.kind_eq]
      rfl
    have hkn : (w.forest.kind n).suppressible = true := by
      rcases hk with hk | hk <;> rw [hk] <;> rfl
    exact (hw.isSuppressed_nested_iff hroot hn hkroot hkn s check).2 (.inl hsup)

/-- An attribute in the block of a rule before which a directive was inserted. -/
theorem Session.isSuppressed_inherited_of_block : ∃ w d log,
    Session Workspace.Applies (Workspace.empty.open "a ::= b { pin=1 }\n" "g" true) w log ∧
      w.documents = #[d] ∧ 1 ∈ w.forest.below d.root ∧ 12 ∈ w.forest.below 1 ∧
      w.forest.kind 1 = .rule ∧ w.forest.kind 12 = .attr ∧
      w.isSuppressed .standard 1 "X" = .ok true ∧ w.isSuppressed .standard 12 "X" = .ok true := by
  let start := Workspace.empty.open "a ::= b { pin=1 }\n" "g" true
  let applied := result (start.apply .standard ⟨"X", .rule, rfl⟩ (some 12)) (by decide +kernel)
  have h : Session Workspace.Applies start applied [(start, applied)] :=
    of_result _ (by decide +kernel)
  obtain ⟨d, p, hw, -⟩ := h.wellShaped
  have hd : applied.documents[0]?.map Document.root = some 0 := by decide +kernel
  have hroot : d.root = 0 := by simpa [hw.documents] using hd
  have hm : 1 ∈ applied.forest.below d.root := hroot ▸ (by decide +kernel)
  have hn : 12 ∈ applied.forest.below 1 := by decide +kernel
  have hkm : applied.forest.kind 1 = .rule := by decide +kernel
  have hkn : applied.forest.kind 12 = .attr := by decide +kernel
  have hsup : applied.isSuppressed .standard 1 "X" = .ok true := by decide +kernel
  have hinherited := (h.isSuppressed_inherited hw.documents .standard "X").1 1 hm 12 hn
    (by rw [hkm]; rfl) (by rw [hkn]; rfl)
  exact ⟨applied, d, _, h, hw.documents, hm, hn, hkm, hkn, hsup, hinherited.1 hsup⟩

end BnfSuppression
