import BnfSuppression.Proofs.Standing

/-!
# Reading Loses Nothing

A text is cut into tokens that lie one behind the other from its start to its end, and the tree that
is read from it has just these tokens as its leaves. Nothing is assumed of the text: it may leave
quoted texts, comments, braces, brackets and parentheses open.

`Tiles` says that tokens with offsets lie one behind the other and spell a stretch of characters.

## Main results

* `tiles_located`: **the tokens of a text tile it**.
* `Tiles.slice`: each token is found in the text at its offset.
* `Workspace.open_lossless`: the leaves of a document that was opened are the tokens of its text.
-/

namespace BnfSuppression

/-- Tokens with their offsets tile characters from an offset on: the first token starts there, each
holds at least one character, the next one starts where it ends, and the last one ends with the
characters. -/
inductive Tiles : Nat → List Char → List (Nat × Token) → Prop
  | nil {offset : Nat} : Tiles offset [] []
  | cons {offset : Nat} {t : Token} {cs : List Char} {ts : List (Nat × Token)} :
    t.text ≠ "" → Tiles (offset + t.text.length) cs ts →
    Tiles offset (t.text.toList ++ cs) ((offset, t) :: ts)

namespace Tiles

variable {offset : Nat} {cs : List Char} {ts : List (Nat × Token)}

/-- Each token is found among the characters at its offset. -/
theorem slice (h : Tiles offset cs ts) {p : Nat × Token} (hp : p ∈ ts) :
    offset ≤ p.1 ∧ (cs.drop (p.1 - offset)).take p.2.text.length = p.2.text.toList := by
  induction h with
  | nil => simp at hp
  | @cons offset t cs ts _ _ ih =>
      rcases List.mem_cons.1 hp with rfl | hp
      · refine ⟨Nat.le_refl _, ?_⟩
        rw [Nat.sub_self, List.drop_zero, List.take_left' String.length_toList]
      · obtain ⟨hle, heq⟩ := ih hp
        refine ⟨by omega, ?_⟩
        have hskip : p.1 - offset = t.text.toList.length + (p.1 - (offset + t.text.length)) := by
          simp only [String.length_toList]
          omega
        rw [hskip, ← List.drop_drop, List.drop_left, heq]

end Tiles

/-- No token is empty. -/
theorem text_ne_empty_of_mem_tokens {cs : List Char} {t : Token} (h : t ∈ tokens cs) :
    t.text ≠ "" := by
  fun_induction tokens cs with
  | case1 => simp at h
  | case2 c cs ih =>
      rcases List.mem_cons.1 h with rfl | h
      · intro he
        have := congrArg String.toList he
        simp at this
      · exact ih h

/-- Tokens that are not empty tile their texts. -/
theorem tiles_locate {ts : List Token} (h : ∀ t ∈ ts, t.text ≠ "") (offset : Nat) :
    Tiles offset (ts.flatMap (·.text.toList)) (locate offset ts) := by
  induction ts generalizing offset with
  | nil => exact .nil
  | cons t ts ih =>
      rw [List.flatMap_cons]
      exact .cons (h t (by simp)) (ih (fun u hu => h u (List.mem_cons_of_mem _ hu)) _)

/-- **The tokens of a text tile it.** -/
theorem tiles_located (text : String) : Tiles 0 text.toList (located text) := by
  have h : ∀ t ∈ tokenize text, t.text ≠ "" := fun t ht => text_ne_empty_of_mem_tokens ht
  rw [← flatMap_tokenize text]
  exact tiles_locate h 0

/-- Giving tokens their offsets changes none of them. -/
theorem map_snd_locate (offset : Nat) (ts : List Token) : (locate offset ts).map Prod.snd = ts := by
  induction ts generalizing offset with
  | nil => rfl
  | cons t ts ih => rw [locate, List.map_cons, ih]

namespace Workspace

/-- The leaves of a standing document have the tokens of its tree, one for one. -/
theorem Standing.map_token?_leaves {w : Workspace} {d : Document} {p : Planted}
    (h : w.Standing d p) :
    (d.leaves w.forest).map w.forest.token? = p.tree.leaves.map some := by
  rw [h.leaves_eq, Planted.leaves_tree, List.map_map, List.map_map]
  exact List.map_congr_left fun x hx => h.comprises.stores.token?_of_mem hx

/-- **Reading loses nothing.** Whatever the text, its tokens tile it from offset zero on, so that
each is what the text has at its offset; the leaves of the tree that is read are the tokens, in their
order; and the document that is opened has them as its leaves, each once. -/
theorem open_lossless (text name : String) (writable : Bool) :
    Tiles 0 text.toList (located text) ∧
      (∀ p ∈ located text, (text.toList.drop p.1).take p.2.text.length = p.2.text.toList) ∧
      (Tree.parse text).leaves = (located text).map Prod.snd ∧
      ∃ d, (empty.open text name writable).documents = #[d] ∧
        (d.leaves (empty.open text name writable).forest).Nodup ∧
          (d.leaves (empty.open text name writable).forest).map
              (empty.open text name writable).forest.token? =
            (located text).map fun p => some p.2 := by
  have hsnd : (located text).map Prod.snd = tokenize text := map_snd_locate 0 _
  have hparse : (Tree.parse text).leaves = tokenize text := Tree.leaves_parseFile _
  have hw := standing_open text name writable
  refine ⟨tiles_located text, fun p hp => ((tiles_located text).slice hp).2,
    hparse.trans hsnd.symm, _, hw.documents, ?_, ?_⟩
  · rw [hw.leaves_eq]
    exact (Planted.leaves_sublist _).nodup hw.comprises.nodup
  · rw [hw.map_token?_leaves, Tree.tree_plantedFrom, hparse, ← hsnd, List.map_map]
    rfl

end Workspace

end BnfSuppression
