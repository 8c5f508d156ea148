import BnfSuppression.Proofs.Atomic
import BnfSuppression.Proofs.Commuting
import BnfSuppression.Settings.Layer

/-!
# Which Ids Are Read Back

An action writes the id that it is given, whatever the id is. All that is asked is that the comment
is one line: an id or a verb with a line end is refused. Of the others, only what the grammar of
directives takes for an id is read back. Any other text makes a comment that is no directive, or one
that lists other ids, and the check is then suppressed only if the whole document, or every check,
is.

## Main definitions

* `Action.IsOneLine`: what the action writes stays on one line.
* `Workspace.IsSuppressedAnyway`: a check is suppressed for a reason other than its id.

## Main results

* `Workspace.Editable.apply_eq_ok_iff`: an action succeeds exactly if it stays on one line.
* `Workspace.Takes.isSuppressed_of_isId`: an id that was written is read back.
* `Workspace.Standing.isSuppressed_iff_anyway`: what is no id is suppressed only anyway.
* `Workspace.Takes.isSuppressed_iff_isId`: what is suppressed after an action.
* `Session.apply_readBack_iff`: **when an action fails, and when it succeeds in vain**.
-/

namespace BnfSuppression

open Planted (plug Place Change)
open Directive (IsId IsOneLine)

/-! ### Settled settings -/

/-- Without a line feed at the end, such a value is an id. -/
theorem isId_of_isToken {text : String} (h : isToken text = true) (ho : IsOneLine text) :
    IsId text := by
  have hlast : text.toList.getLast? ≠ some '\n' := fun he => by
    have := ho _ (List.mem_of_getLast? he)
    simp [Lexer.endsLine] at this
  simp only [isToken, if_neg hlast, Bool.and_eq_true, List.all_eq_true] at h
  refine ⟨fun he => ?_, h.2⟩
  simp [he] at h

/-- What an action writes stays on one line. -/
def Action.IsOneLine (a : Action) (s : Settings) : Prop :=
  Directive.IsOneLine s.verb ∧ Directive.IsOneLine (a.id s)

instance (a : Action) (s : Settings) : Decidable (a.IsOneLine s) :=
  inferInstanceAs (Decidable (_ ∧ _))

/-- For a check that is an id, an id is written. -/
theorem Action.IsOneLine.isId_id {l : Layer} {a : Action} (h : a.IsOneLine l.freeze.settings)
    (hc : IsId a.check) : IsId (a.id l.freeze.settings) := by
  refine a.isId_id (fun ha => ?_) hc.2 (.inl hc.1)
  have hid : a.id l.freeze.settings = a.check ++ l.freeze.settings.fileSuffix := if_pos ha
  exact isId_of_isToken (l.accepts_freeze .fileSuffix) fun c hcs => h.2 c (by simp [hid, hcs])

namespace Workspace

variable {w v : Workspace} {d d' : Document} {c : Change} {s : Settings} {a : Action}
  {p p' q : Planted} {cs : Place} {n k : ElementId} {element? : Option ElementId} {check : String}
  {original : List Token}

/-! ### Line comments of a document -/

/-- Each line comment among some leaves is read as it is. -/
def AreComments (xs : List (ElementId × Token)) : Prop :=
  ∀ x ∈ xs, x.2.type = .lineComment → IsLineComment x.2.text x.2

/-- An edit that inserts such comments keeps them. -/
theorem Makes.areComments (h : w.Makes d c v) (hc : AreComments c.source.leaves)
    (hi : AreComments c.inserted) : ∃ d' p', v.Standing d' p' ∧ AreComments p'.leaves := by
  refine ⟨_, _, h.standing, fun x hx => ?_⟩
  rw [c.leaves_target] at hx
  simp only [List.mem_append] at hx
  rcases hx with (hx | hx) | hx
  · exact hc x (by simp [c.leaves_source, hx])
  · exact hi x hx
  · exact hc x (by simp [c.leaves_source, hx])

/-- Whatever an action does before a container, the line comments of the document are read as they
are. -/
theorem Takes.areComments (h : w.Takes d s a cs q v) (hw : w.Standing d (plug cs q))
    (hl : AreComments (plug cs q).leaves) : ∃ d' p', v.Standing d' p' ∧ AreComments p'.leaves := by
  have hcomment : ∀ {text t} {i : ElementId}, IsLineComment text t → AreComments [(i, t)] := by
    intro text t i ht x hx _
    rw [List.mem_singleton.1 hx, ht.text_eq]
    exact ht
  have hline : ∀ {text t u} {i j : ElementId}, IsLineComment text t → u.type = .whitespace →
      AreComments [(i, t), (j, u)] := by
    intro text t u i j ht hu x hx hxt
    rcases List.mem_cons.1 hx with rfl | hx
    · exact hcomment (i := i) ht _ (by simp) hxt
    · rw [List.mem_singleton.1 hx, hu] at hxt
      simp at hxt
  cases h with
  | listed => exact ⟨d, _, hw, hl⟩
  | merged _ _ _ ht hplug hm => exact hm.areComments (by simpa [← hplug] using hl) (hcomment ht)
  | inserted _ _ ht hcs hm =>
      subst hcs
      exact hm.areComments (by simpa using hl) (hline ht rfl)
  | opened _ ht hplug hm => exact hm.areComments (by simpa [← hplug] using hl) (hline ht rfl)

/-- A workspace has one list of leaves. -/
theorem Standing.leaves_unique (h : w.Standing d p) (h' : w.Standing d' p') :
    p'.leaves = p.leaves := by
  obtain rfl : d = d' := by simpa using h.documents.symm.trans h'.documents
  rw [← h'.spelled_eq, h.spelled_eq]

/-! ### When an action succeeds -/

/-- A comment that was written has the verb and the id on its line. -/
theorem Takes.isOneLine (h : w.Takes d s a cs q v) (hp : (plug cs q).Faithful original)
    (hl : AreComments (plug cs q).leaves) (hmarker : s.marker = "//") : a.IsOneLine s := by
  have hcomment : ∀ {t}, IsLineComment (s.comment (a.id s)) t → a.IsOneLine s := by
    intro t ht
    have hline := ht.isOneLine
    rw [Settings.comment, hmarker] at hline
    exact ⟨hline.of_render.1, hline.of_render.2 _ (by simp)⟩
  cases h with
  | @listed x dir _ hx hi =>
      have hdir := (Leaves.of_directive?_eq_some hx).2
      obtain ⟨hleaf, htype⟩ := lineComment_of_directive? hp.written hx
      have hline := (hl x hleaf htype).isOneLine
      exact ⟨hline.of_parse? hdir, ((Directive.of_parse?_eq_some hdir).2.2.1 _ hi).2.isOneLine⟩
  | @merged x dir _ _ _ _ _ hx _ ht _ _ =>
      have hverb := (Directive.of_parse?_eq_some (Leaves.of_directive?_eq_some hx).2).1
      have hline := ht.isOneLine
      rw [hmarker] at hline
      obtain ⟨hdirverb, hids⟩ := hline.of_render
      rw [Directive.verb_withId, hverb] at hdirverb
      exact ⟨hdirverb, hids _ (Directive.mem_ids_withId _ _)⟩
  | inserted _ _ ht _ _ => exact hcomment ht
  | opened _ ht _ _ => exact hcomment ht

/-- **An action succeeds exactly if what it writes stays on one line.** -/
theorem Editable.apply_eq_ok_iff (h : w.Editable original d p) (hl : AreComments p.leaves)
    (hmarker : s.marker = "//") (hk : a.container? w.forest element? = some k) :
    (∃ v, w.apply s a element? = .ok v) ↔ a.IsOneLine s := by
  constructor
  · rintro ⟨v, hv⟩
    rcases h.takes_of_apply hv with ⟨hnone, -⟩ | ⟨cs, q, rfl, -, -, ht⟩
    · simp [hnone] at hk
    · exact ht.isOneLine h.faithful hl hmarker
  · rintro ⟨hverb, hid⟩
    obtain ⟨cs, q, rfl, rfl, hq⟩ := h.exists_container hk
    obtain ⟨v, hv, -⟩ := h.exists_takes h.writable hk hq hmarker hverb hid
    exact ⟨v, hv⟩

/-! ### What is suppressed afterwards -/

/-- An action keeps the ways up from elements that can be suppressed. -/
theorem Takes.ancestors_eq (h : w.Takes d s a cs q v) (hw : w.Standing d (plug cs q))
    (hn : (w.forest.kind n).suppressible = true) : v.forest.ancestors n = w.forest.ancestors n := by
  have hmakes : ∀ {c}, w.Makes d c v → c.source = plug cs q →
      v.forest.ancestors n = w.forest.ancestors n := by
    intro c hm hc
    rw [← hc] at hw
    exact hm.ancestors_eq hw (hw.mem_of_suppressible hn) (hw.notMem_removed hn)
  cases h with
  | listed => rfl
  | merged _ _ _ _ hplug hm => exact hmakes hm (by simp [hplug])
  | inserted _ _ _ hcs hm => exact hmakes hm (by simp [hcs])
  | opened _ _ hplug hm => exact hmakes hm (by simp [hplug])

/-- A check is suppressed for the whole document of an element, or every check is suppressed for the
element. -/
def IsSuppressedAnyway (w : Workspace) (s : Settings) (n : ElementId) (check : String) : Prop :=
  (∃ root, w.rootOf? n = some root ∧ w.isSuppressed s root check = .ok true) ∨
    ∀ other, w.isSuppressed s n other = .ok true

/-- What is suppressed for a whole document. -/
theorem Standing.isSuppressed_root (h : w.Standing d p) (s : Settings) (check : String) :
    w.isSuppressed s d.root check =
      .ok (Leaves.lists s (s.fileId check) (Leaves.openingComments p.leaves)) := by
  obtain ⟨ps, rfl⟩ := h.root
  have hplug : w.Standing d (plug [] (.node d.root .file ps)) := h
  have hat := hplug.isSuppressed_eq (s := s) check
  simpa [Planted.tree, Tree.kind, ElementType.kind, NodeKind.suppressible, Planted.id, plug,
    Place.isLed] using hat

/-- The root of a suppressible element is the root of the only document. -/
theorem Standing.rootOf?_eq (h : w.Standing d p) (hn : (w.forest.kind n).suppressible = true) :
    w.rootOf? n = some d.root := by
  simp [rootOf?, h.ownerOf?_eq, h.mem_of_suppressible hn, h.documents]

/-- **What is no id is suppressed only anyway**: no directive lists it. -/
theorem Standing.isSuppressed_iff_anyway (h : w.Standing d p) (hp : p.tree.WellShaped)
    (hn : (w.forest.kind n).suppressible = true) (hid : ¬ IsId check) :
    w.isSuppressed s n check = .ok true ↔ w.IsSuppressedAnyway s n check := by
  constructor
  · intro hc
    rcases (h.isSuppressed_eq_true_iff hp hn s check).1 hc with hopening | ⟨a, ha, hr, hlists⟩
    · exact .inl ⟨d.root, h.rootOf?_eq hn, by rw [h.isSuppressed_root, hopening]⟩
    · refine .inr fun other => (h.isSuppressed_eq_true_iff hp hn s other).2 (.inr ⟨a, ha, hr, ?_⟩)
      obtain ⟨x, hx, hm⟩ := List.any_eq_true.1 hlists
      refine List.any_eq_true.2 ⟨x, hx, ?_⟩
      -- the directive that lists it lists all checks
      cases hdir : Directive.parse? x.2.text s.verb with
      | none => simp [Settings.mentions, isMentioned, hdir] at hm
      | some dir =>
          rw [Settings.mentions_iff hdir] at hm ⊢
          exact .inr (hm.resolve_left fun hi =>
            hid ((Directive.of_parse?_eq_some hdir).2.2.1 _ hi))
  · rintro (⟨root, hroot, hc⟩ | hall)
    · obtain rfl : root = d.root := by
        rw [h.rootOf?_eq hn] at hroot
        exact (Option.some.inj hroot).symm
      rw [h.isSuppressed_root, Except.ok.injEq] at hc
      exact (h.isSuppressed_eq_true_iff hp hn s check).2 (.inl hc)
    · exact hall check

/-- **An id that was written is read back.** -/
theorem Takes.isSuppressed_of_isId (h : w.Takes d s a cs q v) (hw : w.Standing d (plug cs q))
    (hp : (plug cs q).Faithful original) (hq : q.tree.kind = a.scope) (hs : s.Legible)
    (hid : IsId (a.id s)) (hn : (w.forest.kind n).suppressible = true)
    (hqn : q.id ∈ w.forest.ancestors n) : v.isSuppressed s n a.check = .ok true := by
  have hnv : (v.forest.kind n).suppressible = true := (h.kind_eq n).symm ▸ hn
  by_cases ha : a.scope = .document
  · cases h with
    | @opened ps t _ _ ht hplug hm =>
        rw [hplug] at hp
        have hshaped := (faithful_opening hp ht w.forest.size (w.forest.size + 1)).shaped
        refine (hm.standing.isSuppressed_eq_true_iff hshaped hnv s a.check).2 (.inl ?_)
        -- the comment is the first leaf
        have hcomment := Token.isComment_of_lineComment ht.2
        have htrivia := Token.isTrivia_of_isComment hcomment
        have hfid : a.id s = s.fileId a.check := if_pos ha
        refine List.any_eq_true.2 ⟨(w.forest.size, t), ?_, ?_⟩
        · simp [Change.leaves_target, Change.opening, Change.front, Place.before,
            Planted.leavesOf, Leaves.openingComments, htrivia, hcomment]
        · rw [ht.text_eq, Settings.mentions_iff (Settings.parse?_comment hs hid)]
          simp [hfid]
    | listed hd => exact absurd ha hd
    | merged hd => exact absurd ha hd
    | inserted hd => exact absurd ha hd
  · obtain ⟨d', p', hv, hp'⟩ := h.faithful hw hp hq
    obtain ⟨d'', hd'', hroot, -⟩ := h.exists_document hw.documents
    obtain rfl : d' = d'' := by simpa using hv.documents.symm.trans hd''
    -- the container is still there, and the nearest directive before it lists the id
    have hk : v.IsContainer q.id := by
      rw [IsContainer, h.kind_eq]
      exact hw.isContainer (type?_of_scope hq ha)
    have henters := h.enters hw hp.shaped hq ha
    have hqnv : q.id ∈ v.forest.ancestors n := (h.ancestors_eq hw hn).symm ▸ hqn
    obtain ⟨cs', q', rfl, hsame, hq'⟩ := hv.exists_place_of_container hk
    rw [id_of_scope ha] at hid
    rw [← hsame] at henters hqnv
    obtain ⟨x, dir, hx, hi⟩ := henters.exists_directive? hv hp'.shaped hroot hq' hs hid
    exact hv.isSuppressed_of_directive? hp'.shaped hq' hx hi hnv hqnv

/-- **What an action leaves is read back exactly if it is an id**, or the check is suppressed
anyway. -/
theorem Takes.isSuppressed_iff_isId {l : Layer} (h : w.Takes d l.freeze.settings a cs q v)
    (hw : w.Standing d (plug cs q)) (hp : (plug cs q).Faithful original)
    (hq : q.tree.kind = a.scope) (ho : a.IsOneLine l.freeze.settings)
    (hn : (w.forest.kind n).suppressible = true) (hqn : q.id ∈ w.forest.ancestors n) :
    ∃ b, v.isSuppressed l.freeze.settings n a.check = .ok b ∧
      (b = true ↔ IsId (a.id l.freeze.settings) ∨
        v.IsSuppressedAnyway l.freeze.settings n a.check) := by
  have hnv : (v.forest.kind n).suppressible = true := (h.kind_eq n).symm ▸ hn
  obtain ⟨d', p', hv, hp'⟩ := h.faithful hw hp hq
  obtain ⟨b, hb, -⟩ := hv.isSuppressed_iff_leads hp'.shaped (hv.mem_of_suppressible hnv) hnv
    l.freeze.settings a.check
  have hanswer : b = true ↔ v.isSuppressed l.freeze.settings n a.check = .ok true := by
    rw [hb, Except.ok.injEq]
  refine ⟨b, hb, hanswer.trans ?_⟩
  by_cases hid : IsId (a.id l.freeze.settings)
  · have hs : l.freeze.settings.Legible :=
      ⟨isId_of_isToken (l.accepts_freeze .verb) ho.1, l.marker_freeze⟩
    exact iff_of_true (h.isSuppressed_of_isId hw hp hq hs hid hn hqn) (.inl hid)
  · have hcheck : ¬ IsId a.check := fun hc => hid (ho.isId_id hc)
    rw [hv.isSuppressed_iff_anyway hp'.shaped hnv hcheck]
    exact (or_iff_right hid).symm

end Workspace

namespace Session

variable {text name : String} {w : Workspace} {log : Log} {a : Action} {n k : ElementId}

/-- Documents that are opened, and what actions and undo make of them, are in layers. -/
theorem layered {writable : Bool}
    (h : Session Workspace.Applies (Workspace.empty.open text name writable) w log) :
    w.Layered := by
  refine h.kept (P := Workspace.Layered) records_applies
    (Workspace.layered_empty.opened text name writable) ?_ fun _ _ _ hu huv => hu.extends huv
  rintro u v - hu ⟨hv, -⟩
  exact hu.apply hv

/-- The line comments of the document are read as they are. -/
theorem areComments {writable : Bool}
    (h : Session Workspace.Applies (Workspace.empty.open text name writable) w log) :
    ∃ d p, w.Standing d p ∧ Workspace.AreComments p.leaves := by
  refine h.kept (P := fun w => ∃ d p, w.Standing d p ∧ Workspace.AreComments p.leaves)
    records_applies ⟨_, _, Workspace.standing_open text name writable, ?_⟩ ?_ ?_
  · intro x hx ht
    have hmem : x.2 ∈ tokenize text :=
      Planted.map_snd_leaves_plantedFrom text 0 ▸ List.mem_map_of_mem hx
    exact Token.isLineComment_of_mem_tokenize hmem ht
  · rintro u v - ⟨d, p, hu, hp⟩ ⟨hv, hne⟩
    rcases hu.takes_of_apply hv with ⟨-, rfl⟩ | ⟨cs, q, rfl, -, -, ht⟩
    · exact absurd rfl hne
    · exact ht.areComments hu hp
  · rintro u v - ⟨d, p, hu, hp⟩ huv
    exact ⟨d, p, hu.extends huv, hp⟩

/-- **When an action fails, and when it succeeds in vain**, in every state that actions and undo
lead to and for settled settings: it fails, and leaves everything as it was, exactly if the verb or
the id does not stay on one line. Otherwise it succeeds, and the check is suppressed afterwards
exactly if what was written is an id, or if it is suppressed anyway. -/
theorem apply_readBack_iff
    (h : Session Workspace.Applies (Workspace.empty.open text name true) w log) (l : Layer)
    (hk : a.container? w.forest (some n) = some k) (hn : (w.forest.kind n).suppressible = true) :
    (¬ a.IsOneLine l.freeze.settings → ∃ e v,
      (Procedure.apply l.freeze.settings a (some n)).runs w = (.error e, v) ∧ w.Untouched v) ∧
    (a.IsOneLine l.freeze.settings → ∃ v b,
      (Procedure.apply l.freeze.settings a (some n)).runs w = (.ok ⟨⟩, v) ∧
        v.isSuppressed l.freeze.settings n a.check = .ok b ∧
        (b = true ↔ IsId (a.id l.freeze.settings) ∨
          v.IsSuppressedAnyway l.freeze.settings n a.check)) := by
  obtain ⟨d, p, hw⟩ := h.editable
  obtain ⟨d', p', hw', hcomments⟩ := h.areComments
  have hl : Workspace.AreComments p.leaves := hw'.leaves_unique hw.toStanding ▸ hcomments
  have hok := hw.apply_eq_ok_iff hl l.marker_freeze hk
  have hperforms := Procedure.performs_apply w l.freeze.settings a (some n)
  refine ⟨fun ho => ?_, fun ho => ?_⟩
  · cases hr : w.apply l.freeze.settings a (some n) with
    | ok v => exact absurd (hok.1 ⟨v, hr⟩) ho
    | error e => exact ⟨e, h.layered.untouched_of_error hperforms hr⟩
  · obtain ⟨v, hv⟩ := hok.2 ho
    rw [hv] at hperforms
    rcases hw.takes_of_apply hv with ⟨hnone, -⟩ | ⟨cs, q, rfl, hkq, hq, ht⟩
    · simp [hnone] at hk
    · have hqn := Action.mem_ancestors_of_container? hkq
      obtain ⟨b, hb, hiff⟩ := ht.isSuppressed_iff_isId hw.toStanding hw.faithful hq ho hn hqn
      exact ⟨v, b, hperforms, hb, hiff⟩

/-- A check with a line feed in it is refused for a rule that already has a directive. With a colon
in its place, the action succeeds, and the check is not suppressed. -/
theorem apply_readBack_iff_of_colon :
    let start := Workspace.empty.open "// noinspection A\nfoo ::= bar\n" "g" true
    let s := Layer.standard.freeze.settings
    ∃ w log, Session Workspace.Applies start w log ∧ w ≠ start ∧
      (∃ e v, (Procedure.apply s ⟨"B\nC", .rule, rfl⟩ (some 3)).runs w = (.error e, v) ∧
        w.Untouched v) ∧
      ∃ v, (Procedure.apply s ⟨"B:C", .rule, rfl⟩ (some 3)).runs w = (.ok ⟨⟩, v) ∧
        v.isSuppressed s 3 "B:C" = .ok false := by
  intro start s
  let applied := result (start.apply s ⟨"X", .rule, rfl⟩ (some 3)) (by decide +kernel)
  let after := (Procedure.apply s ⟨"B:C", .rule, rfl⟩ (some 3)).after applied
  have hne : applied ≠ start := fun he =>
    absurd (congrArg (fun w => w.forest.size) he) (by decide +kernel)
  have h : Session Workspace.Applies start applied [(start, applied)] :=
    of_result _ (by decide +kernel)
  obtain ⟨hrefused, -⟩ := h.apply_readBack_iff (a := ⟨"B\nC", .rule, rfl⟩) (n := 3) (k := 3)
    Layer.standard (by decide +kernel) (by decide +kernel)
  obtain ⟨-, hsuccess⟩ := h.apply_readBack_iff (a := ⟨"B:C", .rule, rfl⟩) (n := 3) (k := 3)
    Layer.standard (by decide +kernel) (by decide +kernel)
  obtain ⟨v, b, hrun, hb, hiff⟩ := hsuccess (by decide +kernel)
  obtain rfl : v = after := (congrArg Prod.snd hrun).symm
  refine ⟨applied, _, h, hne, hrefused (by decide +kernel), after, hrun, ?_⟩
  cases b with
  | false => exact hb
  | true =>
      rcases hiff.1 rfl with hid | ⟨root, hroot, hc⟩ | hall
      · exact absurd hid.2 (by decide)
      · obtain rfl : root = 0 := by
          have : after.rootOf? 3 = some 0 := by decide +kernel
          exact Option.some.inj (hroot.symm.trans this)
        have : (after.isSuppressed s 0 "B:C").toOption = some false := by decide +kernel
        rw [hc] at this
        simp [Except.toOption] at this
      · have : (after.isSuppressed s 3 "A").toOption = some false := by decide +kernel
        rw [hall "A"] at this
        simp [Except.toOption] at this

end Session

end BnfSuppression
