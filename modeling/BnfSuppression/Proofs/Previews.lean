import BnfSuppression.Diff.Preview
import BnfSuppression.Proofs.Painted
import BnfSuppression.Proofs.PatchLines
import Mathlib.Data.List.DropRight
import Mathlib.Data.List.Enum

/-!
# The Two Previews of a Patch

The preview of a patch may be made of what it lists, or of the lines of one text. A preview shows
each line that it is given on a line of its own. But the lines of the text are fewer if one of those
that were listed is not complete. And a line break that is neither a carriage return nor a line feed
stays in what is listed, while a line of the text loses it.

## Main definitions

* `Diff.KeepsBreaks`: a painter that leaves line breaks as they are.
* `Diff.Plain`: a text with no line breaks other than carriage returns and line feeds.

## Main results

* `Diff.keepsBreaks_paint`: the painter that the program uses keeps line breaks.
* `Diff.breaks_preview`: **the line breaks of a preview**.
* `Diff.previews_agree_iff`: **a preview has a line for each that is listed, and the two previews
  agree exactly if all are plain, and all but the last complete**.
-/

namespace BnfSuppression.Text

variable {cs ds : List Char}

/-! ### The line breaks of a text -/

/-- The characters of a text that break lines. -/
def breaks (cs : List Char) : List Char := cs.filter isLineBreak

/-- The line breaks of two texts together are those of the one, then those of the other. -/
@[simp]
theorem breaks_append (cs ds : List Char) : breaks (cs ++ ds) = breaks cs ++ breaks ds :=
  List.filter_append ..

/-- A text has no line breaks exactly if nothing in it breaks a line. -/
theorem breaks_eq_nil_iff : breaks cs = [] ↔ Unbroken cs := by
  simp [breaks, Unbroken]

/-- A text has as many line feeds as there are among its line breaks. -/
theorem count_breaks (cs : List Char) : (breaks cs).count '\n' = cs.count '\n' :=
  List.count_filter (by decide)

/-- A character that breaks lines is no part of a code. -/
theorem isCodeChar_of_isLineBreak {c : Char} (h : isLineBreak c = true) :
    Terminal.isCodeChar c = false := by
  by_contra hcode
  simp only [Bool.not_eq_false, Terminal.isCodeChar, Bool.or_eq_true, beq_iff_eq] at hcode
  rcases hcode with ((rfl | rfl) | rfl) | hd
  · exact absurd h (by decide)
  · exact absurd h (by decide)
  · exact absurd h (by decide)
  · exact absurd h (by simp [isLineBreak_of_isDigit hd])

/-- A text has the line breaks of its content. -/
theorem breaks_content (cs : List Char) : breaks (Terminal.content cs) = breaks cs := by
  rw [breaks, Terminal.content, List.filter_filter]
  refine List.filter_congr fun c _ => ?_
  by_cases h : isLineBreak c = true
  · simp [h, isCodeChar_of_isLineBreak h]
  · simp [h]

end BnfSuppression.Text

namespace BnfSuppression.Diff

open Text (IsBreak IsComplete IsLine Unbroken breaks)

variable {paint : Terminal.Painter} {old new name x : String} {cs body ending : List Char}

/-! ### The line breaks of a preview -/

/-- The painter leaves the line breaks of a text as they are. -/
def KeepsBreaks (paint : Terminal.Painter) : Prop :=
  ∀ styles text, breaks (paint styles text).toList = breaks text.toList

/-- **The codes of styles break no lines.** -/
theorem keepsBreaks_paint : KeepsBreaks Terminal.paint := fun styles text => by
  rw [← Text.breaks_content, Terminal.content_paint, Text.breaks_content]

/-- Spelling carriage returns out leaves the other line breaks. -/
theorem breaks_spellReturns (cs : List Char) :
    breaks (spellReturns cs) = (breaks cs).filter (· ≠ '\r') := by
  induction cs with
  | nil => rfl
  | cons c cs ih =>
      rw [spellReturns, List.flatMap_cons, Text.breaks_append, ← spellReturns, ih]
      by_cases hc : c = '\r'
      · subst hc
        rfl
      · by_cases hb : Text.isLineBreak c = true <;> simp [breaks, hc, hb]

/-- A painted line has the line breaks that it had, but for the carriage returns, which are spelled
out. -/
theorem breaks_paintLine (hpaint : KeepsBreaks paint) (line : List Char) :
    breaks (paintLine paint line).toList = (breaks line).filter (· ≠ '\r') := by
  rw [paintLine, hpaint, String.toList_ofList, breaks_spellReturns]

/-- A line number is written on one line. -/
theorem unbroken_lineNumber (n : Nat) : Unbroken (lineNumber n).toList := by
  intro c hc
  simp only [lineNumber, String.toList_ofList, List.mem_append, List.mem_replicate] at hc
  rcases hc with ⟨-, rfl⟩ | hc
  · decide
  · exact Text.isLineBreak_of_isDigit (isDigit_of_mem_toDigits (Nat.toList_repr ▸ hc))

/-- **The line breaks of a preview**: those that were left in its lines, and one behind each. -/
theorem breaks_preview (hpaint : KeepsBreaks paint) (numbered : Bool) (lines : List (List Char)) :
    breaks (preview paint numbered lines).toList =
      lines.flatMap fun line => (breaks line).filter (· ≠ '\r') ++ ['\n'] := by
  have hnumber (i : Nat) :
      breaks (if numbered then lineNumber (i + 1) ++ "|" else "").toList = [] := by
    rw [Text.breaks_eq_nil_iff]
    cases numbered with
    | false => exact Text.unbroken_nil
    | true =>
        rw [if_pos rfl, String.toList_append, Text.unbroken_append]
        exact ⟨unbroken_lineNumber _, by decide⟩
  have hline (line : List Char) (i : Nat) : breaks ((if numbered then lineNumber (i + 1) ++ "|"
      else "") ++ paintLine paint line ++ "\n").toList =
        (breaks line).filter (· ≠ '\r') ++ ['\n'] := by
    rw [String.toList_append, String.toList_append, Text.breaks_append, Text.breaks_append, hnumber,
      breaks_paintLine hpaint]
    rfl
  calc breaks (preview paint numbered lines).toList
      = lines.zipIdx.flatMap fun p => (breaks p.1).filter (· ≠ '\r') ++ ['\n'] := by
        rw [preview, String.toList_join, List.flatMap_map, breaks, List.filter_flatMap]
        exact List.flatMap_congr fun p _ => hline p.1 p.2
    _ = (lines.zipIdx.map Prod.fst).flatMap fun l => (breaks l).filter (· ≠ '\r') ++ ['\n'] := by
        rw [List.flatMap_map]
    _ = lines.flatMap fun l => (breaks l).filter (· ≠ '\r') ++ ['\n'] := by
        rw [List.zipIdx_map_fst]

/-- A preview of lines without line feeds has a line for each. -/
theorem count_preview (hpaint : KeepsBreaks paint) (numbered : Bool) {lines : List (List Char)}
    (h : ∀ line ∈ lines, '\n' ∉ line) :
    (preview paint numbered lines).toList.count '\n' = lines.length := by
  rw [← Text.count_breaks, breaks_preview hpaint]
  induction lines with
  | nil => rfl
  | cons line lines ih =>
      have hline : ((breaks line).filter (· ≠ '\r')).count '\n' = 0 :=
        List.count_eq_zero.2 fun hm => h line (by simp)
          (List.mem_filter.1 (List.mem_filter.1 hm).1).1
      rw [List.flatMap_cons, List.count_append, List.count_append, hline,
        ih fun l hl => h l (by simp [hl])]
      simp [Nat.add_comm]

/-! ### Lines without what ends them -/

/-- The text holds no line breaks other than carriage returns and line feeds. -/
def Plain (cs : List Char) : Prop :=
  ∀ c ∈ cs, Text.isLineBreak c = true → c = '\n' ∨ c = '\r'

/-- Whether a line is plain is decided by its line break. -/
theorem plain_append_iff (h : Unbroken body) : Plain (body ++ ending) ↔ Plain ending := by
  simp only [Plain, List.mem_append, or_imp, forall_and]
  exact and_iff_right fun c hc hbreak => absurd hbreak (by simp [h c hc])

/-- The bare line is what is left when carriage returns and line feeds are dropped at the end. -/
theorem bareLine_eq (x : String) :
    bareLine x = x.toList.rdropWhile fun c => c = '\r' || c = '\n' := rfl

/-- A text within a line ends with no carriage return and no line feed. -/
theorem rdropWhile_of_unbroken (h : Unbroken body) :
    (body.rdropWhile fun c => c = '\r' || c = '\n') = body := by
  rw [List.rdropWhile_eq_self_iff]
  intro hne hlast
  have hb := h _ (List.getLast_mem hne)
  simp only [Bool.or_eq_true, decide_eq_true_eq] at hlast
  rcases hlast with hc | hc
  · rw [hc] at hb
    exact absurd hb (by decide)
  · rw [hc] at hb
    exact absurd hb (by decide)

/-- What is left of a line without the carriage returns and line feeds at its end: all but its line
break, or all of it if it has another line break. -/
theorem bareLine_cases (h : IsLine x.toList) :
    (∃ body ending, Text.splitLines x.toList = [(body, ending)] ∧ bareLine x = body ∧
      Unbroken body ∧ Plain x.toList) ∨
    ∃ body c, Text.isLineBreak c = true ∧ c ≠ '\n' ∧ c ≠ '\r' ∧ Unbroken body ∧
      bareLine x = body ++ [c] ∧ ¬ Plain x.toList := by
  rw [bareLine_eq]
  rcases Text.isLine_iff.1 h with ⟨body, ending, hb, he, hx⟩ | ⟨hb, hne⟩
  · have hsplit := IsComplete.splitLines_eq hb he
    rw [← hx] at hsplit
    rw [hx, plain_append_iff hb]
    cases he with
    | pair =>
        refine .inl ⟨body, _, hx ▸ hsplit, ?_, hb, by simp [Plain]⟩
        have hpair : body ++ ['\r', '\n'] = body ++ ['\r'] ++ ['\n'] := by simp
        rw [hpair, List.rdropWhile_concat_pos _ _ _ (by simp),
          List.rdropWhile_concat_pos _ _ _ (by simp), rdropWhile_of_unbroken hb]
    | @single c hc =>
        by_cases hplain : c = '\r' ∨ c = '\n'
        · refine .inl ⟨body, _, hx ▸ hsplit, ?_, hb, by simpa [Plain] using fun _ => hplain.symm⟩
          rw [List.rdropWhile_concat_pos _ _ _ (by simpa using hplain), rdropWhile_of_unbroken hb]
        · refine .inr ⟨body, c, hc, fun h => hplain (.inr h), fun h => hplain (.inl h), hb, ?_, ?_⟩
          · rw [List.rdropWhile_concat_neg _ _ _ (by simpa using hplain)]
          · exact fun hp => hplain (hp c (by simp) hc).symm
  · exact .inl ⟨_, _, Text.splitLines_of_unbroken hne hb, rdropWhile_of_unbroken hb, hb,
      fun c hc hbreak => absurd hbreak (by simp [hb c hc])⟩

/-- A line without what ends it holds no line feed. -/
theorem lineFeed_notMem_bareLine (h : IsLine x.toList) : '\n' ∉ bareLine x := by
  intro hm
  rcases bareLine_cases h with ⟨body, -, -, hbare, hb, -⟩ | ⟨body, c, -, hne, -, hb, hbare, -⟩
  · exact absurd (hb _ (hbare ▸ hm)) (by decide)
  · rw [hbare, List.mem_append, List.mem_singleton] at hm
    rcases hm with hm | hm
    · exact absurd (hb _ hm) (by decide)
    · exact hne hm.symm

/-! ### The two previews -/

/-- The characters of a joined text are those of its parts, one part after the other. -/
theorem toList_join_eq (p : List String) :
    (String.join p).toList = (p.map String.toList).flatten := by
  rw [String.toList_join, List.flatMap_def]

/-- The preview of what is listed has a line for each. -/
theorem count_previewLines (hpaint : KeepsBreaks paint) (numbered : Bool) {p : List String}
    (h : ∀ x ∈ p, IsLine x.toList) :
    (previewLines paint numbered p).toList.count '\n' = p.length := by
  rw [previewLines, count_preview hpaint numbered, List.length_map]
  rw [List.forall_mem_map]
  exact fun x hx => lineFeed_notMem_bareLine (h x hx)

/-- The lines of a text hold no line break. -/
theorem unbroken_of_mem_bareLines {line : List Char} (h : line ∈ Text.bareLines cs) :
    Unbroken line := by
  obtain ⟨l, hl, rfl⟩ := List.mem_map.1 h
  exact (Text.of_mem_splitLines hl).1

/-- The preview of a text has a line for each of its lines. -/
theorem count_previewText (hpaint : KeepsBreaks paint) (numbered : Bool) (text : String) :
    (previewText paint numbered text).toList.count '\n' =
      (Text.splitLines text.toList).length := by
  rw [previewText, count_preview hpaint numbered, Text.bareLines, List.length_map]
  intro line hline hm
  exact absurd (unbroken_of_mem_bareLines hline _ hm) (by decide)

/-- The preview of a text breaks lines with line feeds alone. -/
theorem eq_of_mem_breaks_previewText (hpaint : KeepsBreaks paint) {numbered : Bool}
    {text : String} {c : Char} (h : c ∈ breaks (previewText paint numbered text).toList) :
    c = '\n' := by
  rw [previewText, breaks_preview hpaint] at h
  obtain ⟨line, hline, hc⟩ := List.mem_flatMap.1 h
  rw [Text.breaks_eq_nil_iff.2 (unbroken_of_mem_bareLines hline)] at hc
  simpa using hc

/-- **If the two previews of lines agree, all are plain.** -/
theorem plain_of_previews_eq (hpaint : KeepsBreaks paint) {numbered : Bool} {p : List String}
    (h : ∀ x ∈ p, IsLine x.toList)
    (heq : previewText paint numbered (String.join p) = previewLines paint numbered p) :
    ∀ x ∈ p, Plain x.toList := by
  intro x hx
  rcases bareLine_cases (h x hx) with ⟨-, -, -, -, -, hplain⟩ | ⟨body, c, hc, hne, hr, -, hbare, -⟩
  · exact hplain
  · refine absurd (@eq_of_mem_breaks_previewText paint hpaint numbered (String.join p) c ?_) hne
    rw [heq, previewLines, breaks_preview hpaint, List.flatMap_map]
    refine List.mem_flatMap.2 ⟨x, hx, List.mem_append_left _ ?_⟩
    simp [hbare, breaks, hc, hr]

/-- **The two previews of plain lines agree if all but the last are complete.** -/
theorem previews_eq_of_plain (paint : Terminal.Painter) (numbered : Bool) {p : List String}
    (h : Text.Joinable (p.map String.toList)) (hplain : ∀ x ∈ p, Plain x.toList)
    (hc : ∀ x ∈ p.dropLast, IsComplete x.toList) :
    previewText paint numbered (String.join p) = previewLines paint numbered p := by
  have hbare : ∀ x ∈ p, Text.bareLines x.toList = [bareLine x] := fun x hx => by
    rcases bareLine_cases (h _ (List.mem_map_of_mem hx)).1 with
      ⟨body, ending, hs, hbody, -, -⟩ | ⟨-, -, -, -, -, -, -, hno⟩
    · rw [Text.bareLines, hs, hbody]
      rfl
    · exact absurd (hplain x hx) hno
  rw [previewText, previewLines, toList_join_eq, Text.bareLines, Text.splitLines_flatten h,
    List.map_flatMap, List.flatMap_map]
  · congr 1
    calc p.flatMap (fun x => (Text.splitLines x.toList).map Prod.fst)
        = p.flatMap fun x => [bareLine x] := List.flatMap_congr hbare
      _ = p.map bareLine := List.map_eq_flatMap.symm
  · rwa [← List.map_dropLast, List.forall_mem_map]

/-- **When the two previews of a patch agree**, for every painter that keeps line breaks. The
preview of what a patch lists has a line for each. So has the preview of the patch as one text
exactly if all that is listed, but for the last, are complete lines. And the two agree exactly if
besides no line break is listed that is neither a carriage return nor a line feed. -/
theorem previews_agree_iff (hpaint : KeepsBreaks paint) (hname : Unbroken name.toList)
    (numbered : Bool) :
    let p := patch old new name
    (previewLines paint numbered p).toList.count '\n' = p.length ∧
      ((previewText paint numbered (String.join p)).toList.count '\n' = p.length ↔
        ∀ x ∈ p.dropLast, IsComplete x.toList) ∧
      (previewText paint numbered (String.join p) = previewLines paint numbered p ↔
        (∀ x ∈ p.dropLast, IsComplete x.toList) ∧ ∀ x ∈ p, Plain x.toList) := by
  intro p
  have hjoinable : Text.Joinable (p.map String.toList) := joinable_patch hname
  have hlines : ∀ x ∈ p, IsLine x.toList := fun x hx => (hjoinable _ (List.mem_map_of_mem hx)).1
  have hcount := count_previewLines hpaint numbered hlines
  have hcomplete : (previewText paint numbered (String.join p)).toList.count '\n' = p.length ↔
      ∀ x ∈ p.dropLast, IsComplete x.toList := by
    have hlength := Text.length_splitLines_flatten_eq_iff hjoinable
    rw [count_previewText hpaint, toList_join_eq]
    rwa [List.length_map, ← List.map_dropLast, List.forall_mem_map] at hlength
  refine ⟨hcount, hcomplete, fun heq => ⟨hcomplete.1 (heq ▸ hcount),
    plain_of_previews_eq hpaint hlines heq⟩, fun ⟨hc, hplain⟩ =>
      previews_eq_of_plain paint numbered hjoinable hplain hc⟩

/-- The line that is removed lacks its line break, and runs into the one that is added. -/
theorem previews_agree_iff_of_bare :
    KeepsBreaks Terminal.paint ∧ Unbroken "g.bnf".toList ∧
      previewText Terminal.paint false (String.join (patch "a" "b" "g.bnf")) ≠
        previewLines Terminal.paint false (patch "a" "b" "g.bnf") := by
  refine ⟨keepsBreaks_paint, by decide, fun heq => ?_⟩
  obtain ⟨-, -, hagree⟩ :=
    @previews_agree_iff Terminal.paint "a" "b" "g.bnf" keepsBreaks_paint (by decide) false
  have hcomplete := (hagree.1 heq).1 "-a" (by decide +kernel)
  exact IsLine.isComplete_iff ⟨['-', 'a'], [], rfl⟩ |>.1 hcomplete (by decide)

end BnfSuppression.Diff
