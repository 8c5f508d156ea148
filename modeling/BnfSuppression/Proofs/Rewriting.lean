import BnfSuppression.Proofs.Encoding
import BnfSuppression.Proofs.Faithful
import BnfSuppression.Proofs.Running
import BnfSuppression.Proofs.Writing

/-!
# Rewriting Files Byte by Byte

A run of the program that changes a file puts a comment with its line break and its indentation at
one place of the file, or lists one more id in a directive comment. Between the bytes of the file
before and after, that is the whole difference if the file holds no carriage return: what is read
has line feeds for the line breaks, and it is written with these.

## Main definitions

* `Rewritten`: bytes with one comment more, or with one directive comment that lists an id more.

## Main results

* `Rewritten.returnByte_mem_iff`: rewriting neither adds nor removes a carriage return.
* `Workspace.Takes.rewritten`: an action rewrites the bytes of a document.
* `CommandLine.run_rewritten_iff`: **a run that changes a file rewrites the text that it read, and
  rewrites the bytes of the file exactly if they hold no carriage return**.
-/

namespace BnfSuppression

open Files (Host Place)
open Planted (plug Change)
open Text (returnByte)

/-! ### Rewriting bytes -/

/-- Bytes with one comment more, or with one directive comment that lists an id more. All other
bytes stay. -/
inductive Rewritten (before after : ByteArray) : Prop
  /-- A comment and a line break are inserted, and the blanks in front of the comment are repeated
  behind the line break. -/
  | inserted {s : Settings} {id indent : String} {t : Token} {front back : ByteArray} :
    Workspace.IsLineComment (s.comment id) t →
    (∀ c ∈ indent.toList, Text.isBlank c = true ∧ c ≠ '\n') →
    (∃ margin, front = margin ++ indent.toUTF8) → before = front ++ back →
    after = front ++ (s.comment id ++ "\n" ++ indent).toUTF8 ++ back → Rewritten before after
  /-- A comment that is a directive is replaced by one that lists an id more. -/
  | merged {s : Settings} {id old : String} {dir : Directive} {t u : Token}
    {front back : ByteArray} :
    Workspace.IsLineComment old t → Directive.parse? old s.verb = some dir → id ∉ dir.ids →
    Workspace.IsLineComment ((dir.withId id).render s.marker) u →
    before = front ++ old.toUTF8 ++ back →
    after = front ++ ((dir.withId id).render s.marker).toUTF8 ++ back → Rewritten before after

/-- A line comment holds no carriage return. -/
theorem Workspace.IsLineComment.return_notMem {text : String} {t : Token}
    (h : Workspace.IsLineComment text t) : '\r' ∉ text.toList := by
  intro hr
  exact absurd (h.isOneLine _ hr) (by decide)

namespace Rewritten

variable {before after : ByteArray}

/-- **A rewriting takes no carriage return away and adds none.** -/
theorem returnByte_mem_iff (h : Rewritten before after) :
    returnByte ∈ after.data ↔ returnByte ∈ before.data := by
  cases h with
  | inserted hc _ hmargin hb ha =>
      have hnone := hc.return_notMem
      obtain ⟨margin, rfl⟩ := hmargin
      subst hb ha
      simp only [Text.mem_data_append, Text.returnByte_mem_toUTF8_iff, String.toList_append,
        List.mem_append, hnone]
      simp
  | merged hold _ _ hnew hb ha =>
      subst hb ha
      simp only [Text.mem_data_append, Text.returnByte_mem_toUTF8_iff, hold.return_notMem,
        hnew.return_notMem]

end Rewritten

/-! ### Actions -/

namespace Forest

/-- The indentation that a new line gets is what the text before it ends with. -/
theorem exists_append_trailingIndent (cs : List Char) :
    ∃ margin, cs = margin ++ (trailingIndent cs).toList := by
  rw [trailingIndent]
  split
  · refine ⟨(cs.reverse.dropWhile (· != '\n')).reverse, ?_⟩
    rw [String.toList_ofList, afterLineFeed, ← List.reverse_append, List.takeWhile_append_dropWhile,
      List.reverse_reverse]
  · exact ⟨cs, by simp⟩

/-- An indentation is made of blanks on one line. -/
theorem of_mem_trailingIndent {cs : List Char} {c : Char} (h : c ∈ (trailingIndent cs).toList) :
    Text.isBlank c = true ∧ c ≠ '\n' := by
  refine ⟨List.all_eq_true.1 (isBlank_trailingIndent cs) c h, ?_⟩
  rintro rfl
  rw [trailingIndent] at h
  split at h
  · rw [String.toList_ofList, afterLineFeed, List.mem_reverse] at h
    simpa using List.mem_takeWhile_imp h
  · simp at h

end Forest

namespace Workspace

variable {w v : Workspace} {d : Document} {p q : Planted} {cs : Planted.Place} {c : Change}
  {s : Settings} {a : Action} {text : String}

/-- The bytes of a document are those of its leaves. -/
theorem Standing.toUTF8_text (h : w.Standing d p) :
    (d.text w.forest).toUTF8 = (Forest.charsOf p.leaves).utf8Encode := by
  rw [Text.toUTF8_eq_utf8Encode, h.text_eq, Planted.toList_tree_text]

/-- The bytes in front of a change and behind it stay. -/
theorem Makes.toUTF8_text (h : w.Makes d c v) (hw : w.Standing d c.source) {old new : String}
    (hold : Forest.charsOf c.removed = old.toList)
    (hnew : Forest.charsOf c.inserted = new.toList) :
    (d.text w.forest).toUTF8 = (Forest.charsOf c.front).utf8Encode ++ old.toUTF8 ++
        (Forest.charsOf c.back).utf8Encode ∧
      (d.text v.forest).toUTF8 = (Forest.charsOf c.front).utf8Encode ++ new.toUTF8 ++
        (Forest.charsOf c.back).utf8Encode := by
  have hv : (d.text v.forest).toUTF8 = (Forest.charsOf c.target.leaves).utf8Encode :=
    h.standing.toUTF8_text
  have happend : ∀ xs, Forest.charsOf (c.front ++ xs ++ c.back) =
      Forest.charsOf c.front ++ Forest.charsOf xs ++ Forest.charsOf c.back := by
    simp [Forest.charsOf]
  rw [hw.toUTF8_text, hv, c.leaves_source, c.leaves_target, happend, happend, hold, hnew]
  simp only [List.utf8Encode_append, Text.toUTF8_eq_utf8Encode, and_self]

/-- A change that puts a comment in, and a line break with the indentation in front of it, rewrites
the bytes. -/
theorem Makes.rewritten_of_inserts (h : w.Makes d c v) (hw : w.Standing d c.source) {id : String}
    {t : Token} (ht : IsLineComment (s.comment id) t) (hr : c.removed = [])
    (hi : Forest.charsOf c.inserted =
      (s.comment id ++ "\n" ++ Forest.trailingIndent (Forest.charsOf c.front)).toList) :
    Rewritten (d.text w.forest).toUTF8 (d.text v.forest).toUTF8 := by
  obtain ⟨margin, hmargin⟩ := Forest.exists_append_trailingIndent (Forest.charsOf c.front)
  have hold : Forest.charsOf c.removed = "".toList := by
    rw [hr]
    rfl
  obtain ⟨hbefore, hafter⟩ := h.toUTF8_text hw hold hi
  refine .inserted ht (fun c => Forest.of_mem_trailingIndent) ⟨margin.utf8Encode, ?_⟩
    (by simpa using hbefore) hafter
  rw [Text.toUTF8_eq_utf8Encode, ← List.utf8Encode_append, ← hmargin]

/-- **An action rewrites the bytes of a document whose leaves were read from a text**, or leaves it
alone. -/
theorem Takes.rewritten (h : w.Takes d s a cs q v) (hw : w.Standing d (plug cs q))
    (hread : (plug cs q).leaves.map Prod.snd = tokenize text) :
    v = w ∨ Rewritten (d.text w.forest).toUTF8 (d.text v.forest).toUTF8 := by
  cases h with
  | listed => exact .inl rfl
  | @merged x dir b bs t v ha hx hi ht hplug hm =>
      have hdir := (Leaves.of_directive?_eq_some hx).2
      obtain ⟨hmem, hline⟩ := lineComment_of_directive? (hread ▸ Token.written_tokenize text) hx
      have hleaf : x.2 ∈ tokenize text := hread ▸ List.mem_map_of_mem hmem
      have hold : Forest.charsOf [x] = x.2.text.toList := by simp [Forest.charsOf]
      have hnew : Forest.charsOf [(w.forest.size, t)] =
          ((dir.withId (a.id s)).render s.marker).toList := by
        simp [Forest.charsOf, ht.text_eq]
      obtain ⟨hbefore, hafter⟩ := hm.toUTF8_text (by simpa [← hplug] using hw) hold hnew
      exact .inr (.merged (Token.isLineComment_of_mem_tokenize hleaf hline) hdir hi ht hbefore
        hafter)
  | @inserted b bs t v ha hx ht hcs hm =>
      subst hcs
      refine .inr (hm.rewritten_of_inserts (by simpa using hw) ht rfl ?_)
      simp [Forest.charsOf, Document.lineBreak, ht.text_eq, Change.insertion, Change.front,
        Planted.Place.before]
  | @opened ps t v ha ht hplug hm =>
      refine .inr (hm.rewritten_of_inserts (by simpa [← hplug] using hw) ht rfl ?_)
      have hstart : Forest.trailingIndent [] = "" := by
        simp [Forest.trailingIndent, Forest.afterLineFeed]
      simp [Forest.charsOf, ht.text_eq, Change.opening, Change.front, Planted.Place.before,
        Planted.leavesOf, hstart]

end Workspace

/-! ### Runs -/

namespace CommandLine

variable {h : Host} {o : Outcome} {settings : Settings} {a : Action} {element : ElementId}
  {text result name : String} {writable : Bool}

/-- An action for a grammar that was read from a text rewrites that text, or leaves it alone. -/
theorem rewritten_of_applied
    (ha : applied settings (.ofText text name writable) a element = .ok result)
    (hchanged : result ≠ text) : Rewritten text.toUTF8 result.toUTF8 := by
  obtain ⟨w, hw, rfl⟩ := applied_eq_ok ha
  have hopen := Workspace.standing_open text name writable
  have hleaves := Planted.map_snd_leaves_plantedFrom text 0
  have hinitial : Document.text ⟨name, writable, text, 0, []⟩
      (Workspace.empty.open text name writable).forest = text := by
    rw [hopen.text_eq, Tree.tree_plantedFrom, BnfSuppression.Session.text_parse]
  have hsame : w = Workspace.empty.open text name writable ∨ Rewritten
      (Document.text ⟨name, writable, text, 0, []⟩
        (Workspace.empty.open text name writable).forest).toUTF8
      (Document.text ⟨name, writable, text, 0, []⟩ w.forest).toUTF8 := by
    rcases hopen.takes_of_apply hw with ⟨-, rfl⟩ | ⟨cs, q, hplug, -, -, ht⟩
    · exact .inl rfl
    · rw [hplug] at hopen hleaves
      exact ht.rewritten hopen hleaves
  rcases hsame with rfl | hr
  · exact absurd hinitial hchanged
  · rwa [hinitial] at hr

/-- Saving writes the file that was read, and what is written rewrites the text that was read. -/
theorem Saves.rewritten (ho : Saves h o) :
    ∃ place before after cs, h.disk.file? place = some before ∧
      Text.decodeUtf8 before = .ok cs ∧ o.host = { h with disk := h.disk.write place after } ∧
      o.ending = .exit .success ∧ Rewritten (Text.normalizeBreaks cs).utf8Encode after := by
  obtain ⟨p, g, settings, a, element, result, hg, ha, hchanged, hw, hending⟩ := ho
  obtain ⟨text, hr, rfl⟩ := openGrammar_eq_ok hg
  obtain ⟨place, before, cs, hplace, hbefore, hcs, rfl⟩ := Host.readText_eq_ok hr
  obtain ⟨place', hplace', hhost⟩ := Host.writeText_eq_ok hw
  obtain rfl : place = place' := Except.ok.inj (hplace.symm.trans hplace')
  refine ⟨place, before, result.toUTF8, cs, hbefore, hcs, hhost, hending, ?_⟩
  have hr := rewritten_of_applied ha hchanged
  rwa [Text.toUTF8_eq_utf8Encode, String.toList_ofList] at hr

/-- **A run that changes a file ends well, changes no other file, and rewrites the text that it
read. The bytes of the file are rewritten, and all others kept, exactly if they hold no carriage
return.** -/
theorem run_rewritten_iff {kit : Toolkit} {h : Host} {env : Environment} {args : List String}
    {place : Place} {before after : ByteArray} (hbefore : h.disk.file? place = some before)
    (hafter : (run kit h env args).host.disk.file? place = some after) (hne : after ≠ before) :
    ∃ cs, Text.decodeUtf8 before = .ok cs ∧ (run kit h env args).ending = .exit .success ∧
      (run kit h env args).host = { h with disk := h.disk.write place after } ∧
      Rewritten (Text.normalizeBreaks cs).utf8Encode after ∧
      (Rewritten before after ↔ '\r' ∉ cs) := by
  rcases acts_run kit h env args with hhost | hs
  · rw [hhost, hbefore] at hafter
    exact absurd (Option.some.inj hafter).symm hne
  obtain ⟨place', before', after', cs, hbefore', hcs, hhost, hending, hr⟩ := hs.rewritten
  rw [hhost, Files.Disk.file?_write] at hafter
  split at hafter
  · next hplace =>
      subst hplace
      obtain rfl : before' = before := Option.some.inj (hbefore'.symm.trans hbefore)
      obtain rfl : after' = after := Option.some.inj hafter
      refine ⟨cs, hcs, hending, hhost, hr, fun hrewritten hreturn => ?_, fun hreturn => ?_⟩
      · -- the return would still be in what is written
        rw [Text.return_mem_iff_of_decodeUtf8 hcs, ← hrewritten.returnByte_mem_iff,
          hr.returnByte_mem_iff, Text.returnByte_mem_utf8Encode_iff] at hreturn
        exact Text.return_notMem_normalizeBreaks cs hreturn
      · rwa [Text.normalizeBreaks_eq_self hreturn, Text.utf8Encode_of_decodeUtf8 hcs] at hr
  · rw [hbefore] at hafter
    exact absurd (Option.some.inj hafter).symm hne

/-- A machine with one file, which is in the working directory. -/
def machine (name text : String) : Host :=
  ⟨.ofFiles [] [([name], text.toUTF8)], [], [], [], []⟩

/-- An environment in which nothing is set. -/
def Environment.unset : Environment := ⟨none, none, none, false⟩

/-- The arguments that suppress a check for a rule. -/
def suppressArguments : List String :=
  ["suppress", "g.bnf", "--check", "X", "--rule", "foo", "--apply"]

/-- All but the directive is kept where lines end with line feeds alone, and is not where carriage
returns stand before these. -/
theorem run_rewritten_iff_of_returns :
    (∃ after, (run .standard (machine "g.bnf" "// noinspection A\nfoo ::= bar\n") .unset
        suppressArguments).host.disk.file? ["g.bnf"] = some after ∧
      Rewritten "// noinspection A\nfoo ::= bar\n".toUTF8 after) ∧
    ∃ after, (run .standard (machine "g.bnf" "// noinspection A\r\nfoo ::= bar\r\n") .unset
        suppressArguments).host.disk.file? ["g.bnf"] = some after ∧
      ¬Rewritten "// noinspection A\r\nfoo ::= bar\r\n".toUTF8 after := by
  constructor
  · have hbefore : (machine "g.bnf" "// noinspection A\nfoo ::= bar\n").disk.file? ["g.bnf"] =
        some "// noinspection A\nfoo ::= bar\n".toUTF8 := rfl
    have hafter : (run .standard (machine "g.bnf" "// noinspection A\nfoo ::= bar\n") .unset
        suppressArguments).host.disk.file? ["g.bnf"] =
          some "// noinspection A, X\nfoo ::= bar\n".toUTF8 := by decide +kernel
    obtain ⟨cs, hcs, -, -, -, hiff⟩ := run_rewritten_iff hbefore hafter (by decide +kernel)
    refine ⟨_, hafter, hiff.2 ?_⟩
    rw [Text.return_mem_iff_of_decodeUtf8 hcs]
    decide +kernel
  · have hbefore : (machine "g.bnf" "// noinspection A\r\nfoo ::= bar\r\n").disk.file?
        ["g.bnf"] = some "// noinspection A\r\nfoo ::= bar\r\n".toUTF8 := rfl
    have hafter : (run .standard (machine "g.bnf" "// noinspection A\r\nfoo ::= bar\r\n") .unset
        suppressArguments).host.disk.file? ["g.bnf"] =
          some "// noinspection A, X\nfoo ::= bar\n".toUTF8 := by decide +kernel
    obtain ⟨cs, hcs, -, -, -, hiff⟩ := run_rewritten_iff hbefore hafter (by decide +kernel)
    refine ⟨_, hafter, fun hr => hiff.1 hr ?_⟩
    rw [Text.return_mem_iff_of_decodeUtf8 hcs]
    decide +kernel

end CommandLine

end BnfSuppression
