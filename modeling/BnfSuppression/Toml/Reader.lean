import BnfSuppression.Toml.Assembly
import BnfSuppression.Toml.Scalar

/-!
# Configuration files

A configuration file is a sequence of entries, comments and headers, one a line. An entry is a key,
an equals sign and a value; a header is a key in brackets and starts a section. A key is bare or
quoted, and dotted keys reach into tables. Lists and tables in braces may go on over several lines,
with comments, and end with a comma. They may lie within one another to a depth, and that is also
how many parts a key may have.

Whether a key is given twice is found while the file is read: among the entries and tables of a
section right away, among the sections when they end.

## Main definitions

* `Toml.value`: reading one value; `Toml.entry`: reading a key with a value.
* `Toml.Layout`: the entries and sections of a file.
* `Toml.read`: the table that a file stands for.
-/

namespace BnfSuppression.Toml

/-- A space or a tab. -/
def isSpace (c : Char) : Bool := c == ' ' || c == '\t'

/-- A space, a tab or a line break. -/
def isWhite (c : Char) : Bool := isSpace c || c == '\n' || c == '\r'

/-- The text from the first character that is neither a space nor a tab. -/
def dropSpaces (cs : List Char) : List Char := cs.dropWhile isSpace

/-- The text from the first character that is no space, tab or line break. -/
def dropWhite (cs : List Char) : List Char := cs.dropWhile isWhite

/-- A control character other than the tab; none may stand in a comment or a text. -/
def isControl (c : Char) : Bool := (c.toNat ≤ 0x1F && c != '\t') || c.toNat = 0x7F

/-! ### Texts -/

/-- The characters that may follow a backslash, and what they stand for. -/
def escapes : List (Char × Char) :=
  [('b', '\x08'), ('t', '\t'), ('n', '\n'), ('f', '\x0c'), ('r', '\r'), ('e', '\x1b'), ('"', '"'),
   ('\\', '\\')]

/-- The value of a hexadecimal digit. -/
def hexValue? (c : Char) : Option Nat :=
  if c.isDigit then some (c.toNat - '0'.toNat)
  else if 'a' ≤ c.toLower && c.toLower ≤ 'f' then some (c.toLower.toNat - 'a'.toNat + 10)
  else none

/-- The character of a hexadecimal code. -/
def codePoint? (code : List Char) : Option Char := do
  let n := Text.ofDigits 16 (← code.mapM hexValue?)
  if n.isValidChar then some (Char.ofNat n) else none

/-- Dropping white space never makes a text longer, which is why reading ends. -/
theorem length_dropWhite_le (cs : List Char) : (dropWhite cs).length ≤ cs.length :=
  (List.dropWhile_sublist isWhite).length_le

/-- The number of digits in the code of a character that follows a letter. -/
def codeSize (c : Char) : Option Nat :=
  match c with
  | 'x' => some 2
  | 'u' => some 4
  | 'U' => some 8
  | _ => none

/-- Replaces the escapes of a quoted text by what they stand for. In a text of several lines, a
backslash at the end of a line stands for nothing, together with the white space after it. -/
def unescape? (severalLines : Bool) (cs : List Char) : Option (List Char) :=
  match cs with
  | [] => some []
  | ['\\'] => none
  | '\\' :: c :: rest =>
    if severalLines && isWhite c then
      if ((c :: rest).takeWhile isWhite).contains '\n' then
        unescape? severalLines (dropWhite (c :: rest))
      else none
    else match escapes.lookup c, codeSize c with
      | some d, _ => (unescape? severalLines rest).map (d :: ·)
      | none, some size =>
        if rest.length < size then none
        else do
          let d ← codePoint? (rest.take size)
          let text ← unescape? severalLines (rest.drop size)
          return d :: text
      | none, none => none
  | c :: rest => (unescape? severalLines rest).map (c :: ·)
termination_by cs.length
decreasing_by
  all_goals
    have := length_dropWhite_le (c :: rest)
    simp only [List.length_drop, List.length_cons] at *
    omega

/-- The characters up to the quote that closes a text on one line. -/
def quotedLine (quote : Char) : List Char → Except Failure (List Char × List Char)
  | [] => .error .malformed
  | '\\' :: c :: cs =>
    if quote == '"' then do
      let (text, rest) ← quotedLine quote cs
      return ('\\' :: c :: text, rest)
    else do
      let (text, rest) ← quotedLine quote (c :: cs)
      return ('\\' :: text, rest)
  | c :: cs =>
    if c == quote then .ok ([], cs)
    else if isControl c then .error .malformed
    else do
      let (text, rest) ← quotedLine quote cs
      return (c :: text, rest)

/-- The characters up to the three quotes that close a text of several lines. One or two quotes more
belong to the text. -/
def quotedLines (quote : Char) : List Char → Except Failure (List Char × List Char)
  | [] => .error .malformed
  | '\\' :: c :: cs =>
    if quote == '"' then do
      let (text, rest) ← quotedLines quote cs
      return ('\\' :: c :: text, rest)
    else do
      let (text, rest) ← quotedLines quote (c :: cs)
      return ('\\' :: text, rest)
  | c :: cs =>
    if c == quote then
      let quotes := (c :: cs).takeWhile (· == quote)
      if 6 ≤ quotes.length then .error .malformed
      else if 3 ≤ quotes.length then .ok (quotes.drop 3, (c :: cs).drop quotes.length)
      else do
        let (text, rest) ← quotedLines quote cs
        return (c :: text, rest)
    else if isControl c && c != '\n' && c != '\r' then .error .malformed
    else do
      let (text, rest) ← quotedLines quote cs
      return (c :: text, rest)

/-- A quoted text, whether on one line or several. -/
structure Quoted where
  text : List Char
  severalLines : Bool

/-- The text between the quotes, with its escapes replaced if it is in double quotes. -/
def meaning (quote : Char) (severalLines : Bool) (text : List Char) : Except Failure Quoted :=
  if quote == '"' then
    match unescape? severalLines text with
    | some text => .ok ⟨text, severalLines⟩
    | none => .error .malformed
  else .ok ⟨text, severalLines⟩

/-- A line break right after the opening quotes is no part of a text of several lines. -/
def dropLineBreak : List Char → List Char
  | '\n' :: cs => cs
  | '\r' :: '\n' :: cs => cs
  | cs => cs

/-- Reads a text, the opening quote of which has been read. -/
def quoted (quote : Char) (cs : List Char) : Except Failure (Quoted × List Char) := do
  match cs with
  | c :: d :: rest =>
    if c == quote && d == quote then
      let (text, rest) ← quotedLines quote (dropLineBreak rest)
      return (← meaning quote true text, rest)
    else
      let (text, rest) ← quotedLine quote cs
      return (← meaning quote false text, rest)
  | _ =>
    let (text, rest) ← quotedLine quote cs
    return (← meaning quote false text, rest)

/-! ### Keys -/

/-- A character of a bare key. -/
def isBareKeyChar (c : Char) : Bool := c.isAlphanum || c == '-' || c == '_'

/-- How deep lists and tables in braces may lie within one another, and how many parts a key may
have. -/
def maxDepth : Nat := 100

/-- Reads a key: its parts, of which there may be so many. -/
def keyUpTo : Nat → List Char → Except Failure (List String × List Char)
  | 0, _ => .error .malformed
  | count + 1, cs => do
    let (part, rest) ← simpleKey (dropSpaces cs)
    match rest with
    | '.' :: rest =>
      let (parts, rest) ← keyUpTo count rest
      return (String.ofList part :: parts, rest)
    | rest => return ([String.ofList part], rest)
where
  /-- Reads one part of a key and the spaces after it. -/
  simpleKey (cs : List Char) : Except Failure (List Char × List Char) :=
    match cs with
    | '"' :: cs => quotedKey '"' cs
    | '\'' :: cs => quotedKey '\'' cs
    | cs =>
      let name := Text.strip (cs.takeWhile fun c => isBareKeyChar c || isSpace c)
      if name.isEmpty || name.any isSpace then .error .malformed
      else .ok (name, cs.dropWhile fun c => isBareKeyChar c || isSpace c)
  /-- Reads a quoted part of a key, which has to be on one line. -/
  quotedKey (quote : Char) (cs : List Char) : Except Failure (List Char × List Char) := do
    let (q, rest) ← quoted quote cs
    if q.severalLines then throw .malformed
    return (q.text, dropSpaces rest)

/-- Reads a key: its parts. -/
def key (cs : List Char) : Except Failure (List String × List Char) := keyUpTo maxDepth cs

/-- Reads the equals sign between a key and its value, with the spaces around it. -/
def separator (found : Bool) : List Char → Except Failure (List Char)
  | '=' :: cs => if found then .error .malformed else separator true cs
  | ' ' :: cs => separator found cs
  | '\t' :: cs => separator found cs
  | cs => if found then .ok cs else .error .malformed

/-! ### Values -/

/-- The characters that end a number or date. -/
def endsScalar (c : Char) : Bool := [' ', '\t', '\n', '\r', '#', ',', ']', '\x7d'].contains c

/-- Reads a number, a date or a time. A time may follow a date after a space. -/
def scalar (cs : List Char) : Except Failure (Value × List Char) :=
  let word := cs.takeWhile (!endsScalar ·)
  let rest := cs.dropWhile (!endsScalar ·)
  if isDateTime word then .ok (.dateTime (String.ofList word), rest)
  else if isDate word then
    let more := rest.takeWhile fun c => c == ' ' || !endsScalar c
    let rest := rest.dropWhile fun c => c == ' ' || !endsScalar c
    let time := (Text.dropBlanks more.reverse).reverse
    if time.isEmpty then .ok (.date (String.ofList word), rest)
    else if isDateTime (word ++ time) then .ok (.dateTime (String.ofList (word ++ time)), rest)
    else .error .malformed
  else if isTime word then .ok (.time (String.ofList word), rest)
  else match number? word with
    | some v => .ok (v, rest)
    | none => .error .malformed

/-- The words for floating-point numbers that are not finite. -/
def isWord (cs : List Char) : Bool :=
  let word := (cs.take 4).takeWhile (!endsScalar ·)
  word == "inf".toList || word == "nan".toList

/-- The rest of a line of a comment; control characters are refused. -/
def comment (cs : List Char) : Except Failure (List Char) :=
  if (cs.takeWhile (· != '\n')).any isControl then .error .malformed
  else .ok (cs.dropWhile (· != '\n'))

/-- Reads white space and comments. -/
def dropComments : Nat → List Char → Except Failure (List Char)
  | 0, cs => .ok cs
  | fuel + 1, cs =>
    match dropWhite cs with
    | '#' :: rest => do dropComments fuel (← comment rest)
    | rest => .ok rest

/-- The word stands in front. -/
def startsWithWord (word : String) (cs : List Char) : Bool := word.toList.isPrefixOf cs

/-- The table of what stands in braces. -/
def finish (depth : Nat) (c : Content) : Except Failure Value :=
  Value.table <$> settle depth c.parts

mutual

/-- Reads a value; lists and tables may lie within one another to a depth. -/
def value : Nat → (depth : Nat) → List Char → Except Failure (Value × List Char)
  | 0, _, _ => .error .malformed
  | fuel + 1, depth, cs =>
    match cs with
    | [] => .error .malformed
    | c :: rest =>
      if c == '"' || c == '\'' then do
        let (q, rest) ← quoted c rest
        return (.text (String.ofList q.text), rest)
      else if c == '[' || c == '\x7b' then
        match depth with
        | 0 => .error .malformed
        | depth + 1 =>
          if c == '[' then array fuel depth [] rest else inlineTable fuel depth .empty rest
      else if startsWithWord "true" cs then .ok (.boolean true, cs.drop 4)
      else if startsWithWord "false" cs then .ok (.boolean false, cs.drop 5)
      else if c.isDigit || c == '+' || c == '-' || isWord cs then scalar cs
      else .error .malformed

/-- Reads the elements of a list up to its closing bracket, given those read so far. -/
def array : Nat → Nat → List Value → List Char → Except Failure (Value × List Char)
  | 0, _, _, _ => .error .malformed
  | fuel + 1, depth, vs, cs => do
    match ← dropComments cs.length cs with
    | ']' :: rest => return (.array vs, rest)
    | cs =>
      let (v, rest) ← value fuel depth cs
      match ← dropComments rest.length rest with
      | ',' :: rest => array fuel depth (vs ++ [v]) rest
      | ']' :: rest => return (.array (vs ++ [v]), rest)
      | _ => throw .malformed

/-- Reads the entries of a table in braces up to its closing brace, given what was read so far. -/
def inlineTable : Nat → Nat → Content → List Char → Except Failure (Value × List Char)
  | 0, _, _, _ => .error .malformed
  | fuel + 1, depth, c, cs => do
    match ← dropComments cs.length cs with
    | '\x7d' :: rest => return (← finish fuel c, rest)
    | cs =>
      let ((path, v), rest) ← entry fuel depth cs
      let c ← append fuel true true c (.ofPath v path)
      match ← dropComments rest.length rest with
      | ',' :: rest => inlineTable fuel depth c rest
      | '\x7d' :: rest => return (← finish fuel c, rest)
      | _ => throw .malformed

/-- Reads a key with its value. -/
def entry : Nat → Nat → List Char → Except Failure ((List String × Value) × List Char)
  | 0, _, _ => .error .malformed
  | fuel + 1, depth, cs => do
    let (path, rest) ← key cs
    let (v, rest) ← value fuel depth (← separator false rest)
    return ((path, v), rest)

end

/-! ### Lines -/

/-- The text after the end of the line, before which only spaces and a comment may stand. -/
def endOfLine (cs : List Char) : Except Failure (List Char) :=
  match dropSpaces cs with
  | [] => .ok []
  | '\n' :: rest => .ok rest
  | '#' :: rest => do return (← comment rest).drop 1
  | _ => .error .malformed

/-- A key with its value. -/
structure Entry where
  path : List String
  value : Value

/-- What was read of a sequence of entries: the entries, and the failure that ended it or the text
from the next header on. -/
structure Entries where
  entries : List Entry
  ending : Except Failure (List Char)

/-- Reads entries up to the next header or the end. -/
def readEntries : Nat → List Char → Entries
  | 0, _ => ⟨[], .error .malformed⟩
  | fuel + 1, cs =>
    match dropSpaces cs with
    | [] => ⟨[], .ok []⟩
    | '\n' :: rest => readEntries fuel rest
    | '[' :: rest => ⟨[], .ok ('[' :: rest)⟩
    | '#' :: rest =>
      match comment rest with
      | .ok rest => readEntries fuel rest
      | .error e => ⟨[], .error e⟩
    | rest =>
      match entry fuel maxDepth rest with
      | .error e => ⟨[], .error e⟩
      | .ok ((path, v), rest) =>
        match endOfLine rest with
        | .error e => ⟨[], .error e⟩
        | .ok rest =>
          let more := readEntries fuel rest
          ⟨⟨path, v⟩ :: more.entries, more.ending⟩

/-- A section: the key of its header, whether it adds to a list of tables, and its entries. -/
structure Section where
  path : List String
  inList : Bool
  entries : List Entry

/-- Reads a header, the opening bracket of which has been read. The header of a list has two
brackets at each end. -/
def header (cs : List Char) : Except Failure ((List String × Bool) × List Char) := do
  let (inList, cs) := match cs with
    | '[' :: cs => (true, cs)
    | cs => (false, cs)
  let (path, rest) ← key cs
  match inList, rest with
  | false, ']' :: rest | true, ']' :: ']' :: rest => return ((path, inList), ← endOfLine rest)
  | _, _ => throw .malformed

/-- What was read of a file: the entries before the first header, the sections, and the failure that
ended the reading, if one did. -/
structure Layout where
  entries : List Entry
  sections : List Section
  failure? : Option Failure

/-- Reads sections up to the end. -/
def readSections : Nat → List Char → List Section × Option Failure
  | 0, _ => ([], some .malformed)
  | fuel + 1, cs =>
    match cs with
    | '[' :: cs =>
      match header cs with
      | .error e => ([], some e)
      | .ok ((path, inList), rest) =>
        let body := readEntries fuel rest
        let (sections, failure?) := match body.ending with
          | .ok rest => readSections fuel rest
          | .error e => ([], some e)
        (⟨path, inList, body.entries⟩ :: sections, failure?)
    | _ => ([], none)

/-- Reads a file. -/
def Layout.ofText (cs : List Char) : Layout :=
  let fuel := 4 * cs.length + 8
  let top := readEntries fuel cs
  let (sections, failure?) := match top.ending with
    | .ok rest => readSections fuel rest
    | .error e => ([], some e)
  ⟨top.entries, sections, failure?⟩

/-! ### Sections within sections -/

/-- The header of a section lies below that of another. -/
def Section.isBelow (s : Section) (path : List String) : Bool :=
  path.isPrefixOf s.path && path.length < s.path.length

/-- The tables that stand for the parts of a header's key beyond the first. -/
def around (inList : Bool) (c : Content) : List String → Node
  | [] => .table false c
  | [last] =>
    let inner : Node := if inList then .tables [c] else .table false c
    .table true (.mk [.mk last false inner] [])
  | key :: path => .table true (.mk [.mk key false (around inList c path)] [])

mutual

/-- The table of the first of some sections, which lies below a header of a length, with the
sections after it that lie below its own; and the other sections. If the section adds to a list, the
sections right after it that add to the same list are taken, too. -/
def build (depth : Nat) (failure? : Option Failure) (outer : Nat) :
    Nat → Section → List Section → Except Failure (Part × List Section)
  | 0, _, _ => .error .malformed
  | fuel + 1, s, rest => do
    let (c, rest) ← buildTable depth failure? fuel s rest
    match s.path.drop outer with
    | key :: next :: path => return (.mk key false (around s.inList c (next :: path)), rest)
    | names =>
      let key := names.head?.getD ""
      if s.inList then
        let (others, rest) ← buildSiblings depth failure? fuel s.path rest
        return (.mk key false (.tables (c :: others)), rest)
      else return (.mk key false (.table false c), rest)

/-- What the table of a section holds, with the sections that lie below its header. The tables of
these are joined when the section ends. -/
def buildTable (depth : Nat) (failure? : Option Failure) :
    Nat → Section → List Section → Except Failure (Content × List Section)
  | 0, _, _ => .error .malformed
  | fuel + 1, s, rest => do
    let c ← s.entries.foldlM
      (fun c e => extend depth true true c (.ofPath e.value e.path)) Content.empty
    let (c, rest) ← buildBelow depth failure? fuel s.path c rest
    return (← refreshAll depth c, rest)

/-- Adds the tables of the sections that lie below a header. -/
def buildBelow (depth : Nat) (failure? : Option Failure) :
    Nat → List String → Content → List Section → Except Failure (Content × List Section)
  | 0, _, _, _ => .error .malformed
  | fuel + 1, path, c, rest =>
    match rest with
    | [] => match failure? with
      | some e => .error e
      | none => .ok (c, [])
    | s :: rest =>
      if s.isBelow path then do
        let (p, rest) ← build depth failure? path.length fuel s rest
        buildBelow depth failure? fuel path (← extend depth false true c p) rest
      else .ok (c, s :: rest)

/-- The tables of the sections that add to the same list. -/
def buildSiblings (depth : Nat) (failure? : Option Failure) :
    Nat → List String → List Section → Except Failure (List Content × List Section)
  | 0, _, _ => .error .malformed
  | fuel + 1, path, rest =>
    match rest with
    | [] => .ok ([], [])
    | s :: rest =>
      if s.inList && s.path == path then do
        let (c, rest) ← buildTable depth failure? fuel s rest
        let (others, rest) ← buildSiblings depth failure? fuel path rest
        return (c :: others, rest)
      else .ok ([], s :: rest)

end

/-- Any failure that the file itself is to blame for as a whole. -/
def asMalformed {α : Type} (r : Except Failure α) : Except Failure α :=
  r.mapError fun _ => .malformed

/-- Adds the tables of all sections. -/
def buildAll (depth : Nat) (failure? : Option Failure) :
    Nat → Content → List Section → Except Failure Content
  | 0, _, _ => .error .malformed
  | fuel + 1, c, rest =>
    match rest with
    | [] => match failure? with
      | some e => .error e
      | none => .ok c
    | s :: rest => do
      let (p, rest) ← build depth failure? 0 fuel s rest
      buildAll depth failure? fuel (← asMalformed (append depth true true c p)) rest

/-- The table that a layout stands for. Keys given twice among the top entries, or by sections that
do not lie within one another, make the file as a whole malformed. -/
def Layout.table (l : Layout) (depth : Nat) : Except Failure Table := do
  let top ← asMalformed
    (l.entries.foldlM (fun c e => append depth true true c (.ofPath e.value e.path)) .empty)
  let c ← buildAll depth l.failure? (3 * l.sections.length + 3) top l.sections
  settle depth c.parts

/-- The table that a configuration file stands for. -/
def read (text : String) : Except Failure Table :=
  let cs := text.toList
  (Layout.ofText cs).table (4 * cs.length + 8)

end BnfSuppression.Toml
