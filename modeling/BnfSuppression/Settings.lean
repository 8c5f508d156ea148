import BnfSuppression.Directive

/-!
# Settings

How directives are spelled: the verb, the suffix that makes a check's id stand for a whole file, the
id that stands for all checks, and the comment marker that new directives are written with.

## Main definitions

* `Settings`: the spelling; `Settings.standard` is the usual one.
* `Settings.fileId`: the id that suppresses a check for a whole file.
-/

namespace BnfSuppression

/-- How directives are spelled. Nothing is asked of the texts here; which of them make directives
that can be read is said where it matters. -/
structure Settings where
  verb : String
  fileSuffix : String
  allChecksId : String
  marker : String
  deriving Repr, DecidableEq

namespace Settings

/-- The usual spelling. -/
def standard : Settings := ⟨"noinspection", "ForFile", "ALL", "//"⟩

/-- The id that suppresses a check for a whole file: that of the check with the suffix behind it. -/
def fileId (s : Settings) (check : String) : String := check ++ s.fileSuffix

/-- The comment that suppresses one check. -/
def comment (s : Settings) (id : String) : String := (Directive.mk s.verb [id]).render s.marker

/-- Whether a comment is a directive that lists the id, or all checks. The id for all checks is
always taken into account. -/
def mentions (s : Settings) (comment id : String) : Bool :=
  isMentioned comment s.verb id (some s.allChecksId)

end Settings

end BnfSuppression
