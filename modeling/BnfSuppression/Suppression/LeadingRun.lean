import BnfSuppression.Document

/-!
# Leading comments

The comments that belong to an element stand right before it, among white space and other comments;
those that belong to a whole document stand at its start. Any other leaf ends the run.

## Main definitions

* `LeadingPlace`: where a run stands.
* `Forest.leadingRun`: the leaves of the run; `Forest.leadingComments`: its comments.
-/

namespace BnfSuppression

/-- Where a leading run stands. -/
inductive LeadingPlace
  | documentStart
  | beforeNode
  deriving DecidableEq, Repr

/-- The place of a name. -/
def LeadingPlace.ofName? : String → Option LeadingPlace
  | "document-start" => some documentStart
  | "before-node" => some beforeNode
  | _ => none

namespace Forest

/-- The run of white space and comments that leads an element: from its first leaf on, or back from
the leaf before it. -/
def leadingRun (f : Forest) (place : LeadingPlace) (anchor : ElementId) : Walk :=
  match place with
  | .documentStart =>
    f.walkWhile .forward f.isTrivia (((f.firstLeaf? anchor).map Step.leaf).getD .edge)
  | .beforeNode => f.walkWhile .backward f.isTrivia (f.step .backward anchor)

/-- The comments of the run as one meets them: in the order of the text at a document's start, the
nearest first before an element. -/
def leadingComments (f : Forest) (place : LeadingPlace) (anchor : ElementId) : Walk :=
  let w := f.leadingRun place anchor
  { w with run := w.run.filter f.isComment }

end Forest

end BnfSuppression
