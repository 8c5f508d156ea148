import BnfSuppression.Settings
import BnfSuppression.Suppression.LeadingRun
import BnfSuppression.Workspace

/-!
# Whether a check is suppressed

A check is suppressed for an element by a directive at the start of its document that lists the
check's file id, or by one right before the element, or before an element around it other than the
root, that lists the check. Only rules, attributes and documents can be suppressed.

## Main definitions

* `Forest.isSuppressedAt`: a leading comment lists an id.
* `Workspace.isSuppressed`: the answer for an element.
-/

namespace BnfSuppression

/-- Whether a comment of the run that leads an element lists an id, or all checks. A run that cannot
be followed to its end fails only if no comment before that lists it. -/
def Forest.isSuppressedAt (f : Forest) (s : Settings) (place : LeadingPlace) (anchor : ElementId)
    (id : String) : Except Fault Bool :=
  let w := f.leadingComments place anchor
  if w.run.any fun c => s.mentions (f.ownText c) id then .ok true
  else (f.faultOf w.stop).map fun _ => false

/-- Whether one of the elements has a comment before it that lists an id, or all checks. -/
def Forest.isSuppressedBefore (f : Forest) (s : Settings) (id : String) :
    List ElementId → Except Fault Bool
  | [] => .ok false
  | e :: es => do
    if ← f.isSuppressedAt s .beforeNode e id then return true
    f.isSuppressedBefore s id es

namespace Workspace

/-- The root of an element's document, if it belongs to one. -/
def rootOf? (w : Workspace) (id : ElementId) : Option ElementId :=
  (w.ownerOf? id).bind fun d => w.documents[d]?.map Document.root

/-- Whether a check is suppressed for an element: by a comment at the start of the document that
lists its id for files, or by one before the element or before an element around it, the root left
out. -/
def isSuppressed (w : Workspace) (s : Settings) (id : ElementId) (check : String) :
    Except Fault Bool := do
  let f := w.forest
  if !(f.kind id).suppressible then return false
  let root? := w.rootOf? id
  if let some root := root? then
    if ← f.isSuppressedAt s .documentStart root (s.fileId check) then return true
  f.isSuppressedBefore s check ((f.ancestors id).takeWhile fun e => root? != some e)

end Workspace

end BnfSuppression
