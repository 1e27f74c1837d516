import PatternAutomata.CodePoint.Text
import PatternAutomata.Tree.Arena

/-!
# Labels of nodes

A label gives the number of a node and, behind a colon, what it is in short: `3:[a-z]` is a class,
`0:G0` the group that captures the whole match. That a loop captures is said instead of that it is
a loop, as no other group of the same number need be near.
-/

namespace PatternAutomata

/-- What a node is, in short. -/
def NodeKind.label : NodeKind → String
  | .group g =>
    match g.capture with
    | some capture => "G" ++ toString capture
    | none => if g.loop.isSome then "LOOP" else "G"
  | .sequence => "SEQ"
  | .chars set _ => set.toString
  | .caret => "^"
  | .dollar => "$"
  | .lookBehind length => "LB" ++ toString length
  | .matchFound => "MF"
  | .marker anchored lead => (if anchored then "A" else "U") ++ toString lead

/-- The label of a node: its number and what it is. -/
def Arena.label (a : Arena) (id : Nat) : String :=
  toString id ++ ":" ++ (a.node id).kind.label

end PatternAutomata
