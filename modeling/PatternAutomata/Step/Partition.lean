import PatternAutomata.Step.Step

/-!
# From successors to branches

The successors of a step overlap: one character may lead on in several ways. A branch is a set of
characters that all lead on in the same ways. Taking the successors by priority, each one is spread
over the branches so far: a branch that it covers only in part is split in two, the part that it
does not cover first, and what it covers beyond them all becomes a branch of its own at the end.

A successor that finds a match reads nothing, so it does not take part in this; it has a branch of
its own, on all characters. Branches that only keep track of look-behind assertions lead nowhere
and are dropped.
-/

namespace PatternAutomata

/-- The characters that lead on by the same successors, which are listed in order of priority by
their places in the step. -/
structure Branch where
  /-- The characters. -/
  on : CodePointSet
  /-- The successors. -/
  contributors : Array Nat
  /-- Whether the branch finds a match. -/
  isFinal : Bool := false
deriving DecidableEq, Inhabited

namespace Branch

/-- Spreads the characters of one more successor over the branches. -/
def spread (index : Nat) : CodePointSet → List Branch → List Branch
  | rest, [] => if rest.isEmpty then [] else [{ on := rest, contributors := #[index] }]
  | rest, b :: branches =>
    if rest.isEmpty then b :: branches
    else if b.isFinal || !b.on.intersects rest then b :: spread index rest branches
    else
      let common := b.on.intersect rest
      let rest := rest.subtract common
      if common = b.on then
        { b with contributors := b.contributors.push index } :: spread index rest branches
      else
        { b with on := b.on.subtract common } ::
          { on := common, contributors := b.contributors.push index } :: spread index rest branches

def add (t : Tree) (branches : List Branch) (s : Successor) (index : Nat) : List Branch :=
  if s.isFinal t then
    branches ++ [{ on := t.encoding.fullSet, contributors := #[index], isFinal := true }]
  else
    spread index (((t.node s.target).kind.chars?).getD .empty) branches

/-- Whether a branch leads on, by something else than look-behind progress. -/
def leadsOn (t : Tree) (successors : Array Successor) (b : Branch) : Bool :=
  b.contributors.any fun i ↦ !(successors.getD i default).isProgress t

def ofSuccessors (t : Tree) (successors : Array Successor) : List Branch :=
  let branches := (successors.foldl (fun (branches, index) s ↦
    (add t branches s index, index + 1)) (([] : List Branch), 0)).1
  branches.filter (leadsOn t successors)

/-! ## Where a branch leads -/

/-- The markers that a successor leads to: its target, which for a dollar is all dollars, and the
look-behind assertions passed on the way. -/
def markersOf (t : Tree) (s : Successor) : List Nat :=
  (match (t.node s.target).kind with
  | .caret | .dollar => t.dollars.toList
  | _ => [s.target]) ++ s.lookBehinds

def target (t : Tree) (successors : Array Successor) (b : Branch) : MarkerSet :=
  t.markers (b.contributors.toList.flatMap fun i ↦ markersOf t (successors.getD i default))

end Branch

end PatternAutomata
