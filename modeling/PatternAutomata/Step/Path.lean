import PatternAutomata.Boundaries
import PatternAutomata.Tree.Basic

/-!
# Paths through a tree

A path starts at a marker and goes on, without reading a character, to the places where one can be
read or where a match is found. It moves by entering nodes from the front and leaving them at the
end, and takes along what it crosses: slots set and cleared, look-behind assertions, and the first
dollar, behind which nothing can be read any more.

Where a group has several alternatives a path splits, preferred alternative first. A loop is entered
again at the end of an iteration, but only once on every path: an iteration that was not left by
reading a character has matched the empty string, and another one could do nothing else.
-/

namespace PatternAutomata

/-- A path and what it has crossed. -/
structure Path where
  /-- The node that the path has reached. -/
  node : Nat
  /-- Whether the path is at the end of the node, and not at its front. -/
  isLeaving : Bool
  /-- Whether the path stands in front of a loop from the end of an iteration. -/
  isReentry : Bool := false
  /-- The slots set and cleared on the way. -/
  boundaries : Boundaries := {}
  /-- The capture group left last, other than the whole pattern. -/
  lastGroup : Option Nat := none
  /-- The look-behind assertions passed, in order. -/
  lookBehinds : List Nat := []
  /-- The loops that have been entered again. -/
  reentered : IndexSet := ∅
  /-- The first dollar passed. -/
  dollar : Option Nat := none
deriving DecidableEq, Inhabited

/-- All of a path that decides where it can still go. What it has crossed otherwise only shows in
what it brings along. -/
structure Path.Context where
  /-- The node reached. -/
  node : Nat
  /-- Whether the path is at its end. -/
  isLeaving : Bool
  /-- Whether a loop is being entered again. -/
  isReentry : Bool
  /-- Whether a dollar has been passed. -/
  isAfterDollar : Bool
  /-- The loops that cannot be entered again. -/
  reentered : IndexSet
deriving DecidableEq, Hashable

/-- Where a path can still go. -/
def Path.context (p : Path) : Path.Context where
  node := p.node
  isLeaving := p.isLeaving
  isReentry := p.isReentry
  isAfterDollar := p.dollar.isSome
  reentered := p.reentered

/-- The circumstances of a step: the same for all paths from one marker. -/
structure Stance where
  /-- The tree that is walked. -/
  tree : Tree
  /-- The markers that are held, which tells what has been read just before. -/
  held : MarkerSet
  /-- Whether a match must not be found before a character has been read. -/
  mustAdvance : Bool
  /-- Whether the paths start at the start of the text. -/
  isAtStart : Bool

namespace Path

def leaving (p : Path) : Path := { p with isLeaving := true }

def inFrontOf (p : Path) (node : Nat) : Path := { p with node, isLeaving := false }

def nestedSlots (g : Group) : IndexSet :=
  .ofList (g.nested.toList.flatMap fun c ↦ [Boundaries.startSlot c, Boundaries.endSlot c])

/-! ## Groups -/

/-- The start of a group: a capture group notes the position. -/
def startGroup (p : Path) (g : Group) : Path :=
  match g.capture with
  | none => { p with isReentry := false }
  | some c =>
    { p with isReentry := false, boundaries := p.boundaries.update (Boundaries.startSlot c) }

/-- The end of a group: a capture group notes the position, and that it is the last one left. -/
def endGroup (p : Path) (g : Group) : Path :=
  match g.capture with
  | none => p
  | some c =>
    { p with
      boundaries := p.boundaries.update (Boundaries.endSlot c)
      lastGroup := if 0 < c then some c else p.lastGroup }

/-- Whether a path can take an alternative. The empty way out of a loop that has to run once is
closed until an iteration has ended. -/
def isOpen (t : Tree) (g : Group) (isReentry : Bool) (alternative : Nat) : Bool :=
  !(g.loop == some .plus && !isReentry && (t.node alternative).isEmpty)

/-- The start of an alternative: an iteration of a loop forgets what the one before captured. -/
def startAlternative (p : Path) (t : Tree) (g : Group) (alternative : Nat) : Path :=
  let p := p.inFrontOf alternative
  if g.loop.isSome && !(t.node alternative).isEmpty then
    { p with boundaries := p.boundaries.clear (nestedSlots g) }
  else p

def enterGroup (p : Path) (t : Tree) (g : Group) (alternatives : Array Nat) : List Path :=
  let started := p.startGroup g
  (alternatives.toList.filter (isOpen t g p.isReentry)).map (started.startAlternative t g)

/-! ## Moves -/

/-- Whether a look-behind assertion holds: the markers held tell whether the last class of its body
has just been matched, at the end of all that goes before it. -/
def holds (s : Stance) (lookBehind length : Nat) : Bool :=
  length == 0 || (s.tree.body lookBehind).back?.any s.held.contains

/-- The target that a path has arrived at: a character class, behind the pattern or, for a match
that must end at the end of the text, a dollar. Nothing can be read behind a dollar. -/
def arrival? (s : Stance) (p : Path) : Option Nat :=
  if p.isLeaving then none
  else match (s.tree.node p.node).kind with
    | .chars _ _ => if p.dollar.isNone then some p.node else none
    | .matchFound => if s.mustAdvance then none else some (p.dollar.getD p.node)
    | _ => none

/-- The ways to go on from the front of a node, preferred one first. -/
def enter (s : Stance) (p : Path) : List Path :=
  let n := s.tree.node p.node
  match n.kind with
  | .chars _ _ | .matchFound => []
  | .sequence =>
    match n.children[0]? with
    | none => [p.leaving]
    | some first => [p.inFrontOf first]
  | .group g => p.enterGroup s.tree g n.children
  | .caret => if s.isAtStart then [p.leaving] else []
  | .dollar => [{ p.leaving with dollar := p.dollar <|> some p.node }]
  | .lookBehind length =>
    if holds s p.node length then
      [{ p.leaving with
        lookBehinds :=
          if p.lookBehinds.contains p.node then p.lookBehinds else p.lookBehinds ++ [p.node] }]
    else []
  | .marker _ _ => [p.leaving]

/-- The way to go on from the end of a child of a sequence or a group, if there is one. -/
def leaveFor (p : Path) (t : Tree) (parent : Nat) : Option Path :=
  let child := t.node p.node
  let above := t.node parent
  match above.kind with
  | .sequence =>
    match above.children[child.index + 1]? with
    | some next => some (p.inFrontOf next)
    | none => some { p with node := parent }
  | .group g =>
    if g.loop.isSome && !child.isEmpty then
      if p.reentered.contains parent then none
      else some { p.inFrontOf parent with
        isReentry := true
        reentered := p.reentered.insert parent }
    else some { p.endGroup g with node := parent }
  | _ => none

/-- The way to go on from the end of a node, if there is one. -/
def leave (t : Tree) (p : Path) : Option Path := (t.node p.node).parent.bind (p.leaveFor t)

def next (s : Stance) (p : Path) : List Path :=
  if p.isLeaving then (p.leave s.tree).toList else p.enter s

end Path

end PatternAutomata
