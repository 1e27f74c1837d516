import PatternAutomata.CodePoint.Set
import PatternAutomata.IndexSet

/-!
# Nodes of a syntax tree

A tree is built from *groups*, whose children are alternatives, and *sequences*, whose children are
terms; the two kinds take turns on every way down. All other kinds are terms of a sequence. A node
is known by its place in the arena that holds it, and so are its parent and its children.

A loop is a group with one alternative to be repeated and an empty one to leave by; the order of the
two says which is preferred. A loop that has to run at least once may only be left by the empty
alternative after an iteration.
-/

namespace PatternAutomata

/-- How often a loop has to run at least. -/
inductive LoopKind
  /-- The loop may be left at once. -/
  | star
  /-- The loop may only be left after an iteration. -/
  | plus
deriving DecidableEq, Repr, Inhabited

/-- What sets a group apart from other groups. -/
structure Group where
  /-- The number of the capture group, if it captures. -/
  capture : Option Nat := none
  /-- How the group repeats itself, if it does. -/
  loop : Option LoopKind := none
  /-- For a loop of a finished tree, the capture groups properly below it. Their slots are reset
  at the start of every iteration. -/
  nested : IndexSet := ∅
deriving DecidableEq, Inhabited

/-- What a node stands for. -/
inductive NodeKind
  /-- A choice between alternatives. -/
  | group (group : Group)
  /-- Terms one after another. -/
  | sequence
  /-- One character of a set. In a finished tree a class in the body of a look-behind assertion
  names that assertion. -/
  | chars (set : CodePointSet) (lookBehind : Option Nat)
  /-- The start of the text. -/
  | caret
  /-- The end of the text. -/
  | dollar
  /-- An assertion about the last `length` characters; its one child is the body. -/
  | lookBehind (length : Nat)
  /-- The place behind the whole pattern. -/
  | matchFound
  /-- A place to start from, `lead` characters in front of the pattern. -/
  | marker (anchored : Bool) (lead : Nat)
deriving DecidableEq, Inhabited

namespace NodeKind

def group? : NodeKind → Option Group
  | group g => some g
  | _ => none

def chars? : NodeKind → Option CodePointSet
  | chars set _ => some set
  | _ => none

def isGroup (k : NodeKind) : Bool := k.group?.isSome

def isSequence : NodeKind → Bool
  | sequence => true
  | _ => false

def isChars (k : NodeKind) : Bool := k.chars?.isSome

def isLookBehind : NodeKind → Bool
  | lookBehind _ => true
  | _ => false

/-- Whether a node may be a term of a sequence that is still being built. -/
def isTerm : NodeKind → Bool
  | group _ | chars _ _ | caret | dollar | lookBehind _ => true
  | sequence | matchFound | marker _ _ => false

end NodeKind

/-- A node and its place in the tree. -/
structure Node where
  /-- What the node stands for. -/
  kind : NodeKind
  /-- The node it is a child of, if it has been placed. -/
  parent : Option Nat := none
  /-- Its position among the children of its parent. -/
  index : Nat := 0
  /-- The alternatives of a group, the terms of a sequence, the body of a look-behind. -/
  children : Array Nat := #[]
  /-- In a finished tree, the number of characters on the shortest way from the start of the
  pattern to the node. -/
  minPath : Nat := 0
deriving DecidableEq

/-- Stands in for a node that no arena holds: an empty sequence that is nowhere placed. -/
instance : Inhabited Node := ⟨{ kind := .sequence }⟩

/-- Whether a node has no children, such as the alternative by which a loop is left. -/
def Node.isEmpty (n : Node) : Bool := n.children.isEmpty

end PatternAutomata
