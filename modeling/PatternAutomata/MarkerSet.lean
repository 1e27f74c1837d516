import PatternAutomata.IndexSet

/-!
# Sets of markers

A marker is a node of a tree, and a set of markers belongs to a tree of a certain size. Sets that
belong to trees of different sizes are never equal, whatever their members.
-/

namespace PatternAutomata

/-- A set of nodes of a tree with `treeSize` nodes. -/
structure MarkerSet where
  /-- The number of nodes of the tree. -/
  treeSize : Nat
  /-- The members of the set. -/
  members : IndexSet
deriving DecidableEq, Hashable, Inhabited

namespace MarkerSet

def empty (treeSize : Nat) : MarkerSet := ⟨treeSize, ∅⟩

def ofList (treeSize : Nat) (ids : List Nat) : MarkerSet := ⟨treeSize, .ofList ids⟩

def toList (s : MarkerSet) : List Nat := s.members.toList

/-- The set with one more member; a marker outside the tree cannot be added. -/
def add? (s : MarkerSet) (id : Nat) : Option MarkerSet :=
  if id < s.treeSize then some { s with members := s.members.insert id } else none

/-- Whether a node is in the set; a number outside the tree never is. -/
def contains (s : MarkerSet) (id : Nat) : Bool := s.members.contains id

def isEmpty (s : MarkerSet) : Bool := s.members.isEmpty

def size (s : MarkerSet) : Nat := s.members.size

/-- Whether two sets have no common member, whatever trees they belong to. -/
def isDisjoint (s t : MarkerSet) : Bool := s.members.isDisjoint t.members

/-- The members between braces. -/
def toString (s : MarkerSet) : String := "\x7b" ++ s.members.join ", " ++ "\x7d"

instance : ToString MarkerSet := ⟨MarkerSet.toString⟩

end MarkerSet

end PatternAutomata
