import PatternAutomata.IndexSet

/-!
# Capture boundaries

Every capture group has two slots: slot `2 * g` holds where group `g` started and slot `2 * g + 1`
where it ended. A step through the pattern sets some slots to the current position and clears
others; what it leaves alone keeps its old value.
-/

namespace PatternAutomata

/-- The slots that a step sets to the current position and those that it clears. -/
structure Boundaries where
  /-- The slots set to the current position. -/
  updates : IndexSet := ∅
  /-- The slots cleared. -/
  clears : IndexSet := ∅
deriving DecidableEq, Inhabited

namespace Boundaries

def startSlot (capture : Nat) : Nat := 2 * capture

def endSlot (capture : Nat) : Nat := 2 * capture + 1

def isEmpty (b : Boundaries) : Bool := b.updates.isEmpty && b.clears.isEmpty

/-- Sets a slot, which undoes an earlier clearing of it. -/
def update (b : Boundaries) (slot : Nat) : Boundaries :=
  ⟨b.updates.insert slot, b.clears.erase slot⟩

/-- Clears slots, which undoes earlier settings of them. -/
def clear (b : Boundaries) (slots : IndexSet) : Boundaries :=
  ⟨b.updates \ slots, b.clears ∪ slots⟩

/-- Sets what either sets and clears what either clears. -/
def union (b c : Boundaries) : Boundaries := ⟨b.updates ∪ c.updates, b.clears ∪ c.clears⟩

/-- The slots by kind, or nothing at all when no slot is touched. -/
def toString (b : Boundaries) : String :=
  if b.isEmpty then ""
  else "update [" ++ b.updates.join "," ++ "] clear [" ++ b.clears.join "," ++ "]"

instance : ToString Boundaries := ⟨Boundaries.toString⟩

end Boundaries

end PatternAutomata
