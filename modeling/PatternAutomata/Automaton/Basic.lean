import PatternAutomata.Boundaries
import PatternAutomata.CodePoint.Set
import PatternAutomata.MarkerSet

/-!
# Automata

A state stands for a set of markers, and two states are the same if their sets are and if both or
none of them must still read a character. States and transitions are known by number, in the order
in which they are made.

Besides the states that stand for places in the pattern there are fixed ones: a dummy in front of
everything, one final state for matches that must end at the end of the text and one for all other
matches, and initial states for each length of the lead-in, which the dummy has entries to. If no
caret can matter, it makes no difference whether a search starts at the start of the text, and the
anchored initial states are the unanchored ones.
-/

namespace PatternAutomata

/-- The parts that a state can play. -/
structure Roles where
  /-- A search from the start of the text starts here. -/
  anchoredInitial : Bool := false
  /-- A search from anywhere starts here. -/
  unanchoredInitial : Bool := false
  /-- A match that ends at the end of the text is found here. -/
  anchoredFinal : Bool := false
  /-- A match that may end anywhere is found here. -/
  unanchoredFinal : Bool := false
  /-- A search starts here that goes through some of the lead-in first. -/
  hasPrefix : Bool := false
  /-- The state is within the lead-in, and no state leads back to it. -/
  hardPrefix : Bool := false
deriving DecidableEq, Repr, Inhabited

namespace Roles

/-- The roles by name, in a fixed order. -/
def named (r : Roles) : List (String × Bool) :=
  [("anchoredInitial", r.anchoredInitial), ("unAnchoredInitial", r.unanchoredInitial),
    ("anchoredFinal", r.anchoredFinal), ("unAnchoredFinal", r.unanchoredFinal),
    ("hasPrefixStates", r.hasPrefix), ("hardPrefix", r.hardPrefix)]

def names (r : Roles) : List String := (r.named.filter (·.2)).map (·.1)

/-- The roles as a number with one binary digit for each, in the order of their names. -/
def mask (r : Roles) : Nat := r.named.foldr (fun (_, isPlayed) n ↦ isPlayed.toNat + 2 * n) 0

end Roles

structure State where
  /-- The markers that the state stands for. -/
  markers : MarkerSet
  /-- Whether a match must not be found before a character has been read. -/
  mustAdvance : Bool
  /-- The characters that the state can be entered on, which all classes among the markers have;
  empty if there are none. -/
  chars : CodePointSet
  /-- The transitions that leave the state, in order of priority. -/
  out : Array Nat := #[]
  /-- The transitions that enter the state. -/
  into : Array Nat := #[]
  /-- The parts that the state plays. -/
  roles : Roles := {}
deriving DecidableEq, Inhabited

namespace State

def isFinal (s : State) : Bool := s.roles.anchoredFinal || s.roles.unanchoredFinal

def isInitial (s : State) : Bool := s.roles.anchoredInitial || s.roles.unanchoredInitial

end State

structure Transition where
  /-- The state that it leaves. -/
  source : Nat
  /-- The state that it enters. -/
  target : Nat
  /-- The characters that it is taken on. -/
  on : CodePointSet
  /-- The slots that it sets and clears. -/
  boundaries : Boundaries := {}
  /-- The capture group left last on the way. -/
  lastGroup : Option Nat := none
deriving DecidableEq, Inhabited

/-- Initial states and the transitions to them from the dummy, by the length of the lead-in. -/
structure Entries where
  /-- The initial states. -/
  states : Array Nat
  /-- The transitions that enter them. -/
  transitions : Array Nat
deriving DecidableEq, Inhabited

/-- A finished automaton. -/
structure Automaton where
  /-- The states by number. -/
  states : Array State
  /-- The transitions by number. -/
  transitions : Array Transition
  /-- The state in front of the initial states. -/
  dummy : Nat
  /-- The final state of matches that must end at the end of the text. -/
  anchoredFinal : Nat
  /-- The final state of all other matches. -/
  unanchoredFinal : Nat
  /-- The transition from the anchored final state back to the dummy. -/
  anchoredReverseEntry : Nat
  /-- The transition from the other final state back to the dummy. -/
  unanchoredReverseEntry : Nat
  /-- The initial states of a search from anywhere. -/
  unanchored : Entries
  /-- The initial states of a search from the start of the text, where they are others. -/
  ownAnchored : Option Entries
  /-- If a match must advance, the state from where any match is good again. -/
  advanced : Option Nat
  /-- The transition by which a search skips a character. -/
  loopBack : Nat
  /-- The states within the lead-in that no state leads back to. -/
  hardPrefixStates : Array Nat
deriving DecidableEq, Inhabited

namespace Automaton

def state (a : Automaton) (id : Nat) : State := a.states.getD id default

def transition (a : Automaton) (id : Nat) : Transition := a.transitions.getD id default

/-- The initial states of a search from the start of the text. -/
def anchored (a : Automaton) : Entries := a.ownAnchored.getD a.unanchored

/-- Whether it makes no difference where a search starts. -/
def isAliased (a : Automaton) : Bool := a.ownAnchored.isNone

end Automaton

end PatternAutomata
