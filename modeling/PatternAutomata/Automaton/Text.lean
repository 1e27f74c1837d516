import PatternAutomata.Automaton.Basic
import PatternAutomata.CodePoint.Text
import PatternAutomata.Tree.Basic
import PatternAutomata.Tree.Label

/-!
# The written form of an automaton

An automaton is written one state and one transition to a line, under a few lines that name the
fixed states. A state is shown by the labels of its markers, and what a state or a transition does
not have is left out of its line.
-/

namespace PatternAutomata

def numberList (ids : Array Nat) : String := ", ".intercalate (ids.toList.map toString)

namespace State

/-- The labels of the markers of a state. -/
def label (s : State) (t : Tree) : String :=
  " ".intercalate (s.markers.toList.map t.arena.label)

def line (s : State) (t : Tree) (id : Nat) : String :=
  "  " ++ toString id ++ (if s.mustAdvance then " (must advance)" else "") ++
    ": \x7b" ++ s.label t ++ "\x7d" ++ String.join (s.roles.names.map (" " ++ ·)) ++
    (if s.chars.isEmpty then "" else " on " ++ s.chars.toString) ++
    " out [" ++ numberList s.out ++ "] in [" ++ numberList s.into ++ "]\n"

end State

namespace Transition

/-- What a transition is taken on and what it does to the slots. -/
def label (t : Transition) : String :=
  t.on.toString ++ (if t.boundaries.isEmpty then "" else " " ++ t.boundaries.toString)

def line (t : Transition) (id : Nat) : String :=
  "  " ++ toString id ++ ": " ++ toString t.source ++ " -> " ++ toString t.target ++ " " ++
    t.label ++
    (match t.lastGroup with
    | none => ""
    | some g => " last group " ++ toString g) ++ "\n"

end Transition

namespace Automaton

/-- The lines that name the fixed states. -/
def heading (a : Automaton) : String :=
  "dummy initial state: " ++ toString a.dummy ++ "\n" ++
  "unanchored initial states: [" ++ numberList a.unanchored.states ++ "]\n" ++
  "anchored initial states: [" ++ numberList a.anchored.states ++ "]" ++
    (if a.isAliased then " (same as unanchored)" else "") ++ "\n" ++
  (match a.advanced with
  | none => ""
  | some id => "advanced initial state: " ++ toString id ++ "\n") ++
  "final states: anchored " ++ toString a.anchoredFinal ++
    " unanchored " ++ toString a.unanchoredFinal ++ "\n" ++
  "initial loop-back: " ++ toString a.loopBack ++ "\n"

/-- The written form of an automaton and of the tree that it was built from. -/
def text (a : Automaton) (t : Tree) : String :=
  a.heading ++
  "states:\n" ++ String.join (a.states.toList.mapIdx fun id s ↦ s.line t id) ++
  "transitions:\n" ++ String.join (a.transitions.toList.mapIdx fun id tr ↦ tr.line id)

end Automaton

end PatternAutomata
