import PatternAutomata.Automaton.Text

/-!
# Automata as graphs

The automaton in the DOT language: a node for every state, an edge for every transition that leaves
a state, and a dashed edge for the loop-back that the search as a whole takes. A label in the DOT
language stands between quotes, so quotes and backslashes within it are escaped.
-/

namespace PatternAutomata

/-- A label as it stands between quotes. -/
def escapeLabel (label : String) : String :=
  String.ofList (label.toList.flatMap fun c ↦ if c = '"' || c = '\\' then ['\\', c] else [c])

namespace Automaton

def shape (a : Automaton) (id : Nat) (s : State) : String :=
  if id = a.dummy then "point" else if s.isFinal then "doublecircle" else "circle"

def nodeLine (a : Automaton) (t : Tree) (id : Nat) (s : State) : String :=
  "  s" ++ toString id ++ " [shape=" ++ a.shape id s ++ ", label=\"" ++ toString id ++ "\\n" ++
    escapeLabel (s.label t) ++ "\"];\n"

def edgeLine (tr : Transition) : String :=
  "  s" ++ toString tr.source ++ " -> s" ++ toString tr.target ++ " [label=\"" ++
    escapeLabel tr.label ++ "\"];\n"

def loopBackLine (a : Automaton) : String :=
  let tr := a.transition a.loopBack
  "  s" ++ toString tr.source ++ " -> s" ++ toString tr.target ++ " [style=dashed];\n"

def graph (a : Automaton) (t : Tree) : String :=
  "digraph NFA \x7b\n  rankdir=LR;\n" ++
  String.join (a.states.toList.mapIdx (a.nodeLine t)) ++
  String.join (a.states.toList.flatMap fun s ↦
    s.out.toList.map fun id ↦ edgeLine (a.transition id)) ++
  a.loopBackLine ++ "\x7d\n"

end Automaton

end PatternAutomata
