import PatternAutomata.Step.Walk

/-!
# Steps

A step goes from a set of markers to all places that can be reached without reading a character.
The markers are walked from in ascending order. Markers that nothing leads on from, such as those
of final states and those that only say how far a look-behind assertion has got, are skipped.

Look-behind assertions are matched alongside: if a character can be read at all, then it may be the
first one of any look-behind body, and the next one of each body that is under way. The classes
concerned come last. They are no ways to go on by themselves.
-/

namespace PatternAutomata

namespace Tree

/-- Whether paths lead on from a marker, and if so, whether they start at the start of the text. -/
def origin? (t : Tree) (marker : Nat) : Option Bool :=
  match (t.node marker).kind with
  | .chars _ none => some false
  | .marker anchored _ => some anchored
  | _ => none

def walk (t : Tree) (held : MarkerSet) (mustAdvance : Bool) : Walk :=
  held.toList.foldl (fun w marker ↦
    match t.origin? marker with
    | none => w
    | some isAtStart => w.fromMarker { tree := t, held, mustAdvance, isAtStart } marker) {}

/-- The classes of a look-behind body that the next character may match: the first one, and each
one whose predecessor is held. -/
def bodyProgress (t : Tree) (held : MarkerSet) (lookBehind : Nat) : List Nat :=
  let body := t.body lookBehind
  (List.range body.size).filterMap fun i ↦
    if i = 0 || held.contains (body.getD (i - 1) 0) then body[i]? else none

/-- Puts the classes that keep track of look-behind assertions behind the ways to go on, unless no
character can be read. -/
def track (t : Tree) (held : MarkerSet) (found : Array Successor) : Array Successor :=
  if found.all (·.isFinal t) then found
  else
    t.lookBehinds.foldl (fun found lookBehind ↦
      (t.bodyProgress held lookBehind).foldl (fun found target ↦ found.push { target }) found) found

/-- The ways to go on from a set of markers, in order of priority, followed by the classes that
keep track of look-behind assertions. -/
def step (t : Tree) (held : MarkerSet) (mustAdvance : Bool) : Array Successor :=
  t.track held (t.walk held mustAdvance).found

end Tree

end PatternAutomata
