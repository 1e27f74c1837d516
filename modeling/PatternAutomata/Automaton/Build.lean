import Std.Data.HashMap
import PatternAutomata.Automaton.Basic
import PatternAutomata.Automaton.Bound
import PatternAutomata.Settings.Flags
import PatternAutomata.Settings.Options
import PatternAutomata.Step.Partition

/-!
# Building the automaton of a tree

The fixed states come first. Then states are expanded in the order in which they were made: the
branches of the step from a state become its transitions, and a branch that leads to markers for
which there is no state yet makes one. Final states are never expanded. When nothing is left to
expand, the loop-backs are added, by which a search goes on to later starting places, and last each
state is told which transitions enter it.

Every new state and every new transition draws its number from a counter, and the first refusal ends
everything.

Only the states that a run starts from may have to advance. Whatever has been reached by reading a
character, or by skipping one, may find a match at once.
-/

namespace PatternAutomata

def Options.stateBound (o : Options) : Bound := ⟨.ofString "NFA explosion", o.maxState⟩

def Options.transitionBound (o : Options) : Bound :=
  ⟨.ofString "NFA transition explosion", o.maxTransition⟩

/-- The characters that all classes among some markers have, if there are any classes. -/
def Tree.commonChars (t : Tree) (markers : MarkerSet) : CodePointSet :=
  (markers.toList.foldl (fun (common : Option CodePointSet) marker ↦
    match (t.node marker).kind.chars? with
    | none => common
    | some set => some (match common with
      | none => set
      | some common => common.intersect set)) none).getD .empty

def State.key (s : State) : MarkerSet × Bool := (s.markers, s.mustAdvance)

/-- An automaton under construction, with the counters that its numbers are drawn from. A number is
drawn for each state and each transition there is, and for no other. -/
structure Assembly (o : Options) where
  /-- The states so far. -/
  states : Array State := #[]
  /-- The transitions so far. -/
  transitions : Array Transition := #[]
  /-- The number of the state of each set of markers, with and without having to advance. -/
  table : Std.HashMap (MarkerSet × Bool) Nat := {}
  stateNumbers : Counter := { bound := o.stateBound }
  transitionNumbers : Counter := { bound := o.transitionBound }
  stateNumbers_eq : stateNumbers = ⟨o.stateBound, states.size⟩ := by rfl
  transitionNumbers_eq : transitionNumbers = ⟨o.transitionBound, transitions.size⟩ := by rfl

namespace Assembly

variable {o : Options}

/-! ## States and transitions -/

def modifyState (m : Assembly o) (id : Nat) (f : State → State) : Assembly o :=
  { m with
    states := m.states.modify id f
    stateNumbers_eq := by rw [m.stateNumbers_eq, Array.size_modify] }

/-- Adds roles to a state. -/
def assign (m : Assembly o) (id : Nat) (f : Roles → Roles) : Assembly o :=
  m.modifyState id fun s ↦ { s with roles := f s.roles }

/-- Adds a state under a number that has been drawn for it. -/
def withState (m : Assembly o) (id : Nat) (s : State) : Assembly o :=
  { m with
    states := m.states.push s
    table := m.table.insert s.key id
    stateNumbers := m.stateNumbers.next.2
    stateNumbers_eq := by rw [m.stateNumbers_eq, Array.size_push]; rfl }

/-- The state of a set of markers, which is made if there is none; and whether it was. -/
def stateOf (t : Tree) (m : Assembly o) (markers : MarkerSet) (mustAdvance : Bool) :
    Except Explosion (Nat × Bool × Assembly o) :=
  match m.table[(markers, mustAdvance)]? with
  | some id => return (id, false, m)
  | none => do
    let id ← m.stateNumbers.next.1
    return (id, true, m.withState id { markers, mustAdvance, chars := t.commonChars markers })

def withTransition (m : Assembly o) (t : Transition) : Assembly o :=
  { m with
    transitions := m.transitions.push t
    transitionNumbers := m.transitionNumbers.next.2
    transitionNumbers_eq := by rw [m.transitionNumbers_eq, Array.size_push]; rfl }

/-- Adds a transition, and tells its number. -/
def connect (m : Assembly o) (t : Transition) : Except Explosion (Nat × Assembly o) := do
  let id ← m.transitionNumbers.next.1
  return (id, m.withTransition t)

/-- Adds a transition that is taken on all characters and leaves all slots alone. -/
def connectFreely (t : Tree) (m : Assembly o) (source target : Nat) :
    Except Explosion (Nat × Assembly o) :=
  m.connect { source, target, on := t.encoding.fullSet }

/-- Puts a transition behind the others that leave a state. -/
def addOut (m : Assembly o) (source transition : Nat) : Assembly o :=
  m.modifyState source fun s ↦ { s with out := s.out.push transition }

/-! ## Fixed states -/

/-- Adds the initial states for each length of the lead-in, and the entries to them. -/
def addEntries (t : Tree) (dummy : Nat) (anchored : Bool) (m : Assembly o) :
    Except Explosion (Entries × Assembly o) :=
  (List.range (t.leadLength + 1)).foldlM (fun (entries, m) lead ↦ do
    let (state, _, m) ← m.stateOf t (t.markers [t.start anchored lead]) o.mustAdvance
    let m := m.assign state fun r ↦
      if anchored then { r with anchoredInitial := true }
      else { r with unanchoredInitial := true, hasPrefix := r.hasPrefix || 0 < lead }
    let (entry, m) ← m.connectFreely t dummy state
    return (⟨entries.states.push state, entries.transitions.push entry⟩, m)) (⟨#[], #[]⟩, m)

/-- The numbers of the fixed states and transitions. -/
structure Fixed where
  /-- The state in front of the initial states. -/
  dummy : Nat
  /-- The final state of matches that must end at the end of the text. -/
  anchoredFinal : Nat
  /-- The final state of all other matches. -/
  unanchoredFinal : Nat
  /-- The transition from the anchored final state back to the dummy. -/
  anchoredReverseEntry : Nat
  /-- The transition from the other final state back to the dummy. -/
  unanchoredReverseEntry : Nat
  /-- If a match must advance, the state from where any match is good again. -/
  advanced : Option Nat
  /-- The initial states of a search from anywhere. -/
  unanchored : Entries
  /-- The initial states of a search from the start of the text, where they are others. -/
  ownAnchored : Option Entries

/-- The entries to all initial states, those of anchored searches first. -/
def Fixed.entries (f : Fixed) : Array Nat :=
  match f.ownAnchored with
  | none => f.unanchored.transitions
  | some own => own.transitions ++ f.unanchored.transitions

/-- The state that a match may be found at once from, if others have to advance. -/
def addAdvanced (t : Tree) (m : Assembly o) : Except Explosion (Option Nat × Assembly o) := do
  if o.mustAdvance then
    let (advanced, _, m) ← m.stateOf t (t.markers [t.start false 0]) false
    return (some advanced, m)
  else return (none, m)

/-- The initial states of anchored searches, if they are not those of other searches. -/
def addOwnAnchored (t : Tree) (dummy : Nat) (m : Assembly o) :
    Except Explosion (Option Entries × Assembly o) := do
  if t.carets.isEmpty then return (none, m)
  else
    let (own, m) ← m.addEntries t dummy true
    return (some own, m)

/-- Makes the fixed states and transitions. -/
def start (t : Tree) (o : Options) : Except Explosion (Fixed × Assembly o) := do
  let m : Assembly o := {}
  let (dummy, _, m) ← m.stateOf t (t.markers [t.wrappedRoot]) o.mustAdvance
  let (anchoredFinal, _, m) ← m.stateOf t (t.markers t.dollars.toList) false
  let m := m.assign anchoredFinal ({ · with anchoredFinal := true })
  let (unanchoredFinal, _, m) ← m.stateOf t (t.markers [t.matchFound]) false
  let m := m.assign unanchoredFinal ({ · with unanchoredFinal := true })
  let (anchoredReverseEntry, m) ← m.connectFreely t anchoredFinal dummy
  let (unanchoredReverseEntry, m) ← m.connectFreely t unanchoredFinal dummy
  let (advanced, m) ← m.addAdvanced t
  let (unanchored, m) ← m.addEntries t dummy false
  let (ownAnchored, m) ← m.addOwnAnchored t dummy
  let f : Fixed := ⟨dummy, anchoredFinal, unanchoredFinal, anchoredReverseEntry,
    unanchoredReverseEntry, advanced, unanchored, ownAnchored⟩
  return (f, m.modifyState dummy fun s ↦
    { s with out := f.entries, into := #[anchoredReverseEntry, unanchoredReverseEntry] })

/-! ## Expansion -/

/-- The slots that some successors together set and clear. -/
def boundariesOf (successors : List Successor) : Boundaries :=
  successors.foldl (fun b s ↦ b.union s.boundaries) {}

/-- The role of the final state of a branch that has passed look-behind assertions. -/
def finalRole (t : Tree) (markers : MarkerSet) (r : Roles) : Roles :=
  if markers.contains t.matchFound then { r with unanchoredFinal := true }
  else { r with anchoredFinal := true }

/-- Adds the transition of a branch, and the state that it leads to if there is none yet. The
states still to be expanded are kept in a queue, which a new state joins unless it is final. -/
def addBranch (t : Tree) (source : Nat) (successors : Array Successor) :
    Array Nat × Assembly o → Branch → Except Explosion (Array Nat × Assembly o)
  | (queue, m), b => do
    let taken := b.contributors.toList.map (successors.getD · default)
    let markers := b.target t successors
    let (target, isNew, m) ← m.stateOf t markers false
    let m := if isNew && b.isFinal then m.assign target (finalRole t markers) else m
    let queue := if isNew && !b.isFinal then queue.push target else queue
    let (transition, m) ← m.connect {
      source, target
      on := b.on
      boundaries := boundariesOf taken
      lastGroup := taken.findSome? (·.lastGroup) }
    return (queue, m.addOut source transition)

def expand (t : Tree) (queue : Array Nat) (m : Assembly o) (id : Nat) :
    Except Explosion (Array Nat × Assembly o) :=
  let s := m.states.getD id default
  let successors := t.step s.markers s.mustAdvance
  (Branch.ofSuccessors t successors).foldlM (addBranch t id successors) (queue, m)

/-- Expands the states of a queue from a place in it onwards, and those that join it meanwhile. No
state joins twice, so there are never more than the bound on states allows. -/
def expandAll (t : Tree) : Nat → Nat → Array Nat → Assembly o → Except Explosion (Assembly o)
  | 0, _, _, m => return m
  | fuel + 1, place, queue, m =>
    match queue[place]? with
    | none => return m
    | some id =>
      match expand t queue m id with
      | .error e => throw e
      | .ok (queue, m) => expandAll t fuel (place + 1) queue m

/-! ## Loop-backs and predecessors -/

/-- Adds the loop-backs: a longer lead may become a shorter one by skipping a character, an initial
state that has to advance may become the one that has not, and where no lead is left the search
skips characters one by one. The last of these leaves no state; the search as a whole takes it. -/
def addLoopBacks (t : Tree) (f : Fixed) (m : Assembly o) : Except Explosion (Nat × Assembly o) := do
  let states := f.unanchored.states
  let skip (m : Assembly o) (source target : Nat) : Except Explosion (Assembly o) := do
    let (id, m) ← m.connectFreely t source target
    return m.addOut source id
  let m ← (List.range t.leadLength).foldlM (fun m lead ↦
    skip m (states.getD (lead + 1) 0) (states.getD lead 0)) m
  let shortest := states.getD 0 0
  match f.advanced with
  | none => m.connectFreely t shortest shortest
  | some advanced =>
    let m ← skip m shortest advanced
    m.connectFreely t advanced advanced

/-- Tells the states that a state leads to by which transitions it does. A state within the lead-in
tells none, unless the search is for one place only, and is noted instead. -/
def linkFrom (t : Tree) (fl : Flags) (dummy : Nat) :
    Array Nat × Assembly o → Nat → Array Nat × Assembly o
  | (hardPrefixStates, m), id =>
    let s := m.states.getD id default
    if id = dummy then (hardPrefixStates, m)
    else if fl.sticky || t.hardPrefix.isDisjoint s.markers then
      (hardPrefixStates, s.out.foldl (fun m transition ↦
        m.modifyState (m.transitions.getD transition default).target fun s ↦
          { s with into := s.into.push transition }) m)
    else (hardPrefixStates.push id, m.assign id ({ · with hardPrefix := true }))

/-- Tells all states by which transitions they are entered. -/
def linkAll (t : Tree) (fl : Flags) (dummy : Nat) (m : Assembly o) : Array Nat × Assembly o :=
  (List.range m.states.size).foldl (linkFrom t fl dummy) (#[], m)

end Assembly

/-! ## The automaton -/

/-- The states that expansion starts with. -/
def Assembly.Fixed.queue (f : Fixed) : Array Nat :=
  f.unanchored.states ++ f.advanced.toArray ++
    match f.ownAnchored with
    | none => #[]
    | some own => own.states

/-- The automaton of a tree, unless it outgrows the bounds. -/
def Automaton.ofTree (t : Tree) (o : Options) (fl : Flags) : Except Explosion Automaton := do
  let (f, m) ← Assembly.start t o
  let m ← Assembly.expandAll t (o.maxState + 1) 0 f.queue m
  let (loopBack, m) ← m.addLoopBacks t f
  let (hardPrefixStates, m) := m.linkAll t fl f.dummy
  return {
    states := m.states
    transitions := m.transitions
    dummy := f.dummy
    anchoredFinal := f.anchoredFinal
    unanchoredFinal := f.unanchoredFinal
    anchoredReverseEntry := f.anchoredReverseEntry
    unanchoredReverseEntry := f.unanchoredReverseEntry
    unanchored := f.unanchored
    ownAnchored := f.ownAnchored
    advanced := f.advanced
    loopBack, hardPrefixStates }

end PatternAutomata
