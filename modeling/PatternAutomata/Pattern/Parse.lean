import PatternAutomata.Pattern.Event
import PatternAutomata.Settings.Options
import PatternAutomata.Tree.Basic
import PatternAutomata.Tree.Repeat

/-!
# From events to a tree

The events of a pattern are taken one by one. The groups that are open at the time are kept on a
list, innermost first, each with the sequence that is being filled; the pattern as a whole is the
outermost and cannot be closed. Nodes are made in the order in which the pattern is read, so the
number of a node tells where in the pattern it comes from.

The first event that cannot be taken is the failure that is reported.
-/

namespace PatternAutomata

/-! ## Atoms -/

/-- The set of all characters that do not end a line. -/
def CodePointSet.notLineEnd (encoding : Encoding) : CodePointSet :=
  (ofRanges [.single 0x0a, .single 0x0d, ⟨0x2028, 0x2029⟩]).complement encoding.maxCodePoint

/-- The node of an atom. No class goes beyond the encoding, so a character that the encoding
does not have gives a class without members. -/
def Atom.kind (encoding : Encoding) : Atom → NodeKind
  | any => .chars ((CodePointSet.notLineEnd encoding).intersect encoding.fullSet) none
  | literal c => .chars ((CodePointSet.single c).intersect encoding.fullSet) none
  | escape e => .chars (e.set encoding) none
  | bracket c => .chars (c.set encoding) none
  | caret => .caret
  | dollar => .dollar

/-! ## Open groups -/

/-- A group whose end has not been read yet. -/
structure OpenGroup where
  /-- What the group is. For a look-behind assertion the node is that of the body. -/
  kind : GroupKind
  /-- The node of the group. -/
  group : Nat
  /-- The alternative that is being filled. -/
  sequence : Nat

/-- A tree in the making. -/
structure TreeBuilder where
  /-- The nodes so far. -/
  arena : Arena
  /-- The number of the next capture group. -/
  captures : Nat
  /-- The innermost group that is open. -/
  current : OpenGroup
  /-- The groups around it, innermost first. -/
  outer : List OpenGroup

namespace TreeBuilder

/-- The node that a group starts with. -/
def groupNode (captures : Nat) : GroupKind → NodeKind
  | .capture => .group { capture := some captures }
  | .plain | .lookBehind => .group {}

section Programs

open MonadWatch

variable {m : Type → Type} [Monad m] [MonadWatch m]

def openAlternativeM (arena : Arena) (group : Nat) : m Arena := do
  let sequence := arena.size
  let arena ← see (arena.add .sequence)
  see (arena.link group sequence)

def openAlternative (arena : Arena) (group : Nat) : Arena := Id.run (openAlternativeM arena group)

theorem openAlternative_eq (arena : Arena) (group : Nat) :
    openAlternative arena group = (arena.add .sequence).link group arena.size := rfl

/-- The state before anything has been read: capture group 0 is open. -/
def startM : m TreeBuilder := do
  let arena ← see (({} : Arena).add (groupNode 0 .capture))
  let arena ← openAlternativeM arena 0
  return { arena, captures := 1, current := ⟨.capture, 0, 1⟩, outer := [] }

def start : TreeBuilder := Id.run startM

theorem start_eq : start = {
    arena := openAlternative (({} : Arena).add (groupNode 0 .capture)) 0
    captures := 1
    current := ⟨.capture, 0, 1⟩
    outer := [] } := rfl

/-- Places a node in the current sequence, and fails if there is no room for that. -/
def tryPlaceM (limit : Nat) (b : TreeBuilder) (atom : Nat) (q : Quantifier) :
    m (Except ReadError Arena) := do
  match ← b.arena.placeM limit b.current.sequence atom q with
  | none => return .error (.treeExplosion limit)
  | some arena => return .ok arena

/-- Places a node in the current sequence as its quantifier says. -/
def placeM (limit : Nat) (b : TreeBuilder) (atom : Nat) (q : Quantifier) :
    m (Except ReadError TreeBuilder) := do
  let placed ← placing q (b.tryPlaceM limit atom q)
  return placed.map fun arena ↦ { b with arena }

def place (limit : Nat) (b : TreeBuilder) (atom : Nat) (q : Quantifier) :
    Except ReadError TreeBuilder :=
  Id.run (b.placeM limit atom q)

theorem place_eq (limit : Nat) (b : TreeBuilder) (atom : Nat) (q : Quantifier) :
    b.place limit atom q =
      match b.arena.place limit b.current.sequence atom q with
      | none => .error (.treeExplosion limit)
      | some arena => .ok { b with arena } := by
  change Except.map _ (match b.arena.place limit b.current.sequence atom q with
    | none => (.error (.treeExplosion limit) : Except ReadError Arena)
    | some arena => .ok arena) = _
  cases b.arena.place limit b.current.sequence atom q <;> rfl

theorem exists_of_place_eq_ok {limit atom : Nat} {b b' : TreeBuilder} {q : Quantifier}
    (h : b.place limit atom q = .ok b') : ∃ arena,
      b.arena.place limit b.current.sequence atom q = some arena ∧ b' = { b with arena } := by
  rw [place_eq] at h
  split at h
  · cases h
  · next arena harena => exact ⟨arena, harena, (Except.ok.inj h).symm⟩

/-- What is wrong with a group that is about to end: the body of a look-behind assertion must be
one sequence of characters. -/
def fault? (b : TreeBuilder) : Option Fault :=
  if b.current.kind = .lookBehind then
    if (b.arena.node b.current.group).children.size ≠ 1 then some .lookBehindAlternatives
    else if (b.arena.bodyTerms b.current.group).all fun t ↦ (b.arena.node t).kind.isChars then none
    else some .lookBehindTerms
  else none

/-- The node that stands for a group once it has ended, which for a look-behind assertion is a new
one above its body. -/
def endGroupM (arena : Arena) (g : OpenGroup) : m (Nat × Arena) :=
  if g.kind = .lookBehind then do
    let ended ← arena.addLookBehindM g.group
    return (arena.size, ended)
  else return (g.group, arena)

def endGroup (arena : Arena) (g : OpenGroup) : Nat × Arena := Id.run (endGroupM arena g)

theorem endGroup_eq (arena : Arena) (g : OpenGroup) : endGroup arena g =
    if g.kind = .lookBehind then (arena.size, arena.addLookBehind g.group)
    else (g.group, arena) := rfl

def takeM (o : Options) (b : TreeBuilder) : Event → m (Except ReadError TreeBuilder)
  | .atom atom q => do
    let term := b.arena.size
    let arena ← see (b.arena.add (atom.kind o.encoding))
    { b with arena }.placeM o.maxTreeSize term q
  | .openGroup kind => do
    let group := b.arena.size
    let arena ← see (b.arena.add (groupNode b.captures kind))
    let arena ← openAlternativeM arena group
    return .ok {
      arena
      captures := if kind = .capture then b.captures + 1 else b.captures
      current := ⟨kind, group, group + 1⟩
      outer := b.current :: b.outer }
  | .bar => do
    let sequence := b.arena.size
    let arena ← openAlternativeM b.arena b.current.group
    return .ok { b with arena, current := { b.current with sequence } }
  | .closeGroup left q =>
    match b.outer with
    | [] => return .error (.located .unmatchedClose left)
    | around :: outer =>
      match b.fault? with
      | some fault => return .error (.located fault left)
      | none => do
        let (term, arena) ← endGroupM b.arena b.current
        { b with arena, current := around, outer }.placeM o.maxTreeSize term q
  | .failure e => return .error e

def take (o : Options) (b : TreeBuilder) (e : Event) : Except ReadError TreeBuilder :=
  Id.run (b.takeM o e)

theorem take_openGroup (o : Options) (b : TreeBuilder) (kind : GroupKind) :
    b.take o (.openGroup kind) = .ok {
      arena := openAlternative (b.arena.add (groupNode b.captures kind)) b.arena.size
      captures := if kind = .capture then b.captures + 1 else b.captures
      current := ⟨kind, b.arena.size, b.arena.size + 1⟩
      outer := b.current :: b.outer } := rfl

theorem take_bar (o : Options) (b : TreeBuilder) :
    b.take o .bar = .ok { b with
      arena := openAlternative b.arena b.current.group
      current := { b.current with sequence := b.arena.size } } := rfl

theorem take_closeGroup (o : Options) (b : TreeBuilder) (left : Bytes) (q : Quantifier) :
    b.take o (.closeGroup left q) =
      match b.outer with
      | [] => .error (.located .unmatchedClose left)
      | around :: outer =>
        match b.fault? with
        | some fault => .error (.located fault left)
        | none => { b with
          arena := (endGroup b.arena b.current).2
          current := around
          outer }.place o.maxTreeSize (endGroup b.arena b.current).1 q := rfl

/-- Takes events one after another, until one of them cannot be taken. -/
@[specialize]
def takeAllM (o : Options) : List Event → TreeBuilder → m (Except ReadError TreeBuilder)
  | [], b => return .ok b
  | e :: events, b => do
    match ← b.takeM o e with
    | .error e => return .error e
    | .ok b => takeAllM o events b

theorem run_takeAllM (o : Options) (events : List Event) (b : TreeBuilder) :
    Id.run (takeAllM o events b) = events.foldlM (take o) b := by
  induction events generalizing b with
  | nil => rfl
  | cons e events ih =>
    rw [List.foldlM_cons]
    change (match b.take o e with
      | .error e => Except.error e
      | .ok b => Id.run (takeAllM o events b)) = _
    cases b.take o e with
    | error e => rfl
    | ok b => exact ih b

/-- Ends the pattern, in which all groups must have ended. A look-behind assertion of which the end
is missing is made before that is found out. -/
def finishM (o : Options) (b : TreeBuilder) : m (Except ReadError Tree) :=
  match b.outer with
  | [] => return .ok (b.arena.finish o.encoding b.current.group b.captures)
  | _ :: _ =>
    match b.fault? with
    | some fault => return .error (.located fault [])
    | none => do
      let _ ← endGroupM b.arena b.current
      return .error (.located .missingClose [])

def finish (o : Options) (b : TreeBuilder) : Except ReadError Tree := Id.run (b.finishM o)

theorem finish_eq (o : Options) (b : TreeBuilder) :
    b.finish o =
      match b.outer with
      | [] => .ok (b.arena.finish o.encoding b.current.group b.captures)
      | _ :: _ => .error (.located (b.fault?.getD .missingClose) []) := by
  unfold finish finishM
  cases b.outer with
  | nil => rfl
  | cons around outer => cases b.fault? <;> rfl

end Programs

end TreeBuilder

/-! ## Parsing -/

/-- The tree of the events of a pattern. -/
def Tree.ofEventsM {m : Type → Type} [Monad m] [MonadWatch m] (o : Options)
    (events : List Event) : m (Except ReadError Tree) := do
  let b ← TreeBuilder.startM
  match ← TreeBuilder.takeAllM o events b with
  | .error e => return .error e
  | .ok b => b.finishM o

def Tree.ofEvents (o : Options) (events : List Event) : Except ReadError Tree :=
  Id.run (Tree.ofEventsM o events)

theorem Tree.ofEvents_eq (o : Options) (events : List Event) :
    Tree.ofEvents o events =
      match events.foldlM (TreeBuilder.take o) .start with
      | .error e => .error e
      | .ok b => b.finish o := by
  rw [← TreeBuilder.run_takeAllM]
  rfl

/-- The tree of a pattern, which ends in front of its first zero byte. Faults are placed by the
number of bytes that have been read. -/
def Tree.ofPattern (o : Options) (pattern : Bytes) : Except (PatternError Nat) Tree :=
  let text := pattern.untilZero
  (ofEvents o (Event.read text)).mapError (·.map (text.length - ·.length))

end PatternAutomata
