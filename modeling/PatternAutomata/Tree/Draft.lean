import PatternAutomata.Tree.Basic

/-!
# Trees made by hand

A draft is an arena that is filled one call at a time, by someone who may call anything. Every call
is checked first: it names nodes that exist and are of the right kind, it places only what has no
place yet, and it never places a node below itself or into the body of a look-behind assertion,
whose length is settled when the assertion is made. A call that fails any of this is refused and
changes nothing. So the arena stays a forest, and finishing it gives a tree that can be walked.
-/

namespace PatternAutomata

/-- An arena that is being filled by hand. -/
structure Draft where
  /-- The nodes so far. -/
  arena : Arena := {}
  /-- Whether all capture numbers that were asked for can belong to a group. -/
  capturesAreNumbers : Bool := true
deriving Inhabited

namespace Draft

def add (d : Draft) (kind : NodeKind) : Draft := { d with arena := d.arena.add kind }

/-- Adds a group with a capture number. The number -1 stands for a group that does not capture; no
other number below zero makes sense, and a draft with one can never be finished. -/
def addCapture (d : Draft) (capture : Int) : Draft where
  arena := d.arena.add (.group { capture := if capture < 0 then none else some capture.toNat })
  capturesAreNumbers := d.capturesAreNumbers && -1 ≤ capture

/-! ## Checks -/

def has (d : Draft) (id : Nat) : Bool := id < d.arena.size

def node (d : Draft) (id : Nat) : Node := d.arena.node id

/-- Whether a node has no place yet. -/
def isLoose (d : Draft) (id : Nat) : Bool := (d.node id).parent.isNone

/-- Whether `child` may be placed below `parent`. -/
def mayPlace (d : Draft) (parent child : Nat) : Bool :=
  d.isLoose child &&
    (d.arena.ancestors parent).all fun id ↦ id != child && !(d.node id).kind.isLookBehind

/-- Whether a group can be the body of a look-behind assertion: one alternative, all of whose terms
are classes. -/
def isBody (d : Draft) (id : Nat) : Bool :=
  (d.node id).kind.isGroup && (d.node id).children.size == 1 &&
    (d.arena.bodyTerms id).all fun term ↦ (d.node term).kind.isChars

/-- Whether all captures are below a number of capture groups. -/
def capturesBelow (d : Draft) (captureGroups : Nat) : Bool :=
  d.capturesAreNumbers && d.arena.nodes.all fun n ↦
    match n.kind.group? with
    | some { capture := some c, .. } => c < captureGroups
    | _ => true

/-! ## Checked calls -/

def addLookBehind? (d : Draft) (body : Nat) : Option Draft :=
  if d.has body && d.isLoose body && d.isBody body then
    some { d with arena := d.arena.addLookBehind body }
  else none

/-- Places a sequence as the last alternative of a group. -/
def addAlternative? (d : Draft) (group sequence : Nat) : Option Draft :=
  if d.has group && d.has sequence && (d.node group).kind.isGroup &&
      (d.node sequence).kind.isSequence && d.mayPlace group sequence then
    some { d with arena := d.arena.link group sequence }
  else none

/-- Places a node as the last term of a sequence. -/
def addTerm? (d : Draft) (sequence term : Nat) : Option Draft :=
  if d.has sequence && d.has term && (d.node sequence).kind.isSequence &&
      (d.node term).kind.isTerm && d.mayPlace sequence term then
    some { d with arena := d.arena.link sequence term }
  else none

def copy? (d : Draft) (id : Nat) : Option Draft :=
  if d.has id then some { d with arena := d.arena.copy id } else none

/-- The largest number of capture groups a draft may be finished with. -/
def maxCaptureGroups : Nat := 1000

def finish? (d : Draft) (encoding : Encoding) (root captureGroups : Nat) : Option Tree :=
  if d.has root && (d.node root).kind.isGroup && d.isLoose root &&
      1 ≤ captureGroups && captureGroups ≤ maxCaptureGroups && d.capturesBelow captureGroups then
    some (d.arena.finish encoding root captureGroups)
  else none

end Draft

end PatternAutomata
