import PatternAutomata.Encoding
import PatternAutomata.MarkerSet
import PatternAutomata.Tree.Measure

/-!
# Finished trees

A tree is finished by naming its root, which becomes capture group 0. The root is then wrapped up
in a sequence that lets an automaton start early enough for every look-behind assertion:

`u_L a_L p  u_(L-1) a_(L-1) p  …  u_1 a_1 p  u_0 a_0  root  match-found`

Each `p` is a class of all characters. To start at `u_i` is to read `i` characters before the
pattern itself, and to start at `a_i` is the same with the start of the text in front of them. The
lead-in is as long as the longest stretch that some look-behind assertion reaches back over the
start of the pattern. The classes of the lead-in are the *hard prefix*.
-/

namespace PatternAutomata

/-- A finished tree. -/
structure Tree where
  /-- All nodes, also those that are not part of the tree. -/
  arena : Arena
  /-- The encoding of the subject text. -/
  encoding : Encoding
  /-- The root of the pattern. -/
  root : Nat
  /-- The root of the whole, lead-in and all. -/
  wrappedRoot : Nat
  /-- The node behind the pattern. -/
  matchFound : Nat
  /-- The number of capture groups, the whole pattern included. -/
  captureGroups : Nat
  /-- The length of the lead-in. -/
  leadLength : Nat
  /-- The carets that no character lies in front of, in preorder. -/
  carets : Array Nat
  /-- The dollars, in preorder. -/
  dollars : Array Nat
  /-- The look-behind assertions, in preorder. -/
  lookBehinds : Array Nat
  /-- The markers to start from anywhere, by the length of the lead-in that is left. -/
  unanchored : Array Nat
  /-- The markers to start from at the start of the text, in the same way. -/
  anchored : Array Nat
  /-- The classes of the lead-in. -/
  hardPrefix : MarkerSet
deriving Inhabited

namespace Tree

/-! ## Looking things up -/

def size (t : Tree) : Nat := t.arena.size

def node (t : Tree) (id : Nat) : Node := t.arena.node id

/-- The classes of the body of a look-behind assertion, in the order in which they are read. -/
def body (t : Tree) (lookBehind : Nat) : Array Nat :=
  t.arena.bodyTerms ((t.node lookBehind).children.getD 0 lookBehind)

/-- The set of some of the nodes. -/
def markers (t : Tree) (ids : List Nat) : MarkerSet := .ofList t.size ids

/-- The marker that starts `lead` characters in front of the pattern. -/
def start (t : Tree) (anchored : Bool) (lead : Nat) : Nat :=
  if anchored then t.anchored.getD lead 0 else t.unanchored.getD lead 0

/-- Whether a node belongs to the tree, as the root of the whole or somewhere below it. The arena
may also hold nodes that were never placed. -/
def isMarker (t : Tree) (id : Nat) : Bool :=
  id < t.size && (t.arena.ancestors id).contains t.wrappedRoot

/-- Whether to reach a node is to have found a match: the node is the place behind the pattern, or
an assertion, which stands for that place behind it. -/
def isFinal (t : Tree) (id : Nat) : Bool :=
  match (t.node id).kind with
  | .matchFound | .caret | .dollar => true
  | _ => false

/-- The look-behind assertion in whose body a class stands. -/
def lookBehindOf (t : Tree) (id : Nat) : Option Nat :=
  match (t.node id).kind with
  | .chars _ lookBehind => lookBehind
  | _ => none

end Tree

namespace Arena

/-! ## Finishing -/

/-- The nodes in preorder that pass a test. -/
def select (a : Arena) (order : Array Nat) (p : Node → Bool) : Array Nat :=
  order.filter fun id ↦ p (a.node id)

/-- Tells the classes of a look-behind body which assertion they are in. -/
def claimBody (a : Arena) (lookBehind : Nat) : Arena :=
  (a.bodyTerms ((a.node lookBehind).children.getD 0 lookBehind)).foldl
    (fun a id ↦ a.modify id fun n ↦ match n.kind with
      | .chars set _ => { n with kind := .chars set (some lookBehind) }
      | _ => n) a

/-- How far a look-behind assertion can reach back over the start of the pattern. -/
def reachBack (a : Arena) (lookBehind : Nat) : Nat :=
  match (a.node lookBehind).kind with
  | .lookBehind length => length - (a.node lookBehind).minPath
  | _ => 0

/-- A lead-in under construction: the markers made so far, shortest lead first, and the classes
between them. -/
structure LeadIn where
  /-- The nodes so far. -/
  arena : Arena
  /-- The markers to start from anywhere. -/
  unanchored : List Nat := []
  /-- The markers to start from at the start of the text. -/
  anchored : List Nat := []
  /-- The classes of all characters. -/
  classes : List Nat := []

/-- Adds the markers for a lead of `lead` and all shorter ones to a sequence, with a class of all
characters in front of each shorter one. -/
def addLeadIn (full : CodePointSet) (sequence : Nat) : Nat → LeadIn → LeadIn
  | lead, l =>
    let u := l.arena.size
    let arena := ((l.arena.add (.marker false lead)).add (.marker true lead))
    let arena := (arena.link sequence u).link sequence (u + 1)
    let l := { l with arena, unanchored := u :: l.unanchored, anchored := (u + 1) :: l.anchored }
    match lead with
    | 0 => l
    | shorter + 1 =>
      let p := l.arena.size
      let arena := (l.arena.add (.chars full none)).link sequence p
      addLeadIn full sequence shorter { l with arena, classes := p :: l.classes }

/-- Makes a node capture group 0. -/
def makeRoot (a : Arena) (root : Nat) : Arena :=
  a.modify root fun n ↦ match n.kind with
    | .group g => { n with kind := .group { g with capture := some 0 } }
    | _ => n

/-- Finishes the tree below a root. -/
def finish (a : Arena) (encoding : Encoding) (root captureGroups : Nat) : Tree :=
  let a := a.makeRoot root
  let order := a.preorder root
  let a := (a.setMinPaths order).setNested root order
  let carets := a.select order fun n ↦ n.kind == .caret && n.minPath == 0
  let dollars := a.select order fun n ↦ n.kind == .dollar
  let lookBehinds := a.select order fun n ↦ n.kind.isLookBehind
  let leadLength := lookBehinds.foldl (fun longest id ↦ max longest (a.reachBack id)) 0
  let a := lookBehinds.foldl claimBody a
  let matchFound := a.size
  let wrappedRoot := matchFound + 1
  let sequence := matchFound + 2
  let a := ((a.add .matchFound).add (.group {})).add .sequence
  let l := addLeadIn encoding.fullSet sequence leadLength { arena := a.link wrappedRoot sequence }
  let arena := (l.arena.link sequence root).link sequence matchFound
  { arena, encoding, root, wrappedRoot, matchFound, captureGroups, leadLength
    carets, dollars, lookBehinds
    unanchored := l.unanchored.toArray
    anchored := l.anchored.toArray
    hardPrefix := .ofList arena.size l.classes }

end Arena

end PatternAutomata
