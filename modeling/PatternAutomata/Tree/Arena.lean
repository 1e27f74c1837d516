import PatternAutomata.Pattern.Quantifier
import PatternAutomata.Tree.Node

/-!
# Arenas

An arena holds nodes by number, in the order in which they were made. Nodes are only ever added at
the end, so a number stays good, and the number of the next node is the size of the arena. A node
is made on its own and placed afterwards, once; what has not been placed is the root of a tree of
its own, and an arena is a forest.

Walks down a tree keep the nodes still to be visited on a list, first things first. Every node of a
forest is below one root only, so the size of the arena bounds the walk.

What makes new arenas out of old ones is a program in a monad, whose name ends in `M`. The monad may
watch it at work, and see every arena that there is on the way. Run where nobody watches, the
program is a function on arenas.
-/

namespace PatternAutomata

/-- Nodes by number. -/
structure Arena where
  /-- The nodes, in the order in which they were made. -/
  nodes : Array Node := #[]
deriving DecidableEq, Inhabited

namespace Arena

/-- The number of nodes, which is also the number of the next node. -/
def size (a : Arena) : Nat := a.nodes.size

def node (a : Arena) (id : Nat) : Node := a.nodes.getD id default

def modify (a : Arena) (id : Nat) (f : Node → Node) : Arena := ⟨a.nodes.modify id f⟩

/-- Adds a node that has no place yet. -/
def add (a : Arena) (kind : NodeKind) : Arena := ⟨a.nodes.push { kind }⟩

/-- Places `child` behind the other children of `parent`. -/
def link (a : Arena) (parent child : Nat) : Arena :=
  let index := (a.node parent).children.size
  (a.modify child fun n ↦ { n with parent := some parent, index }).modify parent fun n ↦
    { n with children := n.children.push child }

/-- The characters of a look-behind body: the terms of the one sequence of a group. -/
def bodyTerms (a : Arena) (body : Nat) : Array Nat :=
  (a.node ((a.node body).children.getD 0 body)).children

/-! ## Walks -/

/-- Collects nodes, each before what is below it. The bodies of look-behind assertions are
walked through only if `bodies` says so. -/
def collect (a : Arena) (bodies : Bool) : Nat → List Nat → Array Nat → Array Nat
  | 0, _, found => found
  | _ + 1, [], found => found
  | fuel + 1, id :: pending, found =>
    let n := a.node id
    let below := if n.kind.isLookBehind && !bodies then [] else n.children.toList
    a.collect bodies fuel (below ++ pending) (found.push id)

/-- All nodes of the tree below a node, that node first. -/
def subtree (a : Arena) (id : Nat) : Array Nat := a.collect true a.size [id] #[]

/-- The nodes below a node that a reader of the pattern comes by: those of look-behind bodies are
left out, but the assertions themselves are not. -/
def preorder (a : Arena) (id : Nat) : Array Nat := a.collect false a.size [id] #[]

/-- The nodes above a node, nearest first, headed by the node itself. -/
def lineage (a : Arena) : Nat → Nat → List Nat
  | 0, _ => []
  | fuel + 1, id =>
    id :: match (a.node id).parent with
      | none => []
      | some parent => a.lineage fuel parent

/-- The node and everything that it is below of. -/
def ancestors (a : Arena) (id : Nat) : List Nat := a.lineage a.size id

end Arena

/-! ## Programs that make arenas -/

/-- A monad that may watch how arenas are made. -/
class MonadWatch (m : Type → Type) where
  /-- Makes an arena known. -/
  see : Arena → m Arena
  /-- Makes known what comes of placing an atom with a quantifier. -/
  placing : Quantifier → m (Except ReadError Arena) → m (Except ReadError Arena)

/-- Nobody watches. -/
instance : MonadWatch Id where
  see a := a
  placing _ f := f

namespace Arena

open MonadWatch

variable {m : Type → Type} [Monad m] [MonadWatch m]

/-- Adds a look-behind assertion with the given group for a body. -/
def addLookBehindM (a : Arena) (body : Nat) : m Arena := do
  let assertion := a.size
  let a ← see (a.add (.lookBehind (a.bodyTerms body).size))
  see (a.link assertion body)

def addLookBehind (a : Arena) (body : Nat) : Arena := Id.run (a.addLookBehindM body)

theorem addLookBehind_eq (a : Arena) (body : Nat) : a.addLookBehind body =
    (a.add (.lookBehind (a.bodyTerms body).size)).link a.size body := rfl

/-! ### Copies -/

/-- Places a node under another one, if there is one to place it under. -/
def linkUnderM (a : Arena) (into : Option Nat) (child : Nat) : m Arena :=
  match into with
  | none => return a
  | some parent => see (a.link parent child)

/-- Copies nodes to the end of the arena, each with everything below it. A pending node comes with
the node to place its copy under, which has been copied before. -/
@[specialize]
def copyAllM : Nat → List (Nat × Option Nat) → Arena → m Arena
  | 0, _, a => return a
  | _ + 1, [], a => return a
  | fuel + 1, (id, into) :: pending, a => do
    let n := a.node id
    let copy := a.size
    let a ← see ⟨a.nodes.push { n with parent := none, index := 0, children := #[] }⟩
    let a ← linkUnderM a into copy
    copyAllM fuel (n.children.toList.map (·, some copy) ++ pending) a

def copyAll (fuel : Nat) (pending : List (Nat × Option Nat)) (a : Arena) : Arena :=
  Id.run (copyAllM fuel pending a)

/-- Adds a copy of a node and of everything below it; the copy of the node itself is the first
node added and has no place yet. Copies of a capture group capture into the same slots. -/
def copyM (a : Arena) (id : Nat) : m Arena := copyAllM a.size [(id, none)] a

def copy (a : Arena) (id : Nat) : Arena := Id.run (a.copyM id)

theorem copy_eq (a : Arena) (id : Nat) : a.copy id = copyAll a.size [(id, none)] a := rfl

end Arena

end PatternAutomata
