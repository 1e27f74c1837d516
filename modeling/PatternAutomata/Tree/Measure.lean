import PatternAutomata.Tree.Arena

/-!
# What is derived from a complete tree

Once a root is known, three things are worked out for the nodes below it: how many characters lie
at least in front of each node, which assertions can matter, and which capture groups lie below each
loop. Each takes one pass over the nodes in preorder, upward or downward.

The least number of characters in front of a node decides whether a caret there can ever hold, and
how far ahead of the pattern a look-behind assertion there has to be watched.
-/

namespace PatternAutomata

namespace Arena

/-! ## Least lengths -/

/-- Whether an alternative of a group counts for the least length of the group. The empty way out
of a loop that has to run once does not: it is only open after an iteration. -/
def countsForLength (a : Arena) (g : Group) (alternative : Nat) : Bool :=
  !(g.loop == some .plus && (a.node alternative).isEmpty)

/-- The least number of characters that passing a node takes, from those of its children. -/
def leastLength (a : Arena) (lengths : Array Nat) (n : Node) : Nat :=
  match n.kind with
  | .chars _ _ => 1
  | .sequence => n.children.foldl (fun sum child ↦ sum + lengths.getD child 0) 0
  | .group g =>
    (((n.children.toList.filter (a.countsForLength g)).map (lengths.getD · 0)).min?).getD 0
  | _ => 0

/-- The least lengths of the given nodes, which are listed in preorder. -/
def leastLengths (a : Arena) (order : Array Nat) : Array Nat :=
  order.foldr (fun id lengths ↦ lengths.setIfInBounds id (a.leastLength lengths (a.node id)))
    (Array.replicate a.size 0)

/-! ## Least distances from the start -/

/-- Sets how many characters lie at least in front of a node. -/
def setMinPath (a : Arena) (id minPath : Nat) : Arena := a.modify id ({ · with minPath })

/-- Carries the distance of a node down to its children: the alternatives of a group start where
the group does, each term of a sequence behind the terms before it. -/
def passMinPath (lengths : Array Nat) (a : Arena) (id : Nat) : Arena :=
  let n := a.node id
  match n.kind with
  | .sequence =>
    (n.children.foldl (fun (a, reached) child ↦
      (a.setMinPath child reached, reached + lengths.getD child 0)) (a, n.minPath)).1
  | .group _ => n.children.foldl (fun a child ↦ a.setMinPath child n.minPath) a
  | _ => a

/-- Sets the distances of the nodes of a tree, which are listed in preorder. -/
def setMinPaths (a : Arena) (order : Array Nat) : Arena :=
  order.foldl (passMinPath (a.leastLengths order)) a

/-! ## Nested captures -/

/-- Notes the captures below a node: a loop keeps those properly below it, and the node passes
them on to its parent together with its own. -/
def passCaptures (root : Nat) : Arena × Array IndexSet → Nat → Arena × Array IndexSet
  | (a, below), id =>
    let n := a.node id
    let mine := below.getD id ∅
    let (a, mine) := match n.kind with
      | .group g =>
        (if g.loop.isSome then a.modify id ({ · with kind := .group { g with nested := mine } })
          else a,
        match g.capture with
        | none => mine
        | some c => mine.insert c)
      | _ => (a, mine)
    match n.parent with
    | none => (a, below)
    | some parent =>
      if id = root || mine.isEmpty then (a, below)
      else (a, below.modify parent (· ∪ mine))

/-- Gives every loop of a tree, listed in preorder, the captures below it. -/
def setNested (a : Arena) (root : Nat) (order : Array Nat) : Arena :=
  (order.foldr (fun id s ↦ passCaptures root s id) (a, Array.replicate a.size ∅)).1

end Arena

end PatternAutomata
