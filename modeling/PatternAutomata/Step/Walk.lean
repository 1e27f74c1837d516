import Std.Data.HashSet
import PatternAutomata.Step.Path

/-!
# Walking all paths from a marker

The paths from a marker are walked depth first, preferred ones first, and what is reached is listed
in that order. Of several ways to the same target only the first counts, and all dollars count as
one target.

Two paths in the same context can go on to the same targets. As the one walked first has priority,
the other is given up as soon as it comes to a context that has been seen.

A path is allowed a number of moves that no path needs: between two entries of loops for another
iteration it goes around the tree at most once, and it enters each loop again at most once. The
allowance is what makes the walk finite in plain sight.
-/

namespace PatternAutomata

/-- A way to go on from a set of markers: what is reached, and what has been crossed. -/
structure Successor where
  /-- The class to be read next, or the place where a match ends. -/
  target : Nat
  /-- The slots set and cleared on the way. -/
  boundaries : Boundaries := {}
  /-- The capture group left last. -/
  lastGroup : Option Nat := none
  /-- The look-behind assertions passed, in order. -/
  lookBehinds : List Nat := []
deriving DecidableEq, Inhabited

namespace Successor

/-- What a path brings to its target. -/
def ofPath (p : Path) (target : Nat) : Successor where
  target := target
  boundaries := p.boundaries
  lastGroup := p.lastGroup
  lookBehinds := p.lookBehinds

def isFinal (s : Successor) (t : Tree) : Bool := t.isFinal s.target

/-- Whether the target only keeps track of a look-behind assertion. -/
def isProgress (s : Successor) (t : Tree) : Bool := (t.lookBehindOf s.target).isSome

/-- By what a target is told from others: all dollars are alike. -/
def key (s : Successor) (t : Tree) : Option Nat :=
  match (t.node s.target).kind with
  | .caret | .dollar => none
  | _ => some s.target

end Successor

/-! ## The allowance of moves -/

/-- The number of moves that a path is allowed. -/
def Tree.allowance (t : Tree) : Nat := 2 * t.size * (t.size + 1)

/-- The largest number of children of a node. -/
def Arena.arity (a : Arena) : Nat := (a.nodes.toList.map fun n ↦ n.children.size).foldr max 0

theorem Arena.size_children_le_arity (a : Arena) (id : Nat) :
    (a.node id).children.size ≤ a.arity := by
  have key : ∀ (l : List Nat) (x : Nat), x ∈ l → x ≤ l.foldr max 0 := by
    intro l x hx
    induction l with
    | nil => cases hx
    | cons y l ih =>
      rw [List.foldr_cons]
      rcases List.mem_cons.1 hx with rfl | hx
      · exact Nat.le_max_left _ _
      · exact Nat.le_trans (ih hx) (Nat.le_max_right _ _)
  by_cases h : id < a.nodes.size
  · refine key _ _ (List.mem_map.2 ⟨a.nodes[id], Array.getElem_mem_toList h, ?_⟩)
    simp [node, h]
  · simp [node, h, default]

/-- A path goes on in no more ways than a node has children, or in one. -/
theorem Path.length_next_le (s : Stance) (p : Path) :
    (p.next s).length ≤ s.tree.arena.arity + 1 := by
  unfold next
  split
  · exact Nat.le_trans (Option.length_toList_le) (Nat.le_add_left _ _)
  · have harity := s.tree.arena.size_children_le_arity p.node
    unfold enter
    dsimp only
    split
    case h_4 g _ =>
      unfold enterGroup
      rw [List.length_map]
      refine Nat.le_trans (List.length_filter_le _ _) ?_
      rw [Array.length_toList]
      exact Nat.le_succ_of_le harity
    all_goals (try split) <;> simp

/-- A bound on the moves that pending paths can still make, all their continuations included, if
a path goes on in less than `base` ways. -/
def pendingWeight (base : Nat) : List (Nat × Path) → Nat
  | [] => 0
  | (left, _) :: pending => Nat.pow base left + pendingWeight base pending

theorem pendingWeight_map_append (base left : Nat) (next : List Path)
    (pending : List (Nat × Path)) :
    pendingWeight base (next.map (left, ·) ++ pending) =
      next.length * Nat.pow base left + pendingWeight base pending := by
  induction next with
  | nil => rw [List.map_nil, List.nil_append, List.length_nil, Nat.zero_mul, Nat.zero_add]
  | cons p next ih =>
    rw [List.map_cons, List.cons_append, pendingWeight, ih, List.length_cons, Nat.succ_mul,
      ← Nat.add_assoc, Nat.add_comm (Nat.pow base left)]

/-! ## The walk -/

/-- What a walk has come by. -/
structure Walk where
  /-- The contexts seen since the last marker. -/
  visited : Std.HashSet Path.Context := {}
  /-- The targets reached since the first marker. -/
  reached : Std.HashSet (Option Nat) := {}
  /-- The first way to each target, in order. -/
  found : Array Successor := #[]

namespace Walk

/-- Lists a way to a target, if it is the first one. -/
def arrive (w : Walk) (t : Tree) (s : Successor) : Walk :=
  if w.reached.contains (s.key t) then w
  else { w with reached := w.reached.insert (s.key t), found := w.found.push s }

/-- Notes where a path stands: its context, and the target there, if there is one. -/
def visit (w : Walk) (s : Stance) (p : Path) : Walk :=
  let w := { w with visited := w.visited.insert p.context }
  match p.arrival? s with
  | none => w
  | some target => w.arrive s.tree (.ofPath p target)

/-- Walks the pending paths, each with the moves left to it. -/
def run (s : Stance) : List (Nat × Path) → Walk → Walk
  | [], w => w
  | (0, _) :: pending, w => run s pending w
  | (left + 1, p) :: pending, w =>
    if w.visited.contains p.context then run s pending w
    else run s ((p.next s).map (left, ·) ++ pending) (w.visit s p)
termination_by pending => pendingWeight (s.tree.arena.arity + 2) pending
decreasing_by
  all_goals have hpos : ∀ n, 0 < Nat.pow (s.tree.arena.arity + 2) n :=
    fun n ↦ Nat.pow_pos (Nat.succ_pos _)
  · exact Nat.lt_add_of_pos_left (hpos 0)
  · exact Nat.lt_add_of_pos_left (hpos (left + 1))
  · rw [pendingWeight_map_append]
    refine Nat.add_lt_add_right (Nat.lt_of_lt_of_eq ?_ (Nat.mul_comm _ _)) _
    exact Nat.mul_lt_mul_of_pos_right (Nat.lt_succ_of_le (Path.length_next_le s p)) (hpos left)

/-- Walks all paths from a marker, which start at its end. -/
def fromMarker (w : Walk) (s : Stance) (marker : Nat) : Walk :=
  run s [(s.tree.allowance, { node := marker, isLeaving := true })] { w with visited := {} }

end Walk

end PatternAutomata
