import Mathlib.Data.Finset.Card
import Mathlib.Data.Finset.Prod
import Mathlib.Data.Finset.Range
import Mathlib.Data.Fintype.Card
import Mathlib.Data.List.Lex
import PatternAutomata.Proofs.Step.Moves
import PatternAutomata.Proofs.Tree.Growth
import PatternAutomata.Step.Walk

/-!
# The way around a tree

A path that never starts a loop again goes around the tree once, from left to right: in front of a
node, through what is below it, to its end. The order of the spots is that of the ways down to them,
compared place by place, where the end of a node stands behind all its children. Every move onward
goes forward in this order.

A path that does start loops again falls back, but never to the same loop twice. So the loops that
are left, and then the spots that are left on the way around, bound the moves that a path can still
make: this is its `rank`. It stays below the allowance that a walk grants.
-/

namespace PatternAutomata

namespace Arena

variable {a : Arena}

/-! ## The order of the spots -/

/-- The way down to a node: the place taken at each parent, from the top. -/
def address (a : Arena) (id : Nat) : List Nat :=
  ((a.ancestors id).map fun x ↦ (a.node x).index).reverse

theorem Forest.address_of_up (h : a.Forest) {c p : Nat} (hup : a.Up c p) :
    a.address c = a.address p ++ [(a.node c).index] := by
  rw [address, h.ancestors_of_up hup, List.map_cons, List.reverse_cons, address]

/-- The position of a spot: the end of a node stands behind its last child. -/
def position (a : Arena) (id : Nat) (isLeaving : Bool) : List Nat :=
  a.address id ++ if isLeaving then [(a.node id).children.size] else []

theorem address_lt_append (l : List Nat) (x : Nat) (xs : List Nat) : l < l ++ x :: xs := by
  simpa using List.append_left_lt (List.nil_lt_cons x xs)

theorem position_front_lt_back (id : Nat) : a.position id false < a.position id true := by
  simpa [position] using address_lt_append (a.address id) _ []

theorem Forest.position_lt_child (h : a.Forest) {c p : Nat} (hup : a.Up c p) :
    a.position p false < a.position c false := by
  simpa [position, h.address_of_up hup] using address_lt_append (a.address p) _ []

theorem Forest.back_lt_of_index_lt (h : a.Forest) {c p i : Nat} (hup : a.Up c p)
    (hi : (a.node c).index < i) (l : List Nat) :
    a.position c true < a.address p ++ i :: l := by
  rw [position, if_pos rfl, h.address_of_up hup, List.append_assoc]
  exact List.append_left_lt (List.Lex.rel hi)

theorem Forest.position_lt_sibling (h : a.Forest) {c d p : Nat} (hc : a.Up c p)
    (hd : (a.node p).children[(a.node c).index + 1]? = some d) :
    a.position c true < a.position d false := by
  obtain ⟨hdp, hindex⟩ := h.child hd
  have hfront : a.position d false = a.address p ++ [(a.node c).index + 1] := by
    rw [position, if_neg Bool.false_ne_true, List.append_nil, h.address_of_up hdp, hindex]
  rw [hfront]
  exact h.back_lt_of_index_lt hc (Nat.lt_succ_self _) []

theorem Forest.position_lt_parent (h : a.Forest) {c p : Nat} (hup : a.Up c p) :
    a.position c true < a.position p true :=
  h.back_lt_of_index_lt hup (h.index_lt hup) []

end Arena

theorem Onward.position_lt {t : Tree} {passes : Nat → Prop} {isAtStart : Prop}
    (hforest : t.arena.Forest) {u v : Spot} (h : Onward t passes isAtStart u v) :
    t.arena.position u.node u.isLeaving < t.arena.position v.node v.isLeaving := by
  cases h with
  | first _ hc => exact hforest.position_lt_child (hforest.child hc).1
  | choose _ hc _ => exact hforest.position_lt_child (hforest.up_of_mem hc)
  | next hparent _ hc => exact hforest.position_lt_sibling hparent hc
  | last hparent _ _ => exact hforest.position_lt_parent hparent
  | out hparent _ _ => exact hforest.position_lt_parent hparent
  | skip _ _ => exact Arena.position_front_lt_back _
  | caret _ _ => exact Arena.position_front_lt_back _
  | dollar _ => exact Arena.position_front_lt_back _
  | lookBehind _ _ => exact Arena.position_front_lt_back _
  | marker _ => exact Arena.position_front_lt_back _

theorem Onward.node_lt {t : Tree} {passes : Nat → Prop} {isAtStart : Prop}
    (hforest : t.arena.Forest) {u v : Spot} (h : Onward t passes isAtStart u v)
    (hu : u.node < t.size) : v.node < t.size := by
  cases h with
  | first _ hc => exact hforest.child_lt hc
  | choose _ hc _ => exact Arena.lt_size_of_parent (hforest.up_of_mem hc)
  | next _ _ hc => exact hforest.child_lt hc
  | last hparent _ _ => exact hforest.parent_lt hparent
  | out hparent _ _ => exact hforest.parent_lt hparent
  | _ => exact hu

/-! ## What is left of the way -/

namespace Arena

/-- The spots behind a spot on the way around. -/
def laterSpots (a : Arena) (id : Nat) (isLeaving : Bool) : Finset (Nat × Bool) :=
  (Finset.range a.size ×ˢ Finset.univ).filter fun u ↦
    a.position id isLeaving < a.position u.1 u.2

theorem card_laterSpots_lt_of_lt {a : Arena} {id id' : Nat} {l l' : Bool} (hid : id' < a.size)
    (h : a.position id l < a.position id' l') :
    (a.laterSpots id' l').card < (a.laterSpots id l).card := by
  refine Finset.card_lt_card (Finset.ssubset_iff_of_subset ?_ |>.2 ⟨(id', l'), ?_, ?_⟩)
  · intro u hu
    simp only [laterSpots, Finset.mem_filter] at hu ⊢
    exact ⟨hu.1, lt_trans h hu.2⟩
  · simpa [laterSpots, hid] using h
  · simp [laterSpots]

theorem card_laterSpots_lt {a : Arena} {id : Nat} (hid : id < a.size) (l : Bool) :
    (a.laterSpots id l).card < 2 * a.size := by
  have hall : (Finset.range a.size ×ˢ (Finset.univ : Finset Bool)).card = 2 * a.size := by
    rw [Finset.card_product, Finset.card_range, Finset.card_univ, Fintype.card_bool, Nat.mul_comm]
  rw [← hall]
  refine Finset.card_lt_card ((Finset.ssubset_iff_of_subset (Finset.filter_subset _ _)).2
    ⟨(id, l), ?_, ?_⟩)
  · simp [hid]
  · simp

def isLoop (a : Arena) (id : Nat) : Bool := (a.node id).kind.group?.any (·.loop.isSome)

def loops (a : Arena) : Finset Nat := (Finset.range a.size).filter fun id ↦ a.isLoop id

theorem card_loops_le (a : Arena) : a.loops.card ≤ a.size := by
  have h : a.loops.card ≤ (Finset.range a.size).card :=
    Finset.card_le_card (Finset.filter_subset _ _)
  rwa [Finset.card_range] at h

/-- The loops that can still be started again. -/
def loopsLeft (a : Arena) (reentered : IndexSet) : Finset Nat :=
  a.loops.filter fun id ↦ id ∉ reentered

end Arena

theorem Repeats.isLoop {t : Tree} {u : Spot} {loop : Nat} (h : Repeats t u loop) :
    t.arena.isLoop loop = true := by
  obtain ⟨g, hkind, hloop⟩ := h.loops
  have hkind : (t.arena.node loop).kind = .group g := hkind
  simp [Arena.isLoop, hkind, NodeKind.group?, hloop]

namespace Path

/-- What bounds the moves that a path can still make. -/
def rank (a : Arena) (p : Path) : Nat :=
  (a.loopsLeft p.reentered).card * (2 * a.size) + (a.laterSpots p.node p.isLeaving).card

/-- The rank is decided by where a path can still go. -/
theorem rank_eq_of_context (a : Arena) {p q : Path} (h : p.context = q.context) :
    p.rank a = q.rank a := by
  simp only [context, Context.mk.injEq] at h
  rw [rank, rank, h.1, h.2.1, h.2.2.2.2]

theorem rank_lt {a : Arena} {p : Path} (hp : p.node < a.size) :
    p.rank a < (a.loops.card + 1) * (2 * a.size) := by
  have hleft : (a.loopsLeft p.reentered).card ≤ a.loops.card :=
    Finset.card_le_card (Finset.filter_subset _ _)
  calc p.rank a < (a.loopsLeft p.reentered).card * (2 * a.size) + 2 * a.size :=
        Nat.add_lt_add_left (Arena.card_laterSpots_lt hp _) _
    _ = ((a.loopsLeft p.reentered).card + 1) * (2 * a.size) := (Nat.succ_mul _ _).symm
    _ ≤ (a.loops.card + 1) * (2 * a.size) := Nat.mul_le_mul_right _ (Nat.succ_le_succ hleft)

/-- The allowance of a walk is larger than the rank of any path. -/
theorem rank_lt_allowance {t : Tree} {p : Path} (hp : p.node < t.size) :
    p.rank t.arena < t.allowance := by
  refine Nat.lt_of_lt_of_le (rank_lt hp) ?_
  rw [Nat.mul_comm]
  exact Nat.mul_le_mul_left _ (Nat.succ_le_succ t.arena.card_loops_le)

/-- **The step lemma of the walk.** A way to go on stays in the arena and has a smaller rank. -/
theorem Leads.rank_lt {s : Stance} (hforest : s.tree.arena.Forest) {p q : Path}
    (hp : p.node < s.tree.size) (h : p.Leads s q) :
    q.node < s.tree.size ∧ q.rank s.tree.arena < p.rank s.tree.arena := by
  cases h with
  | onward hmove hsame =>
    have hq : q.node < s.tree.size := hmove.node_lt hforest hp
    refine ⟨hq, ?_⟩
    rw [rank, rank, hsame]
    exact Nat.add_lt_add_left
      (Arena.card_laterSpots_lt_of_lt hq (hmove.position_lt hforest)) _
  | @again loop hrepeats hnew hspot hmore =>
    have hnode : q.node = loop := congrArg Spot.node hspot
    have hlt : loop < s.tree.size := hforest.parent_lt hrepeats.parent
    have hmem : loop ∈ s.tree.arena.loopsLeft p.reentered := by
      rw [Arena.loopsLeft, Arena.loops, Finset.mem_filter, Finset.mem_filter, Finset.mem_range]
      exact ⟨⟨hlt, hrepeats.isLoop⟩, hnew⟩
    have hcard : (s.tree.arena.loopsLeft q.reentered).card
        < (s.tree.arena.loopsLeft p.reentered).card := by
      refine Finset.card_lt_card ((Finset.ssubset_iff_of_subset fun id hid ↦ ?_).2
        ⟨loop, hmem, ?_⟩)
      · rw [Arena.loopsLeft, Finset.mem_filter, hmore, IndexSet.mem_insert, not_or] at hid
        exact Finset.mem_filter.2 ⟨hid.1, hid.2.1⟩
      · simp [Arena.loopsLeft, hmore]
    refine ⟨hnode ▸ hlt, ?_⟩
    calc q.rank s.tree.arena
        < (s.tree.arena.loopsLeft q.reentered).card * (2 * s.tree.size) + 2 * s.tree.size :=
          Nat.add_lt_add_left (Arena.card_laterSpots_lt (hnode ▸ hlt) _) _
      _ = ((s.tree.arena.loopsLeft q.reentered).card + 1) * (2 * s.tree.size) :=
          (Nat.succ_mul _ _).symm
      _ ≤ (s.tree.arena.loopsLeft p.reentered).card * (2 * s.tree.size) :=
          Nat.mul_le_mul_right _ hcard
      _ ≤ p.rank s.tree.arena := Nat.le_add_right _ _

end Path

end PatternAutomata
