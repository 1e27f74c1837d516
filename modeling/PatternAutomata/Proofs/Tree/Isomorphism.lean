import Mathlib.Data.Set.Card
import PatternAutomata.Proofs.Tree.Finish
import PatternAutomata.Proofs.Tree.Sizes

/-!
# Copies are deep

Copying a node leaves the arena as it was and adds a tree to it that is the same as the tree below
the node: taking every new node to its original is one to one, and goes along with all that a node
says about itself and about its neighbours. The copy stands on its own, and it is all that is new.
-/

namespace PatternAutomata

namespace Arena

variable {a b : Arena} {visited : List Nat} {id x y : Nat}

/-! ## Trees within an arena -/

theorem Forest.reaches_iff_below (h : a.Forest) : Reaches a.childrenOf id x ↔ a.Below x id := by
  refine ⟨h.below_of_reaches, fun hx ↦ ?_⟩
  induction hx using Relation.ReflTransGen.head_induction_on with
  | refl => exact .refl
  | head hup _ ih => exact ih.tail (Array.mem_toList_iff.2 (h.mem_of_up hup))

theorem Forest.ncard_below (h : a.Forest) (hid : id < a.size) :
    {x | a.Below x id}.ncard = (a.subtree id).size := by
  obtain ⟨visited, hsize, hdescent⟩ := h.exists_subtree hid
  have hset : {x | a.Below x id} = (visited.toFinset : Set Nat) := by
    ext x
    rw [Set.mem_ofPred_eq, ← h.reaches_iff_below, ← hdescent.mem_visited_iff, Finset.mem_coe,
      List.mem_toFinset]
  rw [hset, Set.ncard_coe_finset, List.toFinset_card_of_nodup hdescent.nodup, hsize]

/-! ## Originals -/

theorem original_eq_getElem (h : a.size ≤ x) (hlt : x - a.size < visited.length) :
    a.original visited x = visited[x - a.size] := by
  rw [original, if_neg (Nat.not_lt.2 h), List.getD_eq_getElem?_getD, List.getElem?_eq_getElem hlt,
    Option.getD_some]

/-- If no node is copied twice, then the new nodes and their originals go together one by one. -/
theorem bijOn_original (h : visited.Nodup) :
    Set.BijOn (a.original visited) {x | a.size ≤ x ∧ x < a.size + visited.length}
      {x | x ∈ visited} := by
  refine ⟨fun x hx ↦ ?_, fun x hx y hy heq ↦ ?_, fun v hv ↦ ?_⟩
  · obtain ⟨hle, hlt⟩ := hx
    rw [Set.mem_ofPred_eq, original_eq_getElem hle (by omega)]
    exact List.getElem_mem _
  · obtain ⟨hle, hlt⟩ := hx
    obtain ⟨hle', hlt'⟩ := hy
    rw [original_eq_getElem hle (by omega), original_eq_getElem hle' (by omega),
      h.getElem_inj_iff] at heq
    omega
  · obtain ⟨i, hi, rfl⟩ := List.mem_iff_getElem.1 hv
    refine ⟨a.size + i, ⟨Nat.le_add_right _ _, Nat.add_lt_add_left hi _⟩, ?_⟩
    have hlt : a.size + i - a.size < visited.length := by omega
    rw [original_eq_getElem (Nat.le_add_right _ _) hlt]
    congr 1
    omega

/-! ## What else a copy has from its original -/

/-- Copies are also at the distance that their originals are noted to be at, and the first copy has
no place among the children of any node. -/
structure Noted (a : Arena) (visited : List Nat) (b : Arena) : Prop where
  minPath : ∀ x, (b.node x).minPath = (a.node (a.original visited x)).minPath
  index : (b.node a.size).index = 0

theorem Noted.init : a.Noted [] a where
  minPath x := by
    have hx : a.original [] x = x := by simp [original]
    rw [hx]
  index := by
    rw [node_of_size_le (Nat.le_refl _)]
    rfl

theorem Noted.addCopy (h : a.Noted visited b) {into : Option Nat}
    {pending : List (Nat × Option Nat)} (hcopying : a.Copying visited ((x, into) :: pending) b)
    (hx : x < a.size) : a.Noted (visited ++ [x]) (Copying.addCopy b (b.node x) into) := by
  have hinto : ∀ p, into = some p → a.size ≤ p ∧ p < b.size := hcopying.into _ List.mem_cons_self
  have hnode := Copying.node_addCopy_eq (b.node x) fun p hp ↦ (hinto p hp).2
  constructor
  case minPath =>
    intro y
    rcases Nat.lt_trichotomy y b.size with hy | rfl | hy
    · rw [hcopying.size] at hy
      rw [original_append_of_lt hy, ← h.minPath, hnode, if_neg (hcopying.size ▸ Nat.ne_of_lt hy)]
      split <;> rfl
    · rw [hnode, if_pos rfl, hcopying.old x hx, hcopying.size, original_append_last]
    · have hlast : a.original (visited ++ [x]) y = y := original_of_le (by
        rw [List.length_append, List.length_singleton, ← Nat.add_assoc, ← hcopying.size]
        exact hy)
      have hbefore : a.original visited y = y := original_of_le (by
        rw [← hcopying.size]
        exact Nat.le_of_lt hy)
      rw [hlast, hnode, if_neg (Nat.ne_of_gt hy), if_neg fun hp ↦ ?_, h.minPath, hbefore]
      exact absurd (hinto y hp).2 (Nat.not_lt.2 (Nat.le_of_lt hy))
  case index =>
    rw [hnode]
    split
    · next heq =>
      -- nothing has been copied before, so there is no copy to place it below
      cases into with
      | none => rfl
      | some p => exact absurd (hinto p rfl) (by omega)
    · split <;> exact h.index

/-! ## Deep copies -/

/-- `b` is `a` and a deep copy of the tree below `id`, whose nodes `original` takes to those that
they are copies of. -/
structure DeepCopy (a : Arena) (id : Nat) (b : Arena) (original : Nat → Nat) : Prop where
  /-- There is one new node for every node of the tree. -/
  size : b.size = a.size + {x | a.Below x id}.ncard
  /-- No other node has changed. -/
  old : ∀ x < a.size, b.node x = a.node x
  /-- Nodes and their parents agree about each other, also where they are new. -/
  forest : b.Forest
  /-- The first new node has no place. -/
  loose : (b.node a.size).parent = none ∧ (b.node a.size).index = 0
  /-- It is the root of a tree of all new nodes and no others. -/
  below : ∀ x, b.Below x a.size ↔ a.size ≤ x ∧ x < b.size
  /-- The root is a copy of the node. -/
  root : original a.size = id
  /-- Every node of the tree has one copy. -/
  bijOn : Set.BijOn original {x | b.Below x a.size} {x | a.Below x id}
  /-- A copy is what its original is. -/
  kind : ∀ x, b.Below x a.size → (b.node x).kind = (a.node (original x)).kind
  /-- A copy is noted to be where its original is. -/
  minPath : ∀ x, b.Below x a.size → (b.node x).minPath = (a.node (original x)).minPath
  /-- The children are copies of those of the original, in the same order. -/
  children : ∀ x, b.Below x a.size →
    (b.node x).children.toList.map original = (a.node (original x)).children.toList
  /-- The parent is a copy of that of the original, and the place below it is the same. -/
  place : ∀ x, b.Below x a.size → x ≠ a.size →
    (b.node x).parent.map original = (a.node (original x)).parent ∧
      (b.node x).index = (a.node (original x)).index

theorem place_of_children {f : Nat → Nat} (ha : a.Forest) (hb : b.Forest)
    (hchildren : (b.node y).children.toList.map f = (a.node (f y)).children.toList)
    (hup : b.Up x y) :
    (b.node x).parent.map f = (a.node (f x)).parent ∧ (b.node x).index = (a.node (f x)).index := by
  have hx : (a.node (f y)).children[(b.node x).index]? = some (f x) := by
    rw [← Array.getElem?_toList, ← hchildren, List.getElem?_map, Array.getElem?_toList,
      hb.parent hup, Option.map_some]
  obtain ⟨hparent, hindex⟩ := ha.child hx
  exact ⟨by rw [hparent, show (b.node x).parent = some y from hup, Option.map_some], hindex.symm⟩

namespace Copying

theorem le_of_below (h : a.Copying visited [] b) (hforest : a.Forest) (hx : b.Below x y)
    (hy : a.size ≤ y) : a.size ≤ x := by
  induction hx using Relation.ReflTransGen.head_induction_on with
  | refl => exact hy
  | @head x p hup _ hp =>
    by_contra hlt
    rw [Up, h.old x (Nat.not_le.1 hlt)] at hup
    exact absurd (hforest.parent_lt hup) (Nat.not_lt.2 hp)

theorem exists_below (h : a.Copying (id :: visited) [] b) (hx : Reaches a.childrenOf id x) :
    ∃ y, b.Below y a.size ∧ a.original (id :: visited) y = x := by
  induction hx with
  | refl => exact ⟨a.size, .refl, original_cons_size⟩
  | tail _ hc ih =>
    obtain ⟨y, hy, rfl⟩ := ih
    rw [childrenOf, ← h.children_eq] at hc
    obtain ⟨c, hmem, rfl⟩ := List.mem_map.1 hc
    exact ⟨c, .head (h.forest.up_of_mem_toList hmem) hy, rfl⟩

theorem below_iff (h : a.Copying (id :: visited) [] b) (hforest : a.Forest)
    (hdescent : a.Descent a.childrenOf id (id :: visited) []) :
    b.Below x a.size ↔ a.size ≤ x ∧ x < b.size := by
  have hinto : ∀ {x}, b.Below x a.size → a.size ≤ x ∧ x < b.size := by
    refine fun hx ↦ ⟨h.le_of_below hforest hx (Nat.le_refl _), hx.lt_size ?_⟩
    rw [h.size, List.length_cons]
    omega
  refine ⟨hinto, fun hx ↦ ?_⟩
  -- the original of `x` has a copy below the first new node, and it has no other copy than `x`
  have hbij := bijOn_original (a := a) hdescent.nodup
  rw [← h.size] at hbij
  obtain ⟨y, hy, heq⟩ := h.exists_below (hdescent.mem_visited_iff.1 (hbij.mapsTo hx))
  rwa [hbij.injOn hx (hinto hy) heq.symm]

end Copying

/-- **Copying makes a deep copy**, of the bodies of look-behind assertions as well. -/
theorem exists_deepCopy (h : a.Forest) (hid : id < a.size) :
    ∃ original, a.DeepCopy id (a.copy id) original := by
  obtain ⟨visited, hcopying, hdescent, hnoted⟩ := exists_copying_keeping h hid Noted.init
    fun hcopying hx hnoted ↦ hnoted.addCopy hcopying hx
  have hbelow := fun x ↦ hcopying.below_iff (x := x) h hdescent
  refine ⟨a.original (id :: visited), ?_, hcopying.old, hcopying.forest,
    ⟨hcopying.loose, hnoted.index⟩, hbelow, original_cons_size, ?_, fun x _ ↦ hcopying.kind x,
    fun x _ ↦ hnoted.minPath x, fun x _ ↦ hcopying.children_eq x, fun x hx hne ↦ ?_⟩
  · rw [h.size_copy hid, h.ncard_below hid]
  · have hbij := bijOn_original (a := a) hdescent.nodup
    rw [← hcopying.size] at hbij
    simp only [hbelow, ← h.reaches_iff_below, ← hdescent.mem_visited_iff]
    exact hbij
  · rcases hx.cases_head with rfl | ⟨p, hup, -⟩
    · exact absurd rfl hne
    · exact place_of_children h hcopying.forest (hcopying.children_eq p) hup

/-- A loop around a capture group, with an assertion in front of it that has a body of its own. -/
theorem exists_deepCopy_lookBehind : ∃ t, Tree.ofPattern {} (.ofString "(?:(?<=ab)(c))*") = .ok t ∧
    t.arena.Forest ∧ t.root < t.arena.size ∧
    ∃ original, t.arena.DeepCopy t.root (t.arena.copy t.root) original := by
  obtain ⟨t, ht, hroot⟩ := Tree.exists_ofPattern (fun t ↦ t.root < t.arena.size)
    (show (Tree.ofPattern {} (.ofString "(?:(?<=ab)(c))*")).toOption.any _ = true by decide +kernel)
  have hforest := (Tree.Finished.ofPattern ht).regular.forest
  have hlt := of_decide_eq_true hroot
  exact ⟨t, ht, hforest, hlt, exists_deepCopy hforest hlt⟩

end Arena

end PatternAutomata
