import Mathlib.Data.List.Nodup
import PatternAutomata.Proofs.Tree.Forest

/-!
# Walks down a forest

A walk down a tree visits the first of its pending nodes and puts the nodes right below it in front
of the others. In a forest no node is come by twice, as the pending nodes are roots of trees that
have nothing in common, none of which holds a node visited before. So the walk is over within as
many visits as the arena has nodes, and then it has visited all nodes that can be reached, every
one before those below it.
-/

namespace PatternAutomata

namespace Arena

variable {a : Arena} {below : Nat → List Nat} {start : Nat}

/-- `x` can be reached by going down. -/
def Reaches (below : Nat → List Nat) : Nat → Nat → Prop :=
  Relation.ReflTransGen fun p c ↦ c ∈ below p

/-- Every step down goes to some of the children. -/
def GoesDown (a : Arena) (below : Nat → List Nat) : Prop :=
  ∀ id, (below id).Sublist (a.node id).children.toList

/-- The state of a walk down from `start`. -/
structure Descent (a : Arena) (below : Nat → List Nat) (start : Nat)
    (visited pending : List Nat) : Prop where
  /-- Only nodes of the arena are come by. -/
  inside : ∀ x ∈ visited ++ pending, x < a.size
  /-- The pending nodes are roots of different trees. -/
  apart : pending.Pairwise fun x y ↦ ¬a.Below x y ∧ ¬a.Below y x
  /-- What has been visited is not below what is pending. -/
  behind : ∀ v ∈ visited, ∀ q ∈ pending, ¬a.Below v q
  /-- Nodes are visited before the nodes below them. -/
  order : visited.Pairwise fun x y ↦ ¬a.Below x y
  /-- Only nodes that can be reached are come by. -/
  sound : ∀ x ∈ visited ++ pending, Reaches below start x
  /-- The walk has come by its start. -/
  start_mem : start ∈ visited ++ pending
  /-- The walk has come by all that is right below a visited node. -/
  closed : ∀ v ∈ visited, ∀ c ∈ below v, c ∈ visited ++ pending

namespace Descent

variable {visited pending : List Nat} {id : Nat}

theorem init (hstart : start < a.size) : a.Descent below start [] [start] where
  inside x hx := by
    rw [List.nil_append, List.mem_singleton] at hx
    exact hx ▸ hstart
  apart := List.pairwise_singleton _ _
  behind v hv := absurd hv List.not_mem_nil
  order := List.Pairwise.nil
  sound x hx := by
    rw [List.nil_append, List.mem_singleton] at hx
    exact hx ▸ .refl
  start_mem := List.mem_singleton_self _
  closed v hv := absurd hv List.not_mem_nil

theorem apart_children (h : a.Forest) (hdown : a.GoesDown below) (id : Nat) :
    (below id).Pairwise fun x y ↦ ¬a.Below x y ∧ ¬a.Below y x := by
  have hnodup : (below id).Nodup := (hdown id).nodup (h.nodup_children id)
  have hup : ∀ c ∈ below id, a.Up c id := fun c hc ↦
    h.up_of_mem_toList ((hdown id).subset hc)
  have key : ∀ c ∈ below id, ∀ d ∈ below id, c ≠ d → ¬a.Below c d := by
    intro c hc d hd hne hcd
    rcases hcd.eq_or_of_up (hup c hc) with rfl | hid
    · exact hne rfl
    · exact h.not_below_parent (hup d hd) hid
  exact List.Pairwise.imp_of_mem (fun hc hd hne ↦ ⟨key _ hc _ hd hne, key _ hd _ hc hne.symm⟩)
    hnodup

/-- **The step lemma of a walk down.** -/
theorem step (h : a.Forest) (hdown : a.GoesDown below)
    (hw : a.Descent below start visited (id :: pending)) :
    a.Descent below start (visited ++ [id]) (below id ++ pending) := by
  obtain ⟨hapart, hrest⟩ := List.pairwise_cons.1 hw.apart
  have hup : ∀ c ∈ below id, a.Up c id := fun c hc ↦
    h.up_of_mem_toList ((hdown id).subset hc)
  have hmem : ∀ x, x ∈ visited ++ [id] ++ (below id ++ pending) ↔
      x ∈ below id ∨ x ∈ visited ++ id :: pending := by
    intro x
    simp only [List.mem_append, List.mem_cons, List.not_mem_nil, or_false]
    tauto
  have hid : id ∈ visited ++ id :: pending := List.mem_append_right _ List.mem_cons_self
  constructor
  case inside =>
    intro x hx
    rcases (hmem x).1 hx with hx | hx
    · exact lt_size_of_parent (hup x hx)
    · exact hw.inside x hx
  case apart =>
    refine List.pairwise_append.2 ⟨apart_children h hdown id, hrest, fun c hc q hq ↦ ⟨?_, ?_⟩⟩
    · intro hcq
      rcases hcq.eq_or_of_up (hup c hc) with rfl | hidq
      · exact (hapart _ hq).2 (.single (hup _ hc))
      · exact (hapart q hq).1 hidq
    · exact fun hqc ↦ (hapart q hq).2 (hqc.tail (hup c hc))
  case behind =>
    intro v hv q hq hvq
    rcases List.mem_append.1 hv with hv | hv
    · rcases List.mem_append.1 hq with hq | hq
      · exact hw.behind v hv id List.mem_cons_self (hvq.tail (hup q hq))
      · exact hw.behind v hv q (List.mem_cons_of_mem _ hq) hvq
    · obtain rfl := List.mem_singleton.1 hv
      rcases List.mem_append.1 hq with hq | hq
      · exact h.not_below_parent (hup q hq) hvq
      · exact (hapart q hq).1 hvq
  case order =>
    refine List.pairwise_append.2 ⟨hw.order, List.pairwise_singleton _ _, fun v hv x hx ↦ ?_⟩
    rw [List.mem_singleton.1 hx]
    exact hw.behind v hv id List.mem_cons_self
  case sound =>
    intro x hx
    rcases (hmem x).1 hx with hx | hx
    · exact (hw.sound id hid).tail hx
    · exact hw.sound x hx
  case start_mem => exact (hmem start).2 (.inr hw.start_mem)
  case closed =>
    intro v hv c hc
    rcases List.mem_append.1 hv with hv | hv
    · exact (hmem c).2 (.inr (hw.closed v hv c hc))
    · rw [List.mem_singleton.1 hv] at hc
      exact (hmem c).2 (.inl hc)

theorem nodup (hw : a.Descent below start visited pending) : visited.Nodup := by
  refine List.Pairwise.imp ?_ hw.order
  rintro x y hbelow rfl
  exact hbelow .refl

/-- There are never more visits than nodes, and there are fewer as long as a node is pending. -/
theorem length_lt (hw : a.Descent below start visited (id :: pending)) :
    visited.length < a.size := by
  have hnodup : (id :: visited).Nodup := List.nodup_cons.2
    ⟨fun hid ↦ hw.behind id hid id List.mem_cons_self .refl, hw.nodup⟩
  have hsub : id :: visited ⊆ List.range a.size := by
    intro x hx
    refine List.mem_range.2 (hw.inside x ?_)
    rcases List.mem_cons.1 hx with rfl | hx
    · exact List.mem_append_right _ List.mem_cons_self
    · exact List.mem_append_left _ hx
  have hlength := hnodup.length_le_of_subset hsub
  rwa [List.length_range, List.length_cons] at hlength

theorem mem_visited_iff (hw : a.Descent below start visited []) {x : Nat} :
    x ∈ visited ↔ Reaches below start x := by
  constructor
  · exact fun hx ↦ hw.sound x (by simpa using hx)
  · intro hx
    induction hx with
    | refl => simpa using hw.start_mem
    | tail _ hc ih => simpa using hw.closed _ ih _ hc

end Descent

/-! ## Collecting nodes -/

/-- The nodes that are collected right below a node. -/
def collectedBelow (a : Arena) (bodies : Bool) (id : Nat) : List Nat :=
  if (a.node id).kind.isLookBehind && !bodies then [] else (a.node id).children.toList

theorem goesDown_collectedBelow (bodies : Bool) : a.GoesDown (a.collectedBelow bodies) := by
  intro id
  unfold collectedBelow
  split
  · exact List.nil_sublist _
  · exact List.Sublist.refl _

theorem exists_collect (h : a.Forest) (bodies : Bool) (hstart : start < a.size) :
    ∃ visited, a.collect bodies a.size [start] #[] = visited.toArray ∧
      a.Descent (a.collectedBelow bodies) start visited [] := by
  have key : ∀ (fuel : Nat) (visited pending : List Nat),
      a.Descent (a.collectedBelow bodies) start visited pending →
      a.size ≤ fuel + visited.length →
      ∃ visited', a.collect bodies fuel pending visited.toArray = visited'.toArray ∧
        a.Descent (a.collectedBelow bodies) start visited' [] := by
    intro fuel
    induction fuel with
    | zero =>
      intro visited pending hw hfuel
      cases pending with
      | nil => exact ⟨visited, rfl, hw⟩
      | cons id pending => exact absurd hw.length_lt (by omega)
    | succ fuel ih =>
      intro visited pending hw hfuel
      cases pending with
      | nil => exact ⟨visited, rfl, hw⟩
      | cons id pending =>
        obtain ⟨visited', heq, hw'⟩ := ih _ _ (hw.step h (goesDown_collectedBelow bodies))
          (by simp only [List.length_append, List.length_singleton]; omega)
        refine ⟨visited', ?_, hw'⟩
        rw [← heq, collect, List.push_toArray]
        rfl
  exact key a.size [] [start] (.init hstart) (Nat.le_add_right _ _)

end Arena

end PatternAutomata
