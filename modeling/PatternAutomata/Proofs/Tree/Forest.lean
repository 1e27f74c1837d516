import Mathlib.Data.List.Nodup
import Mathlib.Logic.Relation
import PatternAutomata.Proofs.Tree.Arena

/-!
# Forests

The nodes of an arena make up a forest: a node and its parent agree about each other, and going up
from a node always ends. Both survive every way in which nodes are made, placed and changed, as long
as only nodes without a place are placed, and never below themselves.

Going up ends within the number of nodes, so the list of the nodes above a node, which is cut off
after that many, is complete.
-/

namespace PatternAutomata

namespace Arena

/-! ## Going up -/

/-- `p` is the parent of `c`. -/
def Up (a : Arena) (c p : Nat) : Prop := (a.node c).parent = some p

/-- `c` is `p` or stands below it. -/
def Below (a : Arena) : Nat → Nat → Prop := Relation.ReflTransGen a.Up

/-- A node has one parent at most, so of two nodes above it one is above the other. -/
theorem Below.total {a : Arena} {c p q : Nat} (hp : a.Below c p) (hq : a.Below c q) :
    a.Below p q ∨ a.Below q p :=
  Relation.ReflTransGen.total_of_right_unique
    (fun _ _ _ h h' ↦ Option.some.inj (h.symm.trans h')) hp hq

theorem Below.eq_or_of_up {a : Arena} {c p x : Nat} (h : a.Below c x) (hup : a.Up c p) :
    c = x ∨ a.Below p x := by
  rcases h.cases_head with heq | ⟨q, hq, hqx⟩
  · exact .inl heq
  · obtain rfl : q = p := Option.some.inj (hq.symm.trans hup)
    exact .inr hqx

theorem Below.lt_size {a : Arena} {c x : Nat} (h : a.Below c x) (hx : x < a.size) : c < a.size := by
  rcases h.cases_head with rfl | ⟨p, hup, -⟩
  · exact hx
  · exact lt_size_of_parent hup

theorem Below.eq_of_loose {a : Arena} {c p : Nat} (h : a.Below c p)
    (hloose : (a.node c).parent = none) : p = c := by
  rcases h.cases_head with rfl | ⟨q, hq, -⟩
  · rfl
  · rw [Up, hloose] at hq
    cases hq

/-- The nodes above a node without a place, seen from below: it is above all others. -/
theorem Below.below_of_loose {a : Arena} {c p r : Nat} (hp : a.Below c p) (hr : a.Below c r)
    (hloose : (a.node r).parent = none) : a.Below p r := by
  rcases hp.total hr with h | h
  · exact h
  · rw [h.eq_of_loose hloose]
    exact .refl

/-! ## Forests -/

/-- The nodes and their parents agree about each other, and every way up ends. -/
structure Forest (a : Arena) : Prop where
  /-- A child knows its parent and its place below it. -/
  child : ∀ {p i c : Nat}, (a.node p).children[i]? = some c →
    (a.node c).parent = some p ∧ (a.node c).index = i
  /-- A node is found at its place below its parent. -/
  parent : ∀ {c p : Nat}, a.Up c p → (a.node p).children[(a.node c).index]? = some c
  /-- Every way up ends. -/
  grounded : ∀ id, Acc (fun p c ↦ a.Up c p) id

namespace Forest

variable {a : Arena}

theorem empty : Forest {} := by
  have hnode : ∀ id, node {} id = default := fun id ↦ node_of_size_le (Nat.zero_le _)
  refine ⟨fun hc ↦ ?_, fun hup ↦ ?_, fun id ↦ .intro id fun p hp ↦ ?_⟩
  · rw [hnode] at hc; cases hc
  · rw [Up, hnode] at hup; cases hup
  · rw [Up, hnode] at hp; cases hp

theorem up_of_mem (h : a.Forest) {c p : Nat} (hc : c ∈ (a.node p).children) : a.Up c p := by
  obtain ⟨i, hi⟩ := Array.mem_iff_getElem?.1 hc
  exact (h.child hi).1

theorem up_of_mem_toList (h : a.Forest) {c p : Nat} (hc : c ∈ (a.node p).children.toList) :
    a.Up c p := h.up_of_mem (Array.mem_toList_iff.1 hc)

theorem mem_of_up (h : a.Forest) {c p : Nat} (hup : a.Up c p) : c ∈ (a.node p).children :=
  Array.mem_iff_getElem?.2 ⟨_, h.parent hup⟩

theorem mem_children_iff (h : a.Forest) {c p : Nat} : c ∈ (a.node p).children ↔ a.Up c p :=
  ⟨h.up_of_mem, h.mem_of_up⟩

theorem index_lt (h : a.Forest) {c p : Nat} (hup : a.Up c p) :
    (a.node c).index < (a.node p).children.size :=
  (Array.getElem?_eq_some_iff.1 (h.parent hup)).1

theorem child_lt (h : a.Forest) {p i c : Nat} (hc : (a.node p).children[i]? = some c) :
    c < a.size :=
  lt_size_of_parent (h.child hc).1

theorem parent_lt (h : a.Forest) {c p : Nat} (hup : a.Up c p) : p < a.size :=
  lt_size_of_child (h.parent hup)

theorem lt_of_below (h : a.Forest) {c p : Nat} (hb : a.Below c p) (hc : c < a.size) :
    p < a.size := by
  induction hb with
  | refl => exact hc
  | tail _ hup _ => exact h.parent_lt hup

theorem nodup_children (h : a.Forest) (p : Nat) : (a.node p).children.toList.Nodup := by
  refine List.nodup_iff_injective_getElem.2 fun ⟨i, hi⟩ ⟨j, hj⟩ hij ↦ ?_
  have key : ∀ k (hk : k < (a.node p).children.toList.length),
      (a.node ((a.node p).children.toList[k])).index = k := fun k hk ↦
    (h.child (p := p) (by rw [← Array.getElem?_toList, List.getElem?_eq_getElem hk])).2
  dsimp only at hij
  have hindex : i = j := by rw [← key i hi, hij, key j hj]
  exact Fin.ext hindex

theorem not_below_parent (h : a.Forest) {c p : Nat} (hup : a.Up c p) : ¬a.Below p c := by
  intro hb
  have key : ∀ id, Acc (fun p c ↦ a.Up c p) id → ∀ q, a.Up id q → ¬a.Below q id := by
    intro id hacc
    induction hacc with
    | intro id _ ih =>
      intro q hq hqid
      rcases hqid.cases_head with rfl | ⟨r, hr, hrid⟩
      · exact ih _ hq _ hq .refl
      · exact ih q hq r hr (hrid.tail hq)
  exact key c (h.grounded c) p hup hb

theorem below_of_next (h : a.Forest) {x p c r : Nat} (hup : a.Up x p)
    (hc : (a.node p).children[(a.node x).index + 1]? = some c) (hx : a.Below x r)
    (hbelow : a.Below c r) : a.Below p r := by
  obtain ⟨hupc, hindex⟩ := h.child hc
  rcases hbelow.eq_or_of_up hupc with heq | hp
  · rcases hx.eq_or_of_up hup with heq' | hp
    · rw [heq, ← heq'] at hindex
      omega
    · exact hp
  · exact hp

theorem exists_top (h : a.Forest) (id : Nat) :
    ∃ top, a.Below id top ∧ (a.node top).parent = none := by
  induction h.grounded id with
  | intro id _ ih =>
    cases hparent : (a.node id).parent with
    | none => exact ⟨id, .refl, hparent⟩
    | some p =>
      obtain ⟨top, hbelow, htop⟩ := ih p hparent
      exact ⟨top, .head hparent hbelow, htop⟩

/-! ## The list of the nodes above -/

/-- The way up from a node, cut off nowhere if the allowance is large enough. -/
theorem exists_lineage (h : a.Forest) (id : Nat) :
    ∃ l : List Nat, (∀ n, l.length ≤ n → a.lineage n id = l) ∧ l.Nodup ∧
      ∀ x, x ∈ l ↔ a.Below id x := by
  induction h.grounded id with
  | intro id _ ih =>
    cases hparent : (a.node id).parent with
    | none =>
      refine ⟨[id], fun n hn ↦ ?_, List.nodup_singleton id, fun x ↦ ?_⟩
      · obtain ⟨n, rfl⟩ := Nat.exists_eq_add_of_le' hn
        simp [lineage, hparent]
      · rw [List.mem_singleton]
        exact ⟨fun hx ↦ hx ▸ .refl, fun hx ↦ hx.eq_of_loose hparent⟩
    | some p =>
      obtain ⟨l, hl, hnodup, hmem⟩ := ih p hparent
      refine ⟨id :: l, fun n hn ↦ ?_, List.nodup_cons.2 ⟨?_, hnodup⟩, fun x ↦ ?_⟩
      · obtain ⟨n, rfl⟩ := Nat.exists_eq_add_of_le' (Nat.le_trans (Nat.le_add_left 1 _) hn)
        simp only [lineage, hparent]
        rw [hl n (by simpa using hn)]
      · exact fun hid ↦ h.not_below_parent hparent ((hmem id).1 hid)
      · rw [List.mem_cons, hmem]
        constructor
        · rintro (rfl | hx)
          · exact .refl
          · exact .head hparent hx
        · intro hx
          exact (hx.eq_or_of_up hparent).imp_left Eq.symm

/-- The list of a node's ancestors is complete: there are no more nodes on the way up than nodes. -/
theorem lineage_spec (h : a.Forest) {id : Nat} (hid : id < a.size) :
    (∀ n, a.size ≤ n → a.lineage n id = a.ancestors id) ∧ (a.ancestors id).Nodup ∧
      ∀ x, x ∈ a.ancestors id ↔ a.Below id x := by
  obtain ⟨l, hl, hnodup, hmem⟩ := h.exists_lineage id
  have hsub : l ⊆ List.range a.size := fun x hx ↦
    List.mem_range.2 (h.lt_of_below ((hmem x).1 hx) hid)
  have hlen : l.length ≤ a.size := by
    simpa using List.Nodup.length_le_of_subset hnodup hsub
  have heq : a.ancestors id = l := hl a.size hlen
  rw [heq]
  exact ⟨fun n hn ↦ hl n (Nat.le_trans hlen hn), hnodup, hmem⟩

theorem mem_ancestors (h : a.Forest) {id x : Nat} (hid : id < a.size) :
    x ∈ a.ancestors id ↔ a.Below id x :=
  (h.lineage_spec hid).2.2 x

theorem ancestors_of_up (h : a.Forest) {c p : Nat} (hup : a.Up c p) :
    a.ancestors c = c :: a.ancestors p := by
  have hc : c < a.size := lt_size_of_parent hup
  rw [← (h.lineage_spec hc).1 (a.size + 1) (Nat.le_succ _), lineage, hup]
  rfl

theorem length_ancestors_le (h : a.Forest) {id : Nat} (hid : id < a.size) :
    (a.ancestors id).length ≤ a.size := by
  obtain ⟨-, hnodup, hmem⟩ := h.lineage_spec hid
  have hsub : a.ancestors id ⊆ List.range a.size := fun x hx ↦
    List.mem_range.2 (h.lt_of_below ((hmem x).1 hx) hid)
  simpa using List.Nodup.length_le_of_subset hnodup hsub

/-! ## Going down -/

/-- What follows for a node from its children holds for all nodes: going down ends as well, as the
way back up is no longer than there are nodes. -/
theorem induction_down (h : a.Forest) {motive : Nat → Prop}
    (hnode : ∀ p, (∀ c, a.Up c p → motive c) → motive p) (id : Nat) : motive id := by
  have key : ∀ n id, a.size - (a.ancestors id).length ≤ n → motive id := by
    intro n
    induction n with
    | zero =>
      refine fun id hid ↦ hnode id fun c hup ↦ ?_
      have hle := h.length_ancestors_le (lt_size_of_parent hup)
      rw [h.ancestors_of_up hup, List.length_cons] at hle
      omega
    | succ n ih =>
      refine fun id hid ↦ hnode id fun c hup ↦ ih c ?_
      rw [h.ancestors_of_up hup, List.length_cons]
      omega
  exact key _ id (Nat.le_refl _)

end Forest

end Arena

end PatternAutomata
