import PatternAutomata.Proofs.Tree.Descent
import PatternAutomata.Proofs.Tree.Growth

/-!
# Copies of trees

To copy a node is to walk down from it and to add a node for every node visited. So the nodes that
are added mirror the nodes visited, in the same order: each is of the same kind as its *original*,
and its children are copies of the children of the original. The nodes that were there before do not
change.

While a copy is being made, the children that a new node does not have yet are pending.
-/

namespace PatternAutomata

namespace Arena

variable {a b : Arena}

/-- The node that a node is a copy of, once copies of some nodes have been added one after another.
Nodes that are no copies are their own originals. -/
def original (a : Arena) (visited : List Nat) (id : Nat) : Nat :=
  if id < a.size then id else visited.getD (id - a.size) id

theorem original_of_lt {visited : List Nat} {id : Nat} (h : id < a.size) :
    a.original visited id = id := if_pos h

theorem original_of_le {visited : List Nat} {id : Nat} (h : a.size + visited.length ≤ id) :
    a.original visited id = id := by
  rw [original, if_neg (by omega), List.getD_eq_getElem?_getD, List.getElem?_eq_none (by omega),
    Option.getD_none]

theorem original_cons_size {visited : List Nat} {x : Nat} :
    a.original (x :: visited) a.size = x := by
  rw [original, if_neg (Nat.lt_irrefl _), Nat.sub_self, List.getD_cons_zero]

theorem original_append_of_lt {visited : List Nat} {x id : Nat}
    (h : id < a.size + visited.length) :
    a.original (visited ++ [x]) id = a.original visited id := by
  unfold original
  by_cases hid : id < a.size
  · rw [if_pos hid, if_pos hid]
  · rw [if_neg hid, if_neg hid, List.getD_eq_getElem?_getD, List.getD_eq_getElem?_getD,
      List.getElem?_append_left (by omega)]

theorem original_append_last {visited : List Nat} {x : Nat} :
    a.original (visited ++ [x]) (a.size + visited.length) = x := by
  rw [original, if_neg (by omega), List.getD_eq_getElem?_getD, Nat.add_sub_cancel_left,
    List.getElem?_concat_length, Option.getD_some]

/-- `b` is `a` with copies of some nodes added, all but for the pending children of the copies. -/
structure Copying (a : Arena) (visited : List Nat) (pending : List (Nat × Option Nat))
    (b : Arena) : Prop where
  /-- There is one copy for each of the nodes. -/
  size : b.size = a.size + visited.length
  /-- The nodes of `a` have not changed. -/
  old : ∀ x < a.size, b.node x = a.node x
  /-- The nodes make up a forest. -/
  forest : b.Forest
  /-- A copy is what its original is. -/
  kind : ∀ x, (b.node x).kind = (a.node (a.original visited x)).kind
  /-- The children of a copy are copies of those of its original, the pending ones apart. -/
  children : ∀ x, (b.node x).children.toList.map (a.original visited) ++
      (pending.filter (·.2 = some x)).map (·.1) =
    (a.node (a.original visited x)).children.toList
  /-- Pending nodes are children of copies. -/
  into : ∀ q ∈ pending, ∀ p, q.2 = some p → a.size ≤ p ∧ p < b.size
  /-- The first copy is not placed. -/
  loose : (b.node a.size).parent = none

namespace Copying

theorem init (h : a.Forest) (id : Nat) : a.Copying [] [(id, none)] a where
  size := rfl
  old _ _ := rfl
  forest := h
  kind x := by
    have hx : a.original [] x = x := by simp [original]
    rw [hx]
  children x := by
    have hx : a.original [] = fun x ↦ x := funext fun x ↦ by simp [original]
    simp [hx]
  into q hq p hp := by
    rw [List.mem_singleton.1 hq] at hp
    cases hp
  loose := parent_size a

/-- Adding a copy of one node, with a place below another one or without. -/
def addCopy (b : Arena) (n : Node) (into : Option Nat) : Arena :=
  let c : Arena := ⟨b.nodes.push { n with parent := none, index := 0, children := #[] }⟩
  match into with
  | none => c
  | some parent => c.link parent b.size

theorem size_addCopy (n : Node) (into : Option Nat) : (addCopy b n into).size = b.size + 1 := by
  cases into <;> simp [addCopy]

theorem node_addCopy_eq (n : Node) {into : Option Nat} (hinto : ∀ p, into = some p → p < b.size)
    (x : Nat) :
    (addCopy b n into).node x =
      if x = b.size then
        { n with
          parent := into
          index := into.elim 0 fun p ↦ (b.node p).children.size
          children := #[] }
      else if into = some x then
        { b.node x with children := (b.node x).children.push b.size }
      else b.node x := by
  let c : Arena := ⟨b.nodes.push { n with parent := none, index := 0, children := #[] }⟩
  have hsize : c.size = b.size + 1 := size_push _
  have hc : ∀ x, c.node x =
      if x = b.size then { n with parent := none, index := 0, children := #[] } else b.node x :=
    fun _ ↦ node_push _
  cases into with
  | none =>
    rw [if_neg (show ¬none = some x from nofun)]
    exact hc x
  | some p =>
    have hp := hinto p rfl
    have hne : p ≠ b.size := Nat.ne_of_lt hp
    have hadd : (addCopy b n (some p)).node x = (c.link p b.size).node x := rfl
    rw [hadd, node_link (by omega) (by omega), hc, hc, if_neg hne]
    by_cases hx : x = b.size
    · subst hx
      simp [hne.symm]
    · by_cases hxp : p = x
      · subst hxp
        simp [hx]
      · simp [hx, hxp, Ne.symm hxp]

theorem node_addCopy (n : Node) {into : Option Nat} (hinto : ∀ p, into = some p → p < b.size)
    (x : Nat) :
    ((addCopy b n into).node x).kind = (if x = b.size then n.kind else (b.node x).kind) ∧
      ((addCopy b n into).node x).parent = (if x = b.size then into else (b.node x).parent) ∧
      ((addCopy b n into).node x).children.toList =
        (b.node x).children.toList ++ if into = some x then [b.size] else [] := by
  have hnew : (b.node b.size).children = #[] := by rw [node_of_size_le (Nat.le_refl _)]; rfl
  rw [node_addCopy_eq n hinto]
  by_cases hx : x = b.size
  · subst hx
    have hne : into ≠ some b.size := fun h ↦ Nat.lt_irrefl _ (hinto _ h)
    simp [hnew, hne]
  · by_cases hxp : into = some x
    · simp [hx, hxp]
    · simp [hx, hxp]

theorem node_addCopy_of_ne (n : Node) {into : Option Nat}
    (hinto : ∀ p, into = some p → p < b.size) {x : Nat} (hx : x ≠ b.size) (hxp : into ≠ some x) :
    (addCopy b n into).node x = b.node x := by
  rw [node_addCopy_eq n hinto, if_neg hx, if_neg hxp]

theorem forest_addCopy (h : b.Forest) (n : Node) {into : Option Nat}
    (hinto : ∀ p, into = some p → p < b.size) : (addCopy b n into).Forest := by
  let c : Arena := ⟨b.nodes.push { n with parent := none, index := 0, children := #[] }⟩
  have hsame : SamePlaces b c := samePlaces_push rfl rfl rfl
  have hc : c.Forest := hsame.forest h
  have hsize : c.size = b.size + 1 := size_push _
  cases into with
  | none => exact hc
  | some p =>
    have hp := hinto p rfl
    have hnew : (c.node b.size).parent = none := by
      rw [hsame.parent, node_of_size_le (Nat.le_refl _)]
      rfl
    refine hc.link (by omega) (by omega) hnew fun hbelow ↦ ?_
    have hlt := h.lt_of_below (hsame.below_iff.1 hbelow) hp
    omega

theorem filter_waiting_of_ne (l : List Nat) {k x : Nat} (h : k ≠ x) :
    (l.map (·, some k)).filter (·.2 = some x) = [] := by
  refine List.filter_eq_nil_iff.2 fun q hq hqx ↦ ?_
  obtain ⟨c, -, rfl⟩ := List.mem_map.1 hq
  exact h (Option.some.inj (of_decide_eq_true hqx))

theorem filter_waiting_self (l : List Nat) (k : Nat) :
    (l.map (·, some k)).filter (·.2 = some k) = l.map (·, some k) := by
  refine List.filter_eq_self.2 fun q hq ↦ ?_
  obtain ⟨c, -, rfl⟩ := List.mem_map.1 hq
  exact decide_eq_true rfl

section Step

variable {visited : List Nat} {id : Nat} {into : Option Nat} {pending : List (Nat × Option Nat)}

theorem lt_size_of_into (h : a.Copying visited ((id, into) :: pending) b) :
    ∀ p, into = some p → p < b.size :=
  fun p hp ↦ (h.into _ List.mem_cons_self p hp).2

theorem absent (h : a.Copying visited ((id, into) :: pending) b) {x : Nat} (hx : b.size ≤ x) :
    (b.node x).children.toList = [] ∧ pending.filter (·.2 = some x) = [] ∧ into ≠ some x := by
  refine ⟨by rw [node_of_size_le hx]; rfl, List.filter_eq_nil_iff.2 fun q hq hqx ↦ ?_, fun hp ↦ ?_⟩
  · have := (h.into q (List.mem_cons_of_mem _ hq) x (of_decide_eq_true hqx)).2
    omega
  · have := h.lt_size_of_into x hp
    omega

theorem original_step (h : a.Copying visited pending b) (x : Nat) :
    a.original (visited ++ [id]) x = if x = b.size then id else a.original visited x := by
  have hsize := h.size
  rcases Nat.lt_trichotomy x b.size with hx | rfl | hx
  · rw [if_neg (Nat.ne_of_lt hx), original_append_of_lt (hsize ▸ hx)]
  · rw [if_pos rfl, hsize, original_append_last]
  · have hlength : (visited ++ [id]).length = visited.length + 1 := List.length_append
    rw [if_neg (Nat.ne_of_gt hx), original_of_le (by omega), original_of_le (by omega)]

/-- The children that a copy has and those that it waits for are copies of the children of its
original, also once one more copy has been made. -/
theorem children_step (h : a.Copying visited ((id, into) :: pending) b) (hid : id < a.size)
    (x : Nat) :
    ((addCopy b (b.node id) into).node x).children.toList.map (a.original (visited ++ [id])) ++
      (((b.node id).children.toList.map (·, some b.size) ++ pending).filter
        (·.2 = some x)).map (·.1) =
    (a.node (a.original (visited ++ [id]) x)).children.toList := by
  have hmap : (b.node x).children.toList.map (a.original (visited ++ [id])) =
      (b.node x).children.toList.map (a.original visited) := by
    refine List.map_congr_left fun c hc ↦ ?_
    have hlt := lt_size_of_parent (h.forest.up_of_mem_toList hc)
    rw [h.original_step, if_neg (Nat.ne_of_lt hlt)]
  rw [(node_addCopy _ h.lt_size_of_into x).2.2, List.map_append, hmap, h.original_step x,
    List.filter_append]
  by_cases hx : x = b.size
  · -- the new node: all its children are pending
    subst hx
    obtain ⟨hnone, hpending, hne⟩ := h.absent (Nat.le_refl _)
    rw [hnone, if_neg hne, if_pos rfl, filter_waiting_self, hpending, ← h.old id hid]
    simp [Function.comp_def]
  · -- another node: one of its pending children may have been placed
    rw [if_neg hx, ← h.children x, filter_waiting_of_ne _ (Ne.symm hx), List.nil_append,
      List.append_assoc]
    congr 1
    by_cases hxp : into = some x
    · simp [hxp, h.original_step]
    · simp [hxp]

/-- **The step lemma of copying.** -/
theorem step (h : a.Copying visited ((id, into) :: pending) b) (hid : id < a.size) :
    a.Copying (visited ++ [id]) ((b.node id).children.toList.map (·, some b.size) ++ pending)
      (addCopy b (b.node id) into) := by
  have hlt := h.lt_size_of_into
  have hle : a.size ≤ b.size := h.size ▸ Nat.le_add_right _ _
  have hfirst : ∀ p, into = some p → a.size ≤ p :=
    fun p hp ↦ (h.into _ List.mem_cons_self p hp).1
  refine ⟨?_, fun x hx ↦ ?_, forest_addCopy h.forest _ hlt, fun x ↦ ?_, h.children_step hid, ?_, ?_⟩
  · rw [size_addCopy, h.size, List.length_append, List.length_singleton, Nat.add_assoc]
  · rw [node_addCopy_of_ne _ hlt (by omega) fun hx' ↦ ?_, h.old x hx]
    exact absurd (hfirst x hx') (by omega)
  · rw [(node_addCopy _ hlt x).1, h.original_step]
    by_cases hx : x = b.size
    · rw [if_pos hx, if_pos hx, h.kind, original_of_lt hid]
    · rw [if_neg hx, if_neg hx, h.kind]
  · intro q hq p hp
    rw [size_addCopy]
    rcases List.mem_append.1 hq with hq | hq
    · obtain ⟨c, -, rfl⟩ := List.mem_map.1 hq
      obtain rfl : b.size = p := Option.some.inj hp
      omega
    · have := h.into q (List.mem_cons_of_mem _ hq) p hp
      omega
  · rw [(node_addCopy _ hlt _).2.1]
    by_cases hsame : a.size = b.size
    · rw [if_pos hsame]
      exact Option.eq_none_iff_forall_ne_some.2 fun p hp ↦
        absurd (hfirst p hp) (by have := hlt p hp; omega)
    · rw [if_neg hsame]
      exact h.loose

end Step

theorem children_eq {visited : List Nat} (h : a.Copying visited [] b) (x : Nat) :
    (b.node x).children.toList.map (a.original visited) =
      (a.node (a.original visited x)).children.toList := by
  rw [← h.children x]
  simp

end Copying

/-- The children of a node, as the steps down of a walk. -/
def childrenOf (a : Arena) (id : Nat) : List Nat := (a.node id).children.toList

theorem goesDown_childrenOf : a.GoesDown a.childrenOf := fun _ ↦ List.Sublist.refl _

/-- Copying a node is a walk down from it that visits it first. What holds before it and survives
the making of one copy holds in the end. -/
theorem exists_copying_keeping {P : List Nat → Arena → Prop} (h : a.Forest) {id : Nat}
    (hid : id < a.size) (hinit : P [] a)
    (hstep : ∀ {visited : List Nat} {b : Arena} {x : Nat} {into : Option Nat}
      {pending : List (Nat × Option Nat)}, a.Copying visited ((x, into) :: pending) b →
        x < a.size → P visited b → P (visited ++ [x]) (Copying.addCopy b (b.node x) into)) :
    ∃ visited, a.Copying (id :: visited) [] (a.copy id) ∧
      a.Descent a.childrenOf id (id :: visited) [] ∧ P (id :: visited) (a.copy id) := by
  have key : ∀ (fuel : Nat) (visited : List Nat) (pending : List (Nat × Option Nat)) (b : Arena),
      a.Copying visited pending b →
      a.Descent a.childrenOf id visited (pending.map (·.1)) → P visited b →
      a.size ≤ fuel + visited.length →
      ∃ visited', visited <+: visited' ∧ a.Copying visited' [] (copyAll fuel pending b) ∧
        a.Descent a.childrenOf id visited' [] ∧ P visited' (copyAll fuel pending b) := by
    intro fuel
    induction fuel with
    | zero =>
      intro visited pending b hb hw hP hfuel
      cases pending with
      | nil => exact ⟨visited, List.prefix_rfl, hb, hw, hP⟩
      | cons q pending => exact absurd hw.length_lt (by omega)
    | succ fuel ih =>
      intro visited pending b hb hw hP hfuel
      cases pending with
      | nil => exact ⟨visited, List.prefix_rfl, hb, hw, hP⟩
      | cons q pending =>
        obtain ⟨x, into⟩ := q
        have hx : x < a.size := hw.inside x (List.mem_append_right _ List.mem_cons_self)
        have hw' := hw.step h goesDown_childrenOf
        have hids : ((b.node x).children.toList.map (·, some b.size) ++ pending).map (·.1) =
            a.childrenOf x ++ pending.map (·.1) := by
          rw [hb.old x hx, List.map_append, List.map_map]
          simp [Function.comp_def, childrenOf]
        rw [← hids] at hw'
        obtain ⟨visited', hprefix, hb'⟩ := ih _ _ _ (hb.step hx) hw' (hstep hb hx hP)
          (by simp only [List.length_append, List.length_singleton]; omega)
        exact ⟨visited', (List.prefix_append _ _).trans hprefix, hb'⟩
  -- the first visit is to the node itself
  obtain ⟨n, hn⟩ := Nat.exists_eq_add_of_le' (Nat.one_le_of_lt hid)
  have hw := (@Descent.init a a.childrenOf id hid).step h goesDown_childrenOf
  have hids : ((a.node id).children.toList.map (·, some a.size) ++
      ([] : List (Nat × Option Nat))).map (·.1) = a.childrenOf id ++ [] := by
    rw [List.map_append, List.map_map]
    simp [Function.comp_def, childrenOf]
  rw [← hids] at hw
  obtain ⟨visited', ⟨rest, rfl⟩, hb⟩ := key n [id] _ _ ((Copying.init h id).step hid) hw
    (hstep (Copying.init h id) hid hinit) (Nat.le_of_eq (by rw [hn, List.length_singleton]))
  refine ⟨rest, ?_⟩
  rw [copy_eq, hn]
  exact hb

theorem exists_copying (h : a.Forest) {id : Nat} (hid : id < a.size) :
    ∃ visited, a.Copying (id :: visited) [] (a.copy id) ∧
      a.Descent a.childrenOf id (id :: visited) [] := by
  obtain ⟨visited, hcopying, hdescent, -⟩ :=
    exists_copying_keeping (P := fun _ _ ↦ True) h hid trivial fun _ _ _ ↦ trivial
  exact ⟨visited, hcopying, hdescent⟩

/-- **Copying a node copies everything below it**, that node first. -/
theorem exists_copy (h : a.Forest) {id : Nat} (hid : id < a.size) :
    ∃ visited, a.Copying (id :: visited) [] (a.copy id) := by
  obtain ⟨visited, hcopying, -⟩ := exists_copying h hid
  exact ⟨visited, hcopying⟩

end Arena

end PatternAutomata
