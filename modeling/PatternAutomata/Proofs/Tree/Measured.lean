import Mathlib.Algebra.BigOperators.Group.Finset.Basic
import Mathlib.Algebra.Order.BigOperators.Group.List
import Mathlib.Algebra.Order.Group.Nat
import PatternAutomata.Proofs.Language.Distance
import PatternAutomata.Proofs.Tree.Nested
import PatternAutomata.Proofs.Tree.Peopled
import PatternAutomata.Proofs.Tree.WellFormed

/-!
# What the passes over a tree work out

The lengths of nodes are worked out upward, from the end of the preorder. When a node has its turn,
its children have had theirs and none of them has another one, so in the end the length of every
node is made up from the lengths of its children. The distances are worked out downward: a node is
given its own by its parent, before it hands on what follows from it to its children, and nothing
changes it afterwards.

So both are known by equations between a node and its children. Along a way through the tree,
lengths add up to no more than there are nodes: the terms of a sequence have different classes below
them.
-/

namespace PatternAutomata

namespace Arena

variable {a b : Arena} {lengths lengths' : Array Nat} {root id p c x n : Nat}
  {rest : List Nat} {order : Array Nat}

/-! ## Lengths -/

theorem leastLength_congr {n : Node}
    (h : ∀ c ∈ n.children, lengths.getD c 0 = lengths'.getD c 0) :
    a.leastLength lengths n = a.leastLength lengths' n := by
  have hmap : ∀ ids : List Nat, (∀ c ∈ ids, c ∈ n.children) →
      ids.map (lengths.getD · 0) = ids.map (lengths'.getD · 0) := fun ids hids ↦
    List.map_congr_left fun c hc ↦ h c (hids c hc)
  unfold leastLength
  split
  · rfl
  · rw [← Array.foldl_toList, ← Array.foldl_toList]
    have hsum := congrArg List.sum (hmap n.children.toList fun c ↦ Array.mem_toList_iff.1)
    rwa [List.sum_eq_foldl, List.foldl_map, List.sum_eq_foldl, List.foldl_map] at hsum
  · rw [hmap _ fun c hc ↦ Array.mem_toList_iff.1 (List.mem_filter.1 hc).1]
  · rfl

theorem leastLength_sequence {n : Node} (hkind : n.kind = .sequence) :
    a.leastLength lengths n = (n.children.toList.map (lengths.getD · 0)).sum := by
  rw [leastLength, hkind, List.sum_eq_foldl, List.foldl_map, ← Array.foldl_toList]

theorem leastLength_eq_zero {n : Node} (hgroup : n.kind.isGroup = false)
    (hsequence : n.kind.isSequence = false) (hchars : n.kind.isChars = false) :
    a.leastLength lengths n = 0 := by
  unfold leastLength
  split
  · next hkind => rw [hkind] at hchars; cases hchars
  · next hkind => rw [hkind] at hsequence; cases hsequence
  · next hkind => rw [hkind] at hgroup; cases hgroup
  · rfl

section

variable {node : Node} {g : Group} (hkind : node.kind = .group g) (hc : c ∈ node.children)
  (hcounts : a.countsForLength g c = true)
include hkind hc hcounts

theorem leastLength_group_le : a.leastLength lengths node ≤ lengths.getD c 0 := by
  rw [leastLength, hkind]
  exact List.min?_getD_le_of_mem
    (List.mem_map_of_mem (List.mem_filter.2 ⟨Array.mem_toList_iff.2 hc, hcounts⟩))

theorem exists_leastLength_group_eq : ∃ c ∈ node.children, a.countsForLength g c = true ∧
    a.leastLength lengths node = lengths.getD c 0 := by
  simp only [leastLength, hkind]
  cases hmin : ((node.children.toList.filter (a.countsForLength g)).map
      (lengths.getD · 0)).min? with
  | none =>
    rw [List.min?_eq_none_iff, List.map_eq_nil_iff] at hmin
    have hmem := List.mem_filter.2 ⟨Array.mem_toList_iff.2 hc, hcounts⟩
    rw [hmin] at hmem
    cases hmem
  | some n =>
    obtain ⟨c, hc, hn⟩ := List.mem_map.1 (List.min?_mem hmin)
    obtain ⟨hmem, hcounts⟩ := List.mem_filter.1 hc
    exact ⟨c, Array.mem_toList_iff.1 hmem, hcounts, hn.symm⟩

end

theorem getD_setIfInBounds_of_ne (hne : x ≠ id) :
    (lengths.setIfInBounds id n).getD x 0 = lengths.getD x 0 := by
  rw [Array.getD_eq_getD_getElem?, Array.getElem?_setIfInBounds_ne hne.symm,
    Array.getD_eq_getD_getElem?]

theorem getD_setIfInBounds_self (hid : id < lengths.size) :
    (lengths.setIfInBounds id n).getD id 0 = n := by
  rw [Array.getD_eq_getD_getElem?, Array.getElem?_setIfInBounds, if_pos rfl, if_pos hid]
  rfl

theorem leastLength_of_mem_rest (before : List Nat) (hforest : a.Forest)
    (h : Downward a root order.toList) (horder : order.toList = before ++ rest) :
    let lengths := rest.foldr
      (fun id lengths ↦ lengths.setIfInBounds id (a.leastLength lengths (a.node id)))
      (Array.replicate a.size 0)
    lengths.size = a.size ∧
      ∀ x ∈ rest, lengths.getD x 0 = a.leastLength lengths (a.node x) := by
  induction rest generalizing before with
  | nil => exact ⟨Array.size_replicate, nofun⟩
  | cons id rest ih =>
    obtain ⟨hsize, hrest⟩ := ih (before ++ [id]) (by rw [horder]; simp)
    rw [List.foldr_cons]
    generalize rest.foldr _ _ = lengths at hsize hrest ⊢
    have hid : id < a.size := h.lt_size id (by rw [horder]; simp)
    have hapart := h.apart
    rw [horder] at hapart
    have hbehind := (List.pairwise_cons.1 (List.pairwise_append.1 hapart).2.1).1
    -- none of the nodes that have had their turns has this one for a child, nor has it itself
    have hkeep : ∀ x ∈ id :: rest, a.leastLength
        (lengths.setIfInBounds id (a.leastLength lengths (a.node id))) (a.node x) =
          a.leastLength lengths (a.node x) := by
      refine fun x hx ↦ leastLength_congr fun c hc ↦ getD_setIfInBounds_of_ne ?_
      rintro rfl
      have hup := hforest.up_of_mem hc
      rcases List.mem_cons.1 hx with rfl | hx
      · exact hforest.not_below_parent hup .refl
      · exact hbehind x hx (.single hup)
    refine ⟨(Array.size_setIfInBounds ..).trans hsize, fun x hx ↦ ?_⟩
    rw [hkeep x hx]
    rcases List.mem_cons.1 hx with rfl | hmem
    · exact getD_setIfInBounds_self (hsize ▸ hid)
    · rw [getD_setIfInBounds_of_ne ?_, hrest x hmem]
      rintro rfl
      exact hbehind x hmem .refl

/-- **The length of every node is made up from those of its children.** -/
theorem getD_leastLengths (hforest : a.Forest) (h : Downward a root order.toList) (hx : x ∈ order) :
    (a.leastLengths order).getD x 0 = a.leastLength (a.leastLengths order) (a.node x) := by
  rw [leastLengths, ← Array.foldr_toList]
  exact (leastLength_of_mem_rest [] hforest h rfl).2 x (Array.mem_toList_iff.2 hx)

/-! ## Distances -/

/-- A node has handed on its distance: its alternatives start where it does, and each of its terms
behind the terms in front. -/
structure HandsOn (a : Arena) (lengths : Array Nat) (p : Nat) : Prop where
  term : ∀ {i c : Nat}, (a.node p).kind = .sequence → (a.node p).children[i]? = some c →
    (a.node c).minPath =
      (a.node p).minPath + (((a.node p).children.toList.take i).map (lengths.getD · 0)).sum
  alternative : ∀ {c : Nat}, (a.node p).kind.isGroup = true → c ∈ (a.node p).children →
    (a.node c).minPath = (a.node p).minPath

theorem minPath_setMinPath (hc : c < a.size) :
    ((a.setMinPath c n).node x).minPath = if x = c then n else (a.node x).minPath := by
  rw [setMinPath, node_modify _ hc]
  split <;> rfl

theorem minPath_foldl_terms {ids : List Nat} (hids : ∀ c ∈ ids, c < a.size) (hnodup : ids.Nodup) :
    let b := (ids.foldl (fun (r : Arena × Nat) child ↦
      (r.1.setMinPath child r.2, r.2 + lengths.getD child 0)) (a, n)).1
    (x ∉ ids → (b.node x).minPath = (a.node x).minPath) ∧ ∀ i, ids[i]? = some x →
      (b.node x).minPath = n + ((ids.take i).map (lengths.getD · 0)).sum := by
  induction ids generalizing a n with
  | nil => exact ⟨fun _ ↦ rfl, nofun⟩
  | cons id ids ih =>
    obtain ⟨hid, hnodup⟩ := List.nodup_cons.1 hnodup
    have hlt := hids id List.mem_cons_self
    obtain ⟨hout, hin⟩ := ih (a := a.setMinPath id n) (n := n + lengths.getD id 0)
      (fun c hc ↦ (size_modify _).symm ▸ hids c (List.mem_cons_of_mem _ hc)) hnodup
    rw [List.foldl_cons]
    refine ⟨fun hx ↦ ?_, fun i hi ↦ ?_⟩
    · rw [List.mem_cons, not_or] at hx
      obtain ⟨hne, hx⟩ := hx
      rw [hout hx, minPath_setMinPath hlt, if_neg hne]
    · cases i with
      | zero =>
        obtain rfl : id = x := Option.some.inj hi
        rw [hout hid, minPath_setMinPath hlt, if_pos rfl]
        rfl
      | succ i =>
        rw [hin i hi, List.take_succ_cons, List.map_cons, List.sum_cons, Nat.add_assoc]

theorem minPath_foldl_alternatives {ids : List Nat} (hids : ∀ c ∈ ids, c < a.size) :
    ((ids.foldl (fun a child ↦ a.setMinPath child n) a).node x).minPath =
      if x ∈ ids then n else (a.node x).minPath := by
  induction ids generalizing a with
  | nil => rfl
  | cons id ids ih =>
    rw [List.foldl_cons, ih fun c hc ↦ (size_modify _).symm ▸ hids c (List.mem_cons_of_mem _ hc),
      minPath_setMinPath (hids id List.mem_cons_self)]
    by_cases hx : x ∈ ids
    · rw [if_pos hx, if_pos (List.mem_cons_of_mem _ hx)]
    · rw [if_neg hx]
      simp [hx]

/-- A node has handed on its distance as long as neither that nor those of its children change. -/
theorem HandsOn.congr (h : a.HandsOn lengths p) (hab : Alike a b)
    (hself : (b.node p).minPath = (a.node p).minPath)
    (hchild : ∀ c ∈ (a.node p).children, (b.node c).minPath = (a.node c).minPath) :
    b.HandsOn lengths p := by
  have hcore := hab.core p
  constructor
  · intro i c hkind hc
    rw [hab.places.children] at hc ⊢
    rw [hself, hchild c (Array.mem_of_getElem? hc)]
    refine h.term (NodeKind.core_eq_sequence ?_) hc
    rw [← hcore, hkind]
    rfl
  · intro c hkind hc
    rw [hab.places.children] at hc
    rw [hself, hchild c hc]
    exact h.alternative (NodeKind.isGroup_of_core_eq hcore ▸ hkind) hc

section

variable (hforest : a.Forest)
include hforest

theorem lt_size_of_mem_children : ∀ c ∈ (a.node id).children.toList, c < a.size := fun _ hc ↦
  lt_size_of_parent (hforest.up_of_mem_toList hc)

theorem minPath_passMinPath_of_not_mem (hx : x ∉ (a.node id).children) :
    ((a.passMinPath lengths id).node x).minPath = (a.node x).minPath := by
  rw [← Array.mem_toList_iff] at hx
  unfold passMinPath
  dsimp only
  split
  · rw [← Array.foldl_toList]
    exact (minPath_foldl_terms (lt_size_of_mem_children hforest) (hforest.nodup_children id)).1 hx
  · rw [← Array.foldl_toList, minPath_foldl_alternatives (lt_size_of_mem_children hforest),
      if_neg hx]
  · rfl

theorem handsOn_passMinPath : (a.passMinPath lengths id).HandsOn lengths id := by
  have hab : Alike a (a.passMinPath lengths id) := (Alike.refl a).passMinPath lengths id
  have hcore := hab.core id
  have hself : ((a.passMinPath lengths id).node id).minPath = (a.node id).minPath :=
    minPath_passMinPath_of_not_mem hforest fun hmem ↦
      hforest.not_below_parent (hforest.up_of_mem hmem) .refl
  constructor
  · intro i c hkind hc
    have hkind : (a.node id).kind = .sequence :=
      NodeKind.core_eq_sequence (by rw [← hcore, hkind]; rfl)
    rw [hab.places.children] at hc ⊢
    rw [hself]
    unfold passMinPath
    simp only [hkind]
    rw [← Array.foldl_toList]
    exact (minPath_foldl_terms (lt_size_of_mem_children hforest) (hforest.nodup_children id)).2 i
      (Array.getElem?_toList.trans hc)
  · intro c hkind hc
    obtain ⟨g, hkind⟩ := NodeKind.isGroup_iff.1 (NodeKind.isGroup_of_core_eq hcore ▸ hkind)
    rw [hab.places.children] at hc
    rw [hself]
    unfold passMinPath
    simp only [hkind]
    rw [← Array.foldl_toList, minPath_foldl_alternatives (lt_size_of_mem_children hforest),
      if_pos (Array.mem_toList_iff.2 hc)]

end

/-- **The step lemma of the distances**: a node that stands in front of another one is not changed
by it, and neither are its children. -/
theorem HandsOn.passMinPath (h : a.HandsOn lengths p) (hforest : a.Forest) (hp : ¬a.Below p id) :
    (a.passMinPath lengths id).HandsOn lengths p := by
  refine h.congr ((Alike.refl a).passMinPath lengths id)
    (minPath_passMinPath_of_not_mem hforest fun hmem ↦ hp (.single (hforest.up_of_mem hmem)))
    fun c hc ↦ minPath_passMinPath_of_not_mem hforest fun hmem ↦ hp ?_
  obtain rfl : p = id :=
    Option.some.inj ((hforest.up_of_mem hc).symm.trans (hforest.up_of_mem hmem))
  exact .refl

theorem handsOn_foldl_passMinPath (before : List Nat) (hforest : a.Forest)
    (h : Downward a root order.toList) (hab : Alike a b) (horder : order.toList = before ++ rest)
    (hbefore : ∀ p ∈ before, b.HandsOn lengths p) :
    ∀ p ∈ order, (rest.foldl (Arena.passMinPath lengths) b).HandsOn lengths p := by
  induction rest generalizing before b with
  | nil =>
    rw [List.append_nil] at horder
    exact fun p hp ↦ hbefore p (horder ▸ Array.mem_toList_iff.2 hp)
  | cons id rest ih =>
    have hb := hab.places.forest hforest
    have hapart := h.apart
    rw [horder] at hapart
    refine ih (before ++ [id]) (hab.passMinPath lengths id) (by rw [horder]; simp) ?_
    refine List.forall_mem_append.2 ⟨fun p hp ↦ ?_, fun p hp ↦ ?_⟩
    · refine (hbefore p hp).passMinPath hb fun hbelow ↦ ?_
      exact (List.pairwise_append.1 hapart).2.2 p hp id List.mem_cons_self
        (hab.places.below_iff.1 hbelow)
    · rw [List.mem_singleton.1 hp]
      exact handsOn_passMinPath hb

/-- **All nodes have handed on their distances in the end.** -/
theorem handsOn_setMinPaths (hforest : a.Forest) (h : Downward a root order.toList) :
    ∀ p ∈ order, (a.setMinPaths order).HandsOn (a.leastLengths order) p := by
  rw [setMinPaths, ← Array.foldl_toList]
  exact handsOn_foldl_passMinPath [] hforest h (.refl a) rfl nofun

theorem minPath_setMinPaths_of_loose (hforest : a.Forest) (hloose : (a.node x).parent = none) :
    ((a.setMinPaths order).node x).minPath = (a.node x).minPath := by
  rw [setMinPaths, ← Array.foldl_toList]
  generalize a.leastLengths order = lengths
  have hkeep : ∀ ids b, Alike a b →
      ((List.foldl (Arena.passMinPath lengths) b ids).node x).minPath = (b.node x).minPath := by
    intro ids
    induction ids with
    | nil => exact fun _ _ ↦ rfl
    | cons id ids ih =>
      intro b hab
      have hb := hab.places.forest hforest
      rw [List.foldl_cons, ih _ (hab.passMinPath lengths id)]
      refine minPath_passMinPath_of_not_mem hb fun hmem ↦ ?_
      have hup := hb.up_of_mem hmem
      rw [Up, hab.places.parent, hloose] at hup
      cases hup
  exact hkeep _ a (.refl a)

end Arena

/-! ## Finished trees -/

namespace Tree

/-- A node of the pattern that does not stand within a look-behind assertion. -/
def Walkable (t : Tree) (x : Nat) : Prop := t.arena.Below x t.root ∧ t.arena.Outside x

/-- How lengths, and the distances of a tree, are made up. -/
structure Measured (t : Tree) (length : Nat → Nat) : Prop where
  root : (t.node t.root).minPath = 0
  /-- The terms of a sequence stand one behind the other. -/
  term : ∀ {p i c : Nat}, t.Walkable p → (t.node p).kind = .sequence →
    (t.node p).children[i]? = some c → (t.node c).minPath =
      (t.node p).minPath + (((t.node p).children.toList.take i).map length).sum
  /-- The alternatives of a group stand side by side. -/
  alternative : ∀ {p c : Nat} {g : Group}, t.Walkable p → (t.node p).kind = .group g →
    c ∈ (t.node p).children → (t.node c).minPath = (t.node p).minPath
  chars : ∀ {x : Nat}, t.Walkable x → (t.node x).kind.isChars = true → length x = 1
  assertion : ∀ {x : Nat} {k : NodeKind}, t.Walkable x → (t.node x).kind = k →
    k.isGroup = false → k.isSequence = false → k.isChars = false → length x = 0
  sequence : ∀ {x : Nat}, t.Walkable x → (t.node x).kind = .sequence →
    length x = ((t.node x).children.toList.map length).sum
  /-- A group is as long as the shortest of its alternatives that count. -/
  least : ∀ {x c : Nat} {g : Group}, t.Walkable x → (t.node x).kind = .group g →
    c ∈ (t.node x).children → t.arena.countsForLength g c = true → length x ≤ length c
  exists_least : ∀ {x : Nat} {g : Group}, t.Walkable x → (t.node x).kind = .group g →
    ∃ c ∈ (t.node x).children, t.arena.countsForLength g c = true ∧ length x = length c

end Tree

namespace Arena

variable {ok : CodePointSet → Prop} {a b : Arena} {lengths : Array Nat} {root x p c : Nat}
  {t : Tree} {g : Group}

/-- Some alternative of a group always counts: a loop has one to be repeated. -/
theorem exists_countsForLength (hpeopled : a.Peopled) (hlooped : a.Looped)
    (hkind : (a.node x).kind = .group g) :
    ∃ c ∈ (a.node x).children, a.countsForLength g c = true := by
  cases hloop : g.loop with
  | none =>
    have hgroup : (a.node x).kind.isGroup = true := by rw [hkind]; rfl
    have hne := hpeopled hgroup
    rw [isEmpty_eq, List.isEmpty_eq_false_iff_exists_mem] at hne
    obtain ⟨c, hc⟩ := hne
    exact ⟨c, Array.mem_toList_iff.1 hc, by rw [countsForLength, hloop]; rfl⟩
  | some _ =>
    obtain ⟨body, exit, hchildren, hbody, -⟩ := hlooped hkind (by rw [hloop]; rfl)
    refine ⟨body, Array.mem_toList_iff.1 ?_, by simp [countsForLength, hbody]⟩
    rcases hchildren with h | h <;> simp [h]

theorem Underlies.leastLength_eq (hb : b.Underlies t) (hx : x < b.size) :
    t.arena.leastLength lengths (t.node x) = b.leastLength lengths (b.node x) := by
  have hcounts : ∀ g g' : Group, g.loop = g'.loop →
      (b.node x).children.toList.filter (t.arena.countsForLength g) =
        (b.node x).children.toList.filter (b.countsForLength g') := by
    refine fun g g' hloop ↦ List.filter_congr fun c hc ↦ ?_
    have hlt := lt_size_of_parent (hb.forest.up_of_mem_toList hc)
    rw [countsForLength, countsForLength, hloop, ← hb.isEmpty hlt]
    rfl
  unfold leastLength
  rw [hb.children hx]
  rcases NodeKind.cases_of_bare_eq (hb.bare hx) with
    heq | ⟨g, g', hg, hg', hloop⟩ | ⟨set, claim, claim', hset, hset'⟩
  · rw [heq]
    split
    · rfl
    · rfl
    · rw [hcounts _ _ rfl]
    · rfl
  · simp only [hg, hg', hcounts g g' hloop]
  · rw [hset, hset']

/-- The lengths that are worked out below a root. -/
def lengthsBelow (a : Arena) (root : Nat) : Array Nat :=
  (a.makeRoot root).leastLengths (a.order root)

namespace FinishedFrom

variable (ht : FinishedFrom a root t)
include ht

theorem minPath_eq (hx : x < a.size) : (t.node x).minPath =
    (((a.makeRoot root).setMinPaths (a.order root)).node x).minPath := by
  rw [Tree.node, ht.framed.minPath x hx, Arena.measured, minPath_setNested]

variable (h : Ready ok a root)
include h

theorem of_walkable (hx : t.Walkable x) : x < a.size ∧ x ∈ a.order root := by
  obtain ⟨hbelow, hout⟩ := hx
  rw [ht.root_eq] at hbelow
  have hlt := ht.framed.lt_of_below_old h h.lt hbelow
  exact ⟨hlt, h.mem_order.2
    ⟨(ht.framed.below_old hlt h.lt).1 hbelow, (ht.framed.outside_old h hlt).1 hout⟩⟩

theorem underlies_makeRoot : (a.makeRoot root).Underlies t :=
  (ht.underlies h).alike (alike_makeRoot root)

theorem getD_lengthsBelow (hx : t.Walkable x) :
    (a.lengthsBelow root).getD x 0 = t.arena.leastLength (a.lengthsBelow root) (t.node x) := by
  obtain ⟨hlt, hmem⟩ := ht.of_walkable h hx
  have hmade := ht.underlies_makeRoot h
  have hsize : (a.makeRoot root).size = a.size := (alike_makeRoot root).size
  rw [hmade.leastLength_eq (hsize ▸ hlt)]
  exact getD_leastLengths hmade.forest (h.downward_order (alike_makeRoot root)) hmem

theorem minPath_root : (t.node t.root).minPath = 0 := by
  have hmade := ht.underlies_makeRoot h
  have hloose := hmade.loose
  rw [ht.root_eq] at hloose
  have hzero : (a.makeRoot root).Unmeasured := h.shaped.unmeasured.modify fun n ↦ by
    split <;> rfl
  rw [ht.root_eq, ht.minPath_eq h.lt, minPath_setMinPaths_of_loose hmade.forest hloose, hzero]

theorem handsOn (hp : t.Walkable p) : t.arena.HandsOn (a.lengthsBelow root) p := by
  obtain ⟨hlt, hmem⟩ := ht.of_walkable h hp
  have hmade := ht.underlies_makeRoot h
  have hhands := handsOn_setMinPaths hmade.forest (h.downward_order (alike_makeRoot root)) p hmem
  have halike : Alike (a.makeRoot root) ((a.makeRoot root).setMinPaths (a.order root)) :=
    alike_setMinPaths _
  have hset := hmade.alike halike
  have hsize : ((a.makeRoot root).setMinPaths (a.order root)).size = a.size :=
    halike.size.trans (alike_makeRoot root).size
  have hp : p < ((a.makeRoot root).setMinPaths (a.order root)).size := hsize ▸ hlt
  have hself := ht.minPath_eq hlt
  have hchildren := hset.children hp
  have hchild : ∀ c ∈ (t.node p).children, (t.node c).minPath =
      (((a.makeRoot root).setMinPaths (a.order root)).node c).minPath := by
    intro c hc
    rw [hchildren] at hc
    have hlt := lt_size_of_parent (hset.forest.up_of_mem hc)
    exact ht.minPath_eq (hsize ▸ hlt)
  have hbare := hset.bare hp
  unfold Tree.node at hself hchildren hchild hbare
  constructor
  · intro i c hkind hc
    have hkind := (NodeKind.eq_iff_of_bare_eq hbare rfl rfl).1 hkind
    rw [hchild c (Array.mem_of_getElem? hc), hself, hchildren]
    rw [hchildren] at hc
    exact hhands.term hkind hc
  · intro c hkind hc
    have hkind := (NodeKind.isGroup_of_bare_eq hbare).symm.trans hkind
    rw [hchild c hc, hself]
    rw [hchildren] at hc
    exact hhands.alternative hkind hc

/-- **What is worked out for a finished tree.** -/
theorem measured_tree (hpeopled : t.arena.Peopled) (hlooped : t.arena.Looped) :
    t.Measured fun x ↦ (a.lengthsBelow root).getD x 0 where
  root := ht.minPath_root h
  term hp hkind hc := (ht.handsOn h hp).term hkind hc
  alternative hp hkind hc := (ht.handsOn h hp).alternative (NodeKind.isGroup_iff.2 ⟨_, hkind⟩) hc
  chars hx hkind := by
    obtain ⟨set, claim, hset⟩ := NodeKind.isChars_iff.1 hkind
    rw [ht.getD_lengthsBelow h hx, leastLength, hset]
  assertion hx hkind hgroup hsequence hchars := by
    subst hkind
    rw [ht.getD_lengthsBelow h hx, leastLength_eq_zero hgroup hsequence hchars]
  sequence hx hkind := (ht.getD_lengthsBelow h hx).trans (leastLength_sequence hkind)
  least hx hkind hc hcounts := by
    rw [ht.getD_lengthsBelow h hx]
    exact leastLength_group_le hkind hc hcounts
  exists_least hx hkind := by
    obtain ⟨c, hc, hcounts⟩ := exists_countsForLength hpeopled hlooped hkind
    rw [ht.getD_lengthsBelow h hx]
    exact exists_leastLength_group_eq hkind hc hcounts

end FinishedFrom

/-! ## How large lengths and distances get -/

/-- The nodes up to some number that are a node or stand below it. -/
def family (a : Arena) (limit x : Nat) : Finset Nat :=
  (Finset.range limit).filter fun y ↦ x ∈ a.ancestors y

section

variable {limit p : Nat} {ids : List Nat} (h : a.Forest) (hlimit : limit ≤ a.size)
include h hlimit

theorem Forest.mem_family {y : Nat} : y ∈ a.family limit x ↔ y < limit ∧ a.Below y x := by
  rw [family, Finset.mem_filter, Finset.mem_range]
  exact and_congr_right fun hy ↦ h.mem_ancestors (Nat.lt_of_lt_of_le hy hlimit)

theorem Forest.sum_card_family_le (hids : ∀ c ∈ ids, a.Up c p) (hnodup : ids.Nodup) :
    (ids.map fun c ↦ (a.family limit c).card).sum ≤ (a.family limit p).card := by
  have hapart : (ids.toFinset : Set Nat).PairwiseDisjoint (a.family limit) := by
    intro c hc d hd hne
    have hc := hids c (List.mem_toFinset.1 hc)
    have hd := hids d (List.mem_toFinset.1 hd)
    refine Finset.disjoint_left.2 fun y hyc hyd ↦ ?_
    have hyc := ((h.mem_family hlimit).1 hyc).2
    have hyd := ((h.mem_family hlimit).1 hyd).2
    -- of the two children one would stand below the other, so below the parent of that
    rcases hyc.total hyd with hcd | hdc
    · rcases hcd.eq_or_of_up hc with heq | hpd
      · exact hne heq
      · exact h.not_below_parent hd hpd
    · rcases hdc.eq_or_of_up hd with heq | hpc
      · exact hne heq.symm
      · exact h.not_below_parent hc hpc
  rw [← List.sum_toFinset _ hnodup, ← Finset.card_biUnion hapart]
  refine Finset.card_le_card fun y hy ↦ ?_
  obtain ⟨c, hc, hyc⟩ := Finset.mem_biUnion.1 hy
  obtain ⟨hlt, hbelow⟩ := (h.mem_family hlimit).1 hyc
  exact (h.mem_family hlimit).2 ⟨hlt, hbelow.tail (hids c (List.mem_toFinset.1 hc))⟩

theorem Forest.card_family_le (hup : a.Up c p) :
    (a.family limit c).card ≤ (a.family limit p).card := by
  have hsum : ([c].map fun c ↦ (a.family limit c).card).sum ≤ (a.family limit p).card :=
    h.sum_card_family_le hlimit (by simpa using hup) (List.nodup_singleton c)
  simpa using hsum

end

end Arena

namespace Tree

variable {t : Tree} {ok : CodePointSet → Prop} {length : Nat → Nat} {x c p : Nat}

theorem Walkable.child (hx : t.Walkable p) (hup : t.arena.Up c p)
    (hkind : (t.node p).kind.isLookBehind = false) : t.Walkable c := by
  refine ⟨.head hup hx.1, fun l hl hbelow ↦ ?_⟩
  rcases hbelow.eq_or_of_up hup with heq | hpl
  · exact heq
  · rw [hx.2 l hl hpl, Tree.node, hl] at hkind
    cases hkind

theorem Walkable.parent (hx : t.Walkable c) (hforest : t.arena.Forest) (hup : t.arena.Up c p)
    (hp : t.arena.Below p t.root) : t.Walkable p := by
  refine ⟨hp, fun l hl hbelow ↦ ?_⟩
  obtain rfl := hx.2 l hl (.head hup hbelow)
  exact absurd hbelow (hforest.not_below_parent hup)

theorem Finished.kind_of_up (h : t.Finished) (hx : t.Walkable c) (hup : t.arena.Up c p) :
    (t.node p).kind = .sequence ∨ ∃ g, (t.node p).kind = .group g := by
  have hforest := h.regular.forest
  have hmem := hforest.mem_of_up hup
  obtain ⟨a, encoding, root, captures, hready, rfl⟩ := h.ready
  have hholds := (hready.finishedFrom encoding captures).framed.mayHold hready hmem
  cases hkind : ((a.finish encoding root captures).node p).kind with
  | sequence => exact .inl rfl
  | group g => exact .inr ⟨g, rfl⟩
  | lookBehind _ =>
    obtain rfl := hx.2 p (by rw [← Tree.node, hkind]; rfl) (.single hup)
    exact absurd .refl (hforest.not_below_parent hup)
  | _ =>
    rw [← Tree.node, hkind] at hholds
    cases hholds

theorem Finished.lt_matchFound (h : t.Finished) (hx : t.arena.Below x t.root) :
    x < t.matchFound ∧ t.matchFound < t.size := by
  obtain ⟨a, encoding, root, captures, hready, rfl⟩ := h.ready
  have ht := hready.finishedFrom encoding captures
  have hsize := ht.framed.size
  rw [ht.root_eq] at hx
  rw [ht.matchFound_eq, Tree.size, hsize]
  exact ⟨ht.framed.lt_of_below_old hready hready.lt hx, by omega⟩

theorem Finished.walkable_of_kind (h : t.Finished) {k : NodeKind} (hx : t.arena.Below x t.root)
    (hkind : (t.node x).kind = k) (hgroup : k.isGroup = false) (hsequence : k.isSequence = false)
    (hchars : k.isChars = false) : t.Walkable x := by
  have hregular := h.regular
  refine ⟨hx, fun l hl hbelow ↦ ?_⟩
  have hmem : l ∈ t.lookBehinds := hregular.mem_lookBehinds.2
    ⟨hl, hbelow.below_of_loose (hx.trans hregular.root_holds) hregular.wrappedRoot_loose⟩
  rcases hregular.below_lookBehind hbelow hl with heq | hkind' | hkind' | hbody
  · exact heq
  · rw [hkind, hgroup] at hkind'
    cases hkind'
  · rw [← hkind, hkind'] at hsequence
    cases hsequence
  · obtain ⟨-, set, hset⟩ := hregular.body hmem hbody
    rw [← hkind, hset] at hchars
    cases hchars

theorem Finished.walkable_root (h : t.Finished) : t.Walkable t.root := by
  obtain ⟨a, encoding, root, captures, hready, rfl⟩ := h.ready
  have ht := hready.finishedFrom encoding captures
  refine ⟨.refl, ?_⟩
  rw [ht.root_eq, ht.framed.outside_old hready hready.lt]
  exact fun l _ hbelow ↦ (hbelow.eq_of_loose hready.loose).symm

namespace Measured

variable (hm : t.Measured length) (h : t.Finished)
include hm h

theorem length_le_card (hx : t.Walkable x) :
    length x ≤ (t.arena.family t.matchFound x).card := by
  have hforest := h.regular.forest
  have hlimit : t.matchFound ≤ t.arena.size := Nat.le_of_lt (h.lt_matchFound .refl).2
  induction x using hforest.induction_down with
  | hnode x ih =>
    have hpos : 1 ≤ (t.arena.family t.matchFound x).card :=
      Finset.card_pos.2 ⟨x, (hforest.mem_family hlimit).2 ⟨(h.lt_matchFound hx.1).1, .refl⟩⟩
    cases hkind : (t.node x).kind with
    | sequence =>
      have hup : ∀ c ∈ (t.node x).children.toList, t.arena.Up c x := fun c hc ↦
        hforest.up_of_mem_toList hc
      rw [hm.sequence hx hkind]
      refine Nat.le_trans (List.sum_le_sum fun c hc ↦ ?_)
        (hforest.sum_card_family_le hlimit hup (hforest.nodup_children x))
      exact ih c (hup c hc) (hx.child (hup c hc) (by rw [hkind]; rfl))
    | group g =>
      obtain ⟨c, hc, -, heq⟩ := hm.exists_least hx hkind
      have hup := hforest.up_of_mem hc
      rw [heq]
      exact Nat.le_trans (ih c hup (hx.child hup (by rw [hkind]; rfl)))
        (hforest.card_family_le hlimit hup)
    | chars _ _ => exact hm.chars hx (by rw [hkind]; rfl) ▸ hpos
    | _ => exact hm.assertion hx hkind rfl rfl rfl ▸ Nat.zero_le _

theorem minPath_add_card_le (hx : t.Walkable x) :
    (t.node x).minPath + (t.arena.family t.matchFound x).card ≤ t.matchFound := by
  have hforest := h.regular.forest
  have hlimit : t.matchFound ≤ t.arena.size := Nat.le_of_lt (h.lt_matchFound .refl).2
  obtain ⟨hbelow, hout⟩ := hx
  induction hbelow using Relation.ReflTransGen.head_induction_on with
  | refl =>
    rw [hm.root, Nat.zero_add]
    refine Nat.le_trans (Finset.card_filter_le ..) ?_
    rw [Finset.card_range]
  | @head x p hup hp ih =>
    have hx : t.Walkable x := ⟨.head hup hp, hout⟩
    have hwalk := hx.parent hforest hup hp
    have hle := ih hwalk.2
    rcases h.kind_of_up hx hup with hkind | ⟨g, hkind⟩
    · -- the terms in front take no more than they have nodes, and share none with this one
      have hget : (t.node p).children[(t.node x).index]? = some x := hforest.parent hup
      have hids : ∀ c ∈ (t.node p).children.toList.take ((t.node x).index + 1),
          t.arena.Up c p := fun c hc ↦
        hforest.up_of_mem_toList (List.mem_of_mem_take hc)
      have hsum := hforest.sum_card_family_le hlimit hids
        ((hforest.nodup_children p).sublist (List.take_sublist ..))
      have hfront : (((t.node p).children.toList.take (t.node x).index).map length).sum ≤
          (((t.node p).children.toList.take (t.node x).index).map fun c ↦
            (t.arena.family t.matchFound c).card).sum := by
        refine List.sum_le_sum fun c hc ↦ hm.length_le_card h ?_
        have hup := hforest.up_of_mem_toList (List.mem_of_mem_take hc)
        exact hwalk.child hup (by rw [hkind]; rfl)
      rw [List.take_add_one, Array.getElem?_toList, hget] at hsum
      simp only [List.map_append, List.sum_append, Option.toList_some, List.map_cons, List.map_nil,
        List.sum_cons, List.sum_nil] at hsum
      rw [hm.term hwalk hkind hget]
      omega
    · have hcard := hforest.card_family_le hlimit hup
      rw [hm.alternative hwalk hkind (hforest.mem_of_up hup)]
      omega

/-- **Distances and lengths are small**: together they are no more than the nodes of the pattern. -/
theorem minPath_add_length_le (hx : t.Walkable x) :
    (t.node x).minPath + length x ≤ t.matchFound :=
  Nat.le_trans (Nat.add_le_add_left (hm.length_le_card h hx) _) (hm.minPath_add_card_le h hx)

end Measured

/-! ## The length of the lead-in -/

theorem foldl_max_le_iff {ids : List Nat} {f : Nat → Nat} {n m : Nat} :
    ids.foldl (fun longest id ↦ max longest (f id)) n ≤ m ↔ n ≤ m ∧ ∀ id ∈ ids, f id ≤ m := by
  induction ids generalizing n with
  | nil => simp
  | cons id ids ih => rw [List.foldl_cons, ih, Nat.max_le, List.forall_mem_cons, and_assoc]

/-- A lead-in is long enough if every look-behind assertion is no longer than that and its own
distance. -/
theorem Finished.leadLength_le_iff (h : t.Finished) {lead : Nat} : t.leadLength ≤ lead ↔
    ∀ x length, t.arena.Below x t.root → (t.node x).kind = .lookBehind length →
      length ≤ lead + (t.node x).minPath := by
  obtain ⟨a, encoding, root, captures, hready, rfl⟩ := h.ready
  have ht := hready.finishedFrom encoding captures
  have hf := ht.framed
  have hkind : ∀ {x length}, x < a.size →
      (((a.finish encoding root captures).node x).kind = .lookBehind length ↔
        ((a.measured root).node x).kind = .lookBehind length) := by
    intro x length hx
    refine NodeKind.eq_iff_of_bare_eq ((hf.bare x hx).trans ?_) rfl rfl
    exact (NodeKind.bare_eq_of_core_eq ((Arena.alike_measured a root).core x)).symm
  rw [ht.leadLength_eq, Arena.reach, ← Array.foldl_toList, foldl_max_le_iff, ht.root_eq]
  refine (and_iff_right (Nat.zero_le lead)).trans (forall_congr' fun x ↦ ?_)
  rw [Array.mem_toList_iff, hready.mem_assertions]
  constructor
  · intro hreach length hbelow hlookBehind
    have hx := hf.lt_of_below_old hready hready.lt hbelow
    obtain ⟨-, hold⟩ := hf.lt_of_isLookBehind (x := x) (by rw [← Tree.node, hlookBehind]; rfl)
    have hle := hreach ⟨hold, (hf.below_old hx hready.lt).1 hbelow⟩
    rw [Arena.reachBack, (hkind hx).1 hlookBehind, ← hf.minPath x hx] at hle
    exact Nat.sub_le_iff_le_add.1 hle
  · rintro hlength ⟨hold, hbelow⟩
    have hx : x < a.size := hbelow.lt_size hready.lt
    obtain ⟨length, hlookBehind⟩ := NodeKind.isLookBehind_iff.1
      ((NodeKind.isLookBehind_of_bare_eq (hf.bare x hx)).trans hold)
    have hle := hlength length ((hf.below_old hx hready.lt).2 hbelow) hlookBehind
    rw [Arena.reachBack, (hkind hx).1 hlookBehind, ← hf.minPath x hx]
    exact Nat.sub_le_iff_le_add.2 hle

/-- Look-behind assertions have different classes, and so the lead-in is no longer than there are
nodes of the pattern. -/
theorem Finished.leadLength_le (h : t.Finished) : t.leadLength ≤ t.matchFound := by
  have hregular := h.regular
  refine h.leadLength_le_iff.2 fun l length hbelow hkind ↦ Nat.le_trans ?_ (Nat.le_add_right ..)
  have hmem : l ∈ t.lookBehinds :=
    hregular.mem_lookBehinds.2 ⟨by rw [hkind]; rfl, hbelow.trans hregular.root_holds⟩
  have hsub : (t.body l).toList ⊆ List.range t.matchFound := fun c hc ↦ List.mem_range.2
    (h.lt_matchFound ((hregular.body hmem (Array.mem_toList_iff.1 hc)).1.1.trans hbelow)).1
  have hnodup : (t.body l).toList.Nodup := hregular.forest.nodup_children _
  rw [← hregular.fits l length hkind, ← Array.length_toList]
  simpa using hnodup.length_le_of_subset hsub

end Tree

end PatternAutomata
