import Mathlib.Data.List.Forall2
import Mathlib.Data.List.Nodup
import Mathlib.Data.List.Perm.Subperm
import PatternAutomata.Proofs.Automaton.Assembly

/-!
# Expansion

A state is expanded when the transitions that leave it are those of the branches of its step, one
for each and in their order. Whatever is made while one state is expanded waits in the queue for its
own turn, and nothing leaves a state before that. So in the end all states in the queue are
expanded, and nothing leaves the others. The bound on states is also a bound on how long that takes.
-/

namespace PatternAutomata

/-- The branches of the step from the markers of a state. -/
def Tree.branches (t : Tree) (k : MarkerSet × Bool) : List Branch :=
  Branch.ofSuccessors t (t.step k.1 k.2)

/-- The markers that a branch leads to from those of a state. -/
def Tree.targetOf (t : Tree) (k : MarkerSet × Bool) (b : Branch) : MarkerSet :=
  b.target t (t.step k.1 k.2)

/-- The successors that a branch lists, by priority. -/
def Tree.taken (t : Tree) (k : MarkerSet × Bool) (b : Branch) : List Successor :=
  b.contributors.toList.map ((t.step k.1 k.2).getD · default)

/-- A place where a match is found is among the markers. -/
def Tree.Concludes (t : Tree) (markers : MarkerSet) : Prop :=
  ∃ x ∈ markers.members, x = t.matchFound ∨ (t.node x).kind = .dollar

/-- The branches that find a match are those that lead behind the pattern, and a place there is
among the markers that they lead to. -/
structure Tree.Discerns (t : Tree) : Prop where
  ends : ∀ {k b}, b ∈ t.branches k → (b.isFinal = true ↔ t.Ends (t.targetOf k b))
  concludes : ∀ {k b}, b ∈ t.branches k → (b.isFinal = true ↔ t.Concludes (t.targetOf k b))

/-- Markers that are all behind the pattern can be told by one that is a place there, save for
those of the dollars, of which there may be none. -/
def Tree.Decides (t : Tree) (k : MarkerSet × Bool) : Prop :=
  k = (t.markers t.dollars.toList, false) ∨ (t.Ends k.1 ↔ t.Concludes k.1)

namespace Assembly

variable {t : Tree} {o : Options} {m m' m'' : Assembly o} {id j q i : Nat} {k : MarkerSet × Bool}
  {tr : Transition} {b : Branch} {dummy : Nat} {queue queue' : Array Nat}

/-! ## Transitions -/

/-- Transitions are put behind the others that leave a state, and no other state has more. -/
def Appends (m m' : Assembly o) (q : Nat) (new : List Transition) : Prop :=
  ∀ j, m'.edges j = m.edges j ++ if j = q then new else []

theorem Appends.refl (m : Assembly o) (q : Nat) : Appends m m q [] := by
  intro j
  split <;> exact (List.append_nil _).symm

theorem Appends.trans {new new' : List Transition} (h : Appends m m' q new)
    (h' : Appends m' m'' q new') : Appends m m'' q (new ++ new') := by
  intro j
  rw [h' j, h j, List.append_assoc]
  split
  · rfl
  · rw [List.append_nil]

theorem Makes.appends (h : Makes m m' id k) (q : Nat) : Appends m m' q [] := by
  intro j
  rw [edges_congr h.out h.transitions]
  split <;> exact (List.append_nil _).symm

/-- One more transition leaves a state. -/
structure Connects (m m' : Assembly o) (q : Nat) (tr : Transition) : Prop where
  keys : ∀ {j}, m'.key? j = m.key? j
  isFinal : ∀ {j}, m'.isFinal j = m.isFinal j
  size : m'.states.size = m.states.size
  grows : Grows m m'
  appends : Appends m m' q [tr]
  wired : tr.source = q → ∀ loose, m.transitions.size ∉ loose → Wired loose m → Wired loose m'

theorem next_transitionNumbers :
    m.transitionNumbers.next.1 = o.transitionBound.grant m.transitions.size := by
  rw [m.transitionNumbers_eq]
  rfl

theorem connect_eq (hok : m.connect tr = .ok (i, m')) :
    i = m.transitions.size ∧ m' = m.withTransition tr := by
  obtain ⟨i', hnext, hok⟩ := exists_of_bind_eq_ok hok
  obtain ⟨rfl, -⟩ := Bound.eq_of_grant_eq_ok (next_transitionNumbers.symm.trans hnext)
  cases hok
  exact ⟨rfl, rfl⟩

theorem transitions_withTransition :
    (m.withTransition tr).transitions = m.transitions.push tr := rfl

theorem getElem?_withTransition {i : Nat} {tr' : Transition} :
    (m.withTransition tr).transitions[i]? = some tr' ↔
      m.transitions[i]? = some tr' ∨ i = m.transitions.size ∧ tr' = tr := by
  rw [transitions_withTransition, Array.getElem?_push]
  split
  · next hi =>
    rw [hi, Array.getElem?_eq_none (Nat.le_refl _), Option.some_inj]
    exact ⟨fun h ↦ .inr ⟨rfl, h.symm⟩, fun h ↦ (h.resolve_left nofun).2.symm⟩
  · next hi => exact ⟨.inl, fun h ↦ h.resolve_right fun h ↦ hi h.1⟩

theorem grows_withTransition : Grows m (m.withTransition tr) where
  keys hj := hj
  transitions hi := getElem?_withTransition.2 (.inl hi)

theorem Tabled.edges_withTransition (h : Tabled m) (tr : Transition) (q : Nat) :
    (m.withTransition tr).edges q = m.edges q := by
  refine List.map_congr_left fun i hi ↦ ?_
  have hlt : i < m.transitions.size := h.out (Array.mem_toList_iff.1 hi)
  rw [Array.getD_eq_getD_getElem?, Array.getD_eq_getD_getElem?, transitions_withTransition,
    Array.getElem?_push, if_neg (Nat.ne_of_lt hlt)]

theorem Tabled.count_size (h : Tabled m) (q : Nat) : (m.out q).count m.transitions.size = 0 :=
  Array.count_eq_zero.2 fun hmem ↦ Nat.lt_irrefl _ (h.out hmem)

theorem Tabled.connect (h : Tabled m) (hok : m.connect tr = .ok (i, m')) :
    Tabled m' ∧ Grows m m' ∧ m'.states = m.states ∧ (∀ {j}, m'.edges j = m.edges j) ∧
      ∀ loose, Wired loose m → Wired (i :: loose) m' := by
  obtain ⟨rfl, rfl⟩ := connect_eq hok
  refine ⟨⟨h.table, fun hi ↦ ?_⟩, grows_withTransition, rfl, h.edges_withTransition _ _,
    fun loose hwired i tr' htr q ↦ ?_⟩
  · rw [transitions_withTransition, Array.size_push]
    exact Nat.lt_succ_of_lt (h.out hi)
  · have hout : (m.withTransition tr).out q = m.out q := rfl
    rw [hout]
    rcases getElem?_withTransition.1 htr with hi | ⟨rfl, -⟩
    · have hne : i ≠ m.transitions.size := Nat.ne_of_lt (Array.getElem?_eq_some_iff.1 hi).1
      rw [hwired hi q]
      simp only [List.mem_cons, hne, false_or]
    · rw [h.count_size, if_neg fun hq ↦ hq.2 List.mem_cons_self]

/-- One more transition, listed behind the others where it leaves a state. -/
def withEdge (m : Assembly o) (q : Nat) (tr : Transition) : Assembly o :=
  (m.withTransition tr).addOut q m.transitions.size

theorem out_withEdge (hq : q < m.states.size) : (m.withEdge q tr).out j =
    if q = j then (m.out j).push m.transitions.size else m.out j :=
  out_addOut hq

theorem grows_withEdge : Grows m (m.withEdge q tr) :=
  grows_withTransition.trans (.modifyState fun _ ↦ rfl)

theorem Tabled.withEdge (h : Tabled m) (hq : q < m.states.size) : Tabled (m.withEdge q tr) where
  table {k j} := by
    rw [Assembly.withEdge, key_addOut]
    exact h.table
  out {j i} hi := by
    have hsize : (m.withEdge q tr).transitions.size = m.transitions.size + 1 := Array.size_push _
    rw [out_withEdge hq] at hi
    rw [hsize]
    split at hi
    · rcases Array.mem_push.1 hi with hi | rfl
      · exact Nat.lt_succ_of_lt (h.out hi)
      · exact Nat.lt_succ_self _
    · exact Nat.lt_succ_of_lt (h.out hi)

theorem Tabled.appends_withEdge (h : Tabled m) (hq : q < m.states.size) :
    Appends m (m.withEdge q tr) q [tr] := by
  intro j
  have hedges := h.edges_withTransition tr j
  have hlast : (m.transitions.push tr).getD m.transitions.size default = tr := by
    rw [Array.getD_eq_getD_getElem?, Array.getElem?_push_size, Option.getD_some]
  unfold edges at hedges ⊢
  rw [out_withEdge hq]
  by_cases hj : j = q
  · rw [if_pos hj.symm, if_pos hj, Array.toList_push, List.map_append, ← hedges]
    exact congrArg (fun tr ↦ _ ++ [tr]) hlast
  · rw [if_neg (Ne.symm hj), if_neg hj, List.append_nil]
    exact hedges

theorem Tabled.wired_withEdge (h : Tabled m) (hq : q < m.states.size) (hsource : tr.source = q)
    {loose : List Nat} (hnew : m.transitions.size ∉ loose) (hwired : Wired loose m) :
    Wired loose (m.withEdge q tr) := by
  intro i tr' htr j
  rw [out_withEdge hq]
  rcases getElem?_withTransition.1 htr with hi | ⟨rfl, rfl⟩
  · have hne : m.transitions.size ≠ i := Ne.symm (Nat.ne_of_lt (Array.getElem?_eq_some_iff.1 hi).1)
    rw [← hwired hi j]
    split
    · rw [Array.count_push_of_ne hne]
    · rfl
  · rw [hsource]
    by_cases hj : j = q
    · rw [if_pos hj.symm, if_pos ⟨hj, hnew⟩, Array.count_push_self, h.count_size]
    · rw [if_neg (Ne.symm hj), if_neg fun h ↦ hj h.1, h.count_size]

/-- **Asking for a transition and listing it.** -/
theorem Tabled.connect_addOut (h : Tabled m) (hq : q < m.states.size)
    (hok : m.connect tr = .ok (i, m')) :
    Tabled (m'.addOut q i) ∧ Connects m (m'.addOut q i) q tr := by
  obtain ⟨rfl, rfl⟩ := connect_eq hok
  refine ⟨h.withEdge hq, ?_⟩
  constructor
  case keys => exact key_addOut
  case isFinal => exact isFinal_addOut
  case size => exact size_modifyState
  case grows => exact grows_withEdge
  case appends => exact h.appends_withEdge hq
  case wired => exact fun hsource _ hnew hwired ↦ h.wired_withEdge hq hsource hnew hwired

theorem Labelled.connects (h : Labelled t m) (hc : Connects m m' q tr) : Labelled t m' := by
  intro j k hj
  rw [hc.keys] at hj
  rw [hc.isFinal]
  exact h hj

/-! ## Branches -/

/-- A transition is that of a branch of a state. -/
structure Renders (t : Tree) (m : Assembly o) (q : Nat) (k : MarkerSet × Bool) (b : Branch)
    (tr : Transition) : Prop where
  source : tr.source = q
  on : tr.on = b.on
  target : m.key? tr.target = some (t.targetOf k b, false)
  boundaries : tr.boundaries = boundariesOf (t.taken k b)
  lastGroup : tr.lastGroup = (t.taken k b).findSome? (·.lastGroup)

theorem Renders.grows (h : Renders t m q k b tr) (hgrows : Grows m m') : Renders t m' q k b tr :=
  { h with target := hgrows.keys h.target }

/-- Expansion is under way: what has been made is sound, and the states that are to be expanded are
in the queue. -/
structure Underway (t : Tree) (o : Options) (dummy : Nat) (queue : Array Nat) (m : Assembly o) :
    Prop where
  tabled : Tabled m
  labelled : Labelled t m
  size : m.states.size ≤ o.maxState + 1
  nodup : queue.toList.Nodup
  known : ∀ {id}, id ∈ queue → ∃ k, m.key? id = some k ∧ ¬t.Ends k.1
  queued : ∀ {id k}, m.key? id = some k → t.Ends k.1 ∨ id = dummy ∨ id ∈ queue
  decides : ∀ {id k}, m.key? id = some k → t.Decides k
  /-- The entries back to the dummy, which come first, are loose. -/
  wired : Wired [0, 1] m
  two_le : 2 ≤ m.transitions.size

/-- The transitions that leave a state are those of its branches. -/
def Expanded (t : Tree) (m : Assembly o) (q : Nat) : Prop :=
  ∀ ⦃k⦄, m.key? q = some k → List.Forall₂ (Renders t m q k) (t.branches k) (m.edges q)

theorem Expanded.grows (h : Expanded t m q) (hq : ∃ k, m.key? q = some k) (hgrows : Grows m m')
    (hedges : m'.edges q = m.edges q) : Expanded t m' q := by
  intro k hk
  obtain ⟨k', hk'⟩ := hq
  obtain rfl : k' = k := Option.some.inj ((hgrows.keys hk').symm.trans hk)
  rw [hedges]
  exact (h hk').imp fun _ _ hrenders ↦ hrenders.grows hgrows

/-- Nothing is taken out of the queue, and nothing is put in front of anything else. -/
def Extends (queue queue' : Array Nat) : Prop :=
  ∀ ⦃i q : Nat⦄, queue[i]? = some q → queue'[i]? = some q

theorem Underway.makes (h : Underway t o dummy queue m) (hmakes : Makes m m' id k)
    (hnone : m.key? id = none) (hle : id ≤ o.maxState) (htabled : Tabled m')
    (hlabelled : Labelled t m') (hsize : m'.states.size = id + 1) (isEnd : Bool)
    (hend : isEnd = true ↔ t.Ends k.1) (hdecides : t.Decides k) :
    Underway t o dummy (if isEnd then queue else queue.push id) m' ∧
      Extends queue (if isEnd then queue else queue.push id) := by
  have hnew : id ∉ queue := fun hid ↦ by
    obtain ⟨k', hk', -⟩ := h.known hid
    rw [hnone] at hk'
    cases hk'
  have hmem : ∀ {j}, j ∈ (if isEnd then queue else queue.push id) ↔
      j ∈ queue ∨ isEnd = false ∧ j = id := by
    intro j
    cases isEnd <;> simp
  constructor
  · constructor
    case tabled => exact htabled
    case labelled => exact hlabelled
    case size => exact hsize ▸ Nat.succ_le_succ hle
    case nodup =>
      cases isEnd with
      | true => exact h.nodup
      | false =>
        rw [if_neg Bool.false_ne_true, Array.toList_push, List.nodup_append]
        refine ⟨h.nodup, List.pairwise_singleton _ _, fun a ha b hb ↦ ?_⟩
        rw [List.mem_singleton.1 hb]
        rintro rfl
        exact hnew (Array.mem_toList_iff.1 ha)
    case known =>
      intro j hj
      rcases hmem.1 hj with hj | ⟨hinside, rfl⟩
      · obtain ⟨k', hk', hinside⟩ := h.known hj
        exact ⟨k', hmakes.grows.keys hk', hinside⟩
      · exact ⟨k, hmakes.key, fun hends ↦ Bool.false_ne_true (hinside.symm.trans (hend.2 hends))⟩
    case queued =>
      intro j k' hj
      rw [hmem]
      rcases hmakes.keys.1 hj with hj | ⟨rfl, rfl⟩
      · exact (h.queued hj).imp_right (Or.imp_right .inl)
      · cases isEnd with
        | true => exact .inl (hend.1 rfl)
        | false => exact .inr (.inr (.inr ⟨rfl, rfl⟩))
    case decides =>
      intro j k' hj
      rcases hmakes.keys.1 hj with hj | ⟨rfl, rfl⟩
      · exact h.decides hj
      · exact hdecides
    case wired => exact h.wired.congr hmakes.out hmakes.transitions
    case two_le => exact hmakes.transitions ▸ h.two_le
  · intro i q hi
    cases isEnd with
    | true => exact hi
    | false =>
      rw [if_neg Bool.false_ne_true, Array.getElem?_push,
        if_neg (Nat.ne_of_lt (Array.getElem?_eq_some_iff.1 hi).1)]
      exact hi

theorem isFinal_finalRole (markers : MarkerSet) (s : State) :
    ({ s with roles := finalRole t markers s.roles } : State).isFinal = true := by
  unfold finalRole State.isFinal
  dsimp only
  split <;> simp

/-- The state that a branch leads to is found or made. A new one joins the queue, or it is made
final. -/
theorem Underway.stateOf (h : Underway t o dummy queue m) {isNew : Bool}
    (hfinal : b.isFinal = true ↔ t.Ends (t.targetOf k b))
    (hdecides : t.Decides (t.targetOf k b, false))
    (hok : m.stateOf t (t.targetOf k b) false = .ok (id, isNew, m')) :
    let made := if isNew && b.isFinal then m'.assign id (finalRole t (t.targetOf k b)) else m'
    let queue' := if isNew && !b.isFinal then queue.push id else queue
    Underway t o dummy queue' made ∧ Makes m made id (t.targetOf k b, false) ∧
      Extends queue queue' := by
  obtain ⟨htabled, hmakes, hsame, hcases⟩ := stateOf_spec h.tabled hok
  rcases hcases with ⟨rfl, rfl⟩ | ⟨rfl, hnone, hle, hsize⟩
  · exact ⟨h, hmakes, fun _ _ hi ↦ hi⟩
  -- the state is new: behind the pattern it is made final, and otherwise it joins the queue
  cases hb : b.isFinal with
  | true =>
    have hassign : Makes m (m'.assign id (finalRole t (t.targetOf k b))) id
        (t.targetOf k b, false) := hmakes.modifyState (fun _ ↦ rfl) fun _ ↦ rfl
    have hget : ∀ {j}, (m'.assign id (finalRole t (t.targetOf k b))).isFinal j =
        if id = j then true else m.isFinal j := by
      intro j
      rw [← hsame, isFinal, assign, getD_modifyState (by omega)]
      split
      · exact isFinal_finalRole _ _
      · rfl
    have hlabelled := h.labelled.makes hassign (fun hne ↦ by rw [hget, if_neg (Ne.symm hne)])
      (by rw [hget, if_pos rfl, ← hfinal, hb])
    obtain ⟨hunder, hextends⟩ := h.makes hassign hnone hle
      (htabled.modifyState (fun _ ↦ rfl) fun _ ↦ rfl) hlabelled (size_modifyState.trans hsize)
      true (by rw [← hfinal, hb]) hdecides
    exact ⟨hunder, hassign, hextends⟩
  | false =>
    have hlabelled := h.labelled.makes hmakes (fun _ ↦ hsame)
      (by rw [hsame, isFinal_of_key_none hnone, ← hfinal, hb])
    obtain ⟨hunder, hextends⟩ := h.makes hmakes hnone hle htabled hlabelled hsize false
      (by rw [← hfinal, hb]) hdecides
    exact ⟨hunder, hmakes, hextends⟩

theorem Underway.connects (h : Underway t o dummy queue m) (hc : Connects m m' q tr)
    (htabled : Tabled m') (hsource : tr.source = q) : Underway t o dummy queue m' where
  tabled := htabled
  labelled := h.labelled.connects hc
  size := hc.size ▸ h.size
  nodup := h.nodup
  known hid := by
    obtain ⟨k', hk', hinside⟩ := h.known hid
    exact ⟨k', hc.grows.keys hk', hinside⟩
  queued hid := by
    rw [hc.keys] at hid
    exact h.queued hid
  decides hid := by
    rw [hc.keys] at hid
    exact h.decides hid
  wired := by
    refine hc.wired hsource _ (fun hmem ↦ ?_) h.wired
    have hle := h.two_le
    simp only [List.mem_cons, List.not_mem_nil, or_false] at hmem
    omega
  two_le := Nat.le_trans h.two_le hc.grows.size_transitions_le

/-- **Adding a branch.** -/
theorem Underway.addBranch (h : Underway t o dummy queue m) (ht : t.Discerns)
    (hq : m.key? q = some k) (hb : b ∈ t.branches k)
    (hok : Assembly.addBranch t q (t.step k.1 k.2) (queue, m) b = .ok (queue', m')) :
    Underway t o dummy queue' m' ∧ Grows m m' ∧ Extends queue queue' ∧
      ∃ tr, m'.transitions = m.transitions.push tr ∧ Appends m m' q [tr] ∧
        Renders t m' q k b tr := by
  obtain ⟨⟨target, isNew, m₁⟩, hstate, hok⟩ := exists_of_bind_eq_ok hok
  obtain ⟨⟨transition, m₂⟩, hconnect, hok⟩ := exists_of_bind_eq_ok hok
  obtain ⟨hunder, hmakes, hextends⟩ := h.stateOf (ht.ends hb)
    (.inr ((ht.ends hb).symm.trans (ht.concludes hb))) hstate
  cases hok
  obtain ⟨htabled, hc⟩ :=
    hunder.tabled.connect_addOut (lt_of_key (hmakes.grows.keys hq)) hconnect
  have hpush := (congrArg transitions (connect_eq hconnect).2).trans
    (congrArg (Array.push · _) hmakes.transitions)
  exact ⟨hunder.connects hc htabled rfl, hmakes.grows.trans hc.grows, hextends, _, hpush,
    (hmakes.appends q).trans hc.appends, rfl, rfl, hc.grows.keys hmakes.key, rfl, rfl⟩

theorem Underway.foldlM_addBranch (ht : t.Discerns) {branches : List Branch}
    (h : Underway t o dummy queue m) (hq : m.key? q = some k)
    (hb : ∀ b ∈ branches, b ∈ t.branches k)
    (hok : branches.foldlM (Assembly.addBranch t q (t.step k.1 k.2)) (queue, m) =
      .ok (queue', m')) :
    Underway t o dummy queue' m' ∧ Grows m m' ∧ Extends queue queue' ∧
      ∃ new, Appends m m' q new ∧ List.Forall₂ (Renders t m' q k) branches new := by
  induction branches generalizing queue m with
  | nil =>
    cases hok
    exact ⟨h, .refl _, fun _ _ hi ↦ hi, [], .refl _ _, .nil⟩
  | cons b branches ih =>
    rw [List.foldlM_cons] at hok
    obtain ⟨⟨queue₁, m₁⟩, hfirst, hok⟩ := exists_of_bind_eq_ok hok
    obtain ⟨hb, hbranches⟩ := List.forall_mem_cons.1 hb
    obtain ⟨hunder, hgrows, hextends, tr, -, happends, hrenders⟩ := h.addBranch ht hq hb hfirst
    obtain ⟨hunder', hgrows', hextends', new, happends', hall⟩ :=
      ih hunder (hgrows.keys hq) hbranches hok
    exact ⟨hunder', hgrows.trans hgrows', fun i q hi ↦ hextends' (hextends hi), tr :: new,
      happends.trans happends', .cons (hrenders.grows hgrows') hall⟩

/-- **Expanding a state.** -/
theorem Underway.expand (h : Underway t o dummy queue m) (ht : t.Discerns)
    (hq : m.key? q = some k) (hok : Assembly.expand t queue m q = .ok (queue', m')) :
    Underway t o dummy queue' m' ∧ Grows m m' ∧ Extends queue queue' ∧
      ∃ new, Appends m m' q new ∧ List.Forall₂ (Renders t m' q k) (t.branches k) new := by
  obtain ⟨s, hs, rfl⟩ := Option.map_eq_some_iff.1 hq
  unfold Assembly.expand at hok
  rw [Array.getD_eq_getD_getElem?, hs] at hok
  exact h.foldlM_addBranch ht hq (fun _ hb ↦ hb) hok

/-- **What adding a branch keeps, expansion keeps.** -/
theorem Underway.expandAll_induction {P : Assembly o → Prop} (ht : t.Discerns)
    (hP : ∀ {queue queue' m m' q k b}, Underway t o dummy queue m → P m → m.key? q = some k →
      b ∈ t.branches k →
      Assembly.addBranch t q (t.step k.1 k.2) (queue, m) b = .ok (queue', m') → P m')
    {fuel place : Nat} (h : Underway t o dummy queue m) (hm : P m)
    (hok : Assembly.expandAll t fuel place queue m = .ok m') : P m' := by
  have hfold : ∀ {q k} {branches : List Branch} {queue m queue' m'},
      Underway t o dummy queue m → P m → m.key? q = some k → (∀ b ∈ branches, b ∈ t.branches k) →
      branches.foldlM (Assembly.addBranch t q (t.step k.1 k.2)) (queue, m) = .ok (queue', m') →
      P m' := by
    intro q k branches
    induction branches with
    | nil =>
      intro queue m queue' m' _ hm _ _ hok
      cases hok
      exact hm
    | cons b branches ih =>
      intro queue m queue' m' h hm hq hb hok
      rw [List.foldlM_cons] at hok
      obtain ⟨⟨queue₁, m₁⟩, hfirst, hok⟩ := exists_of_bind_eq_ok hok
      obtain ⟨hb, hbranches⟩ := List.forall_mem_cons.1 hb
      obtain ⟨hunder, hgrows, -⟩ := h.addBranch ht hq hb hfirst
      exact ih hunder (hP h hm hq hb hfirst) (hgrows.keys hq) hbranches hok
  induction fuel generalizing place queue m with
  | zero =>
    cases hok
    exact hm
  | succ fuel ih =>
    unfold Assembly.expandAll at hok
    split at hok
    · cases hok
      exact hm
    · next q hq =>
      split at hok
      · cases hok
      · next queue₁ m₁ hexpand =>
        obtain ⟨k, hk, -⟩ := h.known (Array.mem_of_getElem? hq)
        obtain ⟨hunder, -⟩ := h.expand ht hk hexpand
        refine ih hunder ?_ hok
        obtain ⟨s, hs, rfl⟩ := Option.map_eq_some_iff.1 hk
        unfold Assembly.expand at hexpand
        rw [Array.getD_eq_getD_getElem?, hs] at hexpand
        exact hfold h hm hk (fun _ hb ↦ hb) hexpand

theorem Underway.size_queue_le (h : Underway t o dummy queue m) : queue.size ≤ m.states.size := by
  have hsubset : queue.toList ⊆ List.range m.states.size := by
    intro id hid
    obtain ⟨k, hk, -⟩ := h.known (Array.mem_toList_iff.1 hid)
    exact List.mem_range.2 (lt_of_key hk)
  have hle := (h.nodup.subperm hsubset).length_le
  rwa [Array.length_toList, List.length_range] at hle

/-- How far expansion has come: the states up to a place in the queue are expanded, and nothing
leaves the others. What leaves the dummy is no matter of expansion. -/
structure Reaches (t : Tree) (dummy place : Nat) (queue : Array Nat) (m : Assembly o) : Prop where
  done : ∀ {i q}, i < place → queue[i]? = some q → q ≠ dummy → Expanded t m q
  blank : ∀ {q}, q ≠ dummy → (∀ i < place, queue[i]? ≠ some q) → m.edges q = []

/-- Expansion is over: the states in the queue are expanded, and nothing leaves the others. -/
structure Complete (t : Tree) (dummy : Nat) (queue : Array Nat) (m : Assembly o) : Prop where
  done : ∀ {q}, q ∈ queue → q ≠ dummy → Expanded t m q
  blank : ∀ {q}, q ≠ dummy → q ∉ queue → m.edges q = []

/-- When the end of the queue is reached, expansion is over. -/
theorem Reaches.complete {place : Nat} (h : Reaches t dummy place queue m)
    (hle : queue.size ≤ place) : Complete t dummy queue m where
  done hq hne := by
    obtain ⟨i, hi⟩ := Array.mem_iff_getElem?.1 hq
    exact h.done (Nat.lt_of_lt_of_le (Array.getElem?_eq_some_iff.1 hi).1 hle) hi hne
  blank hne hq := h.blank hne fun i _ hi ↦ hq (Array.mem_of_getElem? hi)

theorem Reaches.expand {place : Nat} (h : Underway t o dummy queue m)
    (hreaches : Reaches t dummy place queue m) (hq : queue[place]? = some q)
    (hk : m.key? q = some k) (hgrows : Grows m m') (hextends : Extends queue queue')
    {new : List Transition} (happends : Appends m m' q new)
    (hall : List.Forall₂ (Renders t m' q k) (t.branches k) new) :
    Reaches t dummy (place + 1) queue' m' := by
  have hplace : place < queue.size := (Array.getElem?_eq_some_iff.1 hq).1
  -- the queue has changed behind the place only, and holds the state nowhere else
  have hold : ∀ {i q'}, i < place + 1 → queue'[i]? = some q' → queue[i]? = some q' := by
    intro i q' hi hq'
    have hget := Array.getElem?_eq_getElem (Nat.lt_of_lt_of_le hi hplace)
    rw [hget, ← hextends hget, hq']
  have hothers : ∀ {q'}, q' ≠ q → m'.edges q' = m.edges q' := by
    intro q' hne
    rw [happends, if_neg hne, List.append_nil]
  have hne : ∀ {i}, i < place → queue[i]? ≠ some q := by
    intro i hi hget
    have hnodup := List.nodup_iff_getElem?_ne_getElem?.1 h.nodup i place hi
      (by rwa [Array.length_toList])
    rw [Array.getElem?_toList, Array.getElem?_toList] at hnodup
    exact hnodup (hget.trans hq.symm)
  constructor
  case done =>
    intro i q' hi hq' hdummy
    have hq' := hold hi hq'
    rcases Nat.lt_succ_iff_lt_or_eq.1 hi with hi | rfl
    · have hother : q' ≠ q := by
        rintro rfl
        exact hne hi hq'
      obtain ⟨k', hk', -⟩ := h.known (Array.mem_of_getElem? hq')
      exact (hreaches.done hi hq' hdummy).grows ⟨k', hk'⟩ hgrows (hothers hother)
    · -- nothing has left the state before
      obtain rfl := Option.some.inj (hq.symm.trans hq')
      intro k' hk'
      obtain rfl := Option.some.inj ((hgrows.keys hk).symm.trans hk')
      rw [happends, if_pos rfl, hreaches.blank hdummy fun i hi ↦ hne hi, List.nil_append]
      exact hall
  case blank =>
    intro q' hdummy hq'
    have hother : q' ≠ q := by
      rintro rfl
      exact hq' place (Nat.lt_succ_self _) (hextends hq)
    rw [hothers hother]
    exact hreaches.blank hdummy fun i hi hget ↦
      hq' i (Nat.lt_succ_of_lt hi) (hextends hget)

/-- **Expanding all states.** In the end all states that have been in the queue are expanded, and
nothing leaves the others. -/
theorem Underway.expandAll (ht : t.Discerns) {fuel place : Nat}
    (hfuel : o.maxState + 1 ≤ place + fuel) (h : Underway t o dummy queue m)
    (hreaches : Reaches t dummy place queue m)
    (hok : Assembly.expandAll t fuel place queue m = .ok m') :
    ∃ queue', Underway t o dummy queue' m' ∧ Grows m m' ∧ Complete t dummy queue' m' := by
  induction fuel generalizing place queue m with
  | zero =>
    -- a queue with room for all states has been passed through
    cases hok
    have hle := Nat.le_trans (Nat.le_trans h.size_queue_le h.size) hfuel
    exact ⟨queue, h, .refl _, hreaches.complete hle⟩
  | succ fuel ih =>
    unfold Assembly.expandAll at hok
    split at hok
    · next hnone =>
      cases hok
      exact ⟨queue, h, .refl _, hreaches.complete (Array.getElem?_eq_none_iff.1 hnone)⟩
    · next q hq =>
      split at hok
      · cases hok
      · next queue₁ m₁ hexpand =>
        obtain ⟨k, hk, -⟩ := h.known (Array.mem_of_getElem? hq)
        obtain ⟨hunder, hgrows, hextends, new, happends, hall⟩ := h.expand ht hk hexpand
        obtain ⟨queue', hunder', hgrows', hcomplete⟩ :=
          ih (by omega) hunder (hreaches.expand h hq hk hgrows hextends happends hall) hok
        exact ⟨queue', hunder', hgrows.trans hgrows', hcomplete⟩

end Assembly

end PatternAutomata
