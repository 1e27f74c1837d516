import Mathlib.Data.List.ProdSigma
import Mathlib.Data.List.Sort
import Mathlib.Data.List.Sublists
import PatternAutomata.Proofs.Automaton.Realize

/-!
# Room enough

The states of an automaton have different keys, and a tree has finitely many of them: sets of those
nodes that may be markers, each with and without having to advance. The branches of a step are
finitely many, too, as no target occurs twice among its successors. So bounds can be told that no
automaton of a tree outgrows, and under these, building it goes through to the end.
-/

namespace PatternAutomata

/-! ## How many branches there are -/

namespace Branch

variable {t : Tree}

theorem length_spread_le (index : Nat) (rest : CodePointSet) (branches : List Branch) :
    (spread index rest branches).length ≤ 2 * branches.length + 1 := by
  induction branches generalizing rest with
  | nil =>
    unfold spread
    split <;> simp
  | cons b branches ih =>
    unfold spread
    split
    · simp only [List.length_cons]
      omega
    · split
      · have hle := ih rest
        simp only [List.length_cons]
        omega
      · dsimp only
        have hle := ih (rest.subtract (b.on.intersect rest))
        split <;> (simp only [List.length_cons]; omega)

theorem length_add_le (branches : List Branch) (s : Successor) (index : Nat) :
    (add t branches s index).length ≤ 2 * branches.length + 1 := by
  unfold add
  split
  · simp only [List.length_append, List.length_singleton]
    omega
  · exact length_spread_le _ _ _

/-- Each successor splits every branch in two at most, and adds one. -/
theorem length_ofSuccessors_lt (successors : Array Successor) :
    (ofSuccessors t successors).length < 2 ^ successors.size := by
  -- one branch more than there are is what doubles
  have hfold : ∀ (l : List Successor) (branches : List Branch) (index : Nat),
      (l.foldl (fun (r : List Branch × Nat) s ↦ (add t r.1 s r.2, r.2 + 1))
        (branches, index)).1.length + 1 ≤ (branches.length + 1) * 2 ^ l.length := by
    intro l
    induction l with
    | nil => exact fun branches _ ↦ Nat.le_of_eq (Nat.mul_one _).symm
    | cons s l ih =>
      intro branches index
      refine Nat.le_trans (ih _ _) ?_
      rw [List.length_cons, Nat.pow_succ', ← Nat.mul_assoc]
      have hle : (add t branches s index).length + 1 ≤ (branches.length + 1) * 2 := by
        have hadd := length_add_le (t := t) branches s index
        omega
      exact Nat.mul_le_mul_right _ hle
  have hle := hfold successors.toList [] 0
  rw [List.length_nil, Nat.zero_add, Nat.one_mul, Array.length_toList, Array.foldl_toList] at hle
  exact Nat.lt_of_lt_of_le (Nat.lt_succ_of_le (List.length_filter_le _ _)) hle

end Branch

/-! ## How many keys there are -/

namespace Tree

variable {t : Tree} {x : Nat} {ids : List Nat} {k : MarkerSet × Bool} {b : Branch}

/-- The nodes that may be markers: the root, and whatever is neither a group nor a sequence. -/
def places (t : Tree) : List Nat :=
  (List.range t.size).filter fun x ↦
    x == t.wrappedRoot || !((t.node x).kind.isGroup || (t.node x).kind.isSequence)

/-- The markers may be markers of the tree. -/
structure Covers (t : Tree) (markers : MarkerSet) : Prop where
  treeSize : markers.treeSize = t.size
  mem_places : ∀ x ∈ markers.members, x ∈ t.places

theorem covers_markers (h : ∀ x ∈ ids, x ∈ t.places) : t.Covers (t.markers ids) :=
  ⟨rfl, fun x hx ↦ h x (mem_markers.1 hx)⟩

theorem lt_size_of_kind_ne (h : (t.node x).kind ≠ .sequence) : x < t.size := by
  refine Arena.lt_size_of_node_ne fun hx ↦ h ?_
  rw [Tree.node, hx]
  rfl

theorem mem_places {kind : NodeKind} (hkind : (t.node x).kind = kind)
    (hgroup : kind.isGroup = false) (hsequence : kind.isSequence = false) : x ∈ t.places := by
  refine List.mem_filter.2 ⟨List.mem_range.2 (lt_size_of_kind_ne fun heq ↦ ?_), ?_⟩
  · rw [← hkind, heq] at hsequence
    cases hsequence
  · rw [hkind, hgroup, hsequence, Bool.or_self, Bool.not_false, Bool.or_true]

theorem Covers.sublist (h : t.Covers k.1) : k.1.toList.Sublist t.places :=
  List.sublist_of_subperm_of_pairwise
    (List.subperm_of_subset k.1.members.ascending.nodup fun x hx ↦ h.mem_places x hx)
    k.1.members.ascending (List.pairwise_lt_range.filter _)

/-- **There are finitely many keys.** -/
theorem length_keys_le {keys : List (MarkerSet × Bool)} (hnodup : keys.Nodup)
    (hkeys : ∀ k ∈ keys, t.Covers k.1) : keys.length ≤ 2 ^ (t.places.length + 1) := by
  -- within a tree, a key is known by a list that goes up and by whether to advance
  have hcodes : (keys.map fun k ↦ (k.1.toList, k.2)).Nodup := by
    refine hnodup.map_on ?_
    rintro ⟨⟨size, ⟨l, hl⟩⟩, mustAdvance⟩ hk ⟨⟨size', ⟨l', hl'⟩⟩, mustAdvance'⟩ hk' heq
    obtain rfl : size = t.size := (hkeys _ hk).treeSize
    obtain rfl : size' = t.size := (hkeys _ hk').treeSize
    obtain ⟨rfl, rfl⟩ := Prod.mk.inj heq
    rfl
  have hsubset : (keys.map fun k ↦ (k.1.toList, k.2)) ⊆
      t.places.sublists ×ˢ [false, true] := by
    intro code hcode
    obtain ⟨k, hk, rfl⟩ := List.mem_map.1 hcode
    refine List.mem_product.2 ⟨List.mem_sublists.2 (hkeys k hk).sublist, ?_⟩
    cases k.2 <;> simp
  have hle := (hcodes.subperm hsubset).length_le
  rwa [List.length_map, List.length_product, List.length_sublists, List.length_cons,
    List.length_singleton, ← Nat.pow_succ] at hle

section Regular

variable (h : t.Regular t.encoding.Fits)
include h

theorem Regular.mem_places_of_mem_dollars (hx : x ∈ t.dollars) : x ∈ t.places :=
  mem_places (h.mem_dollars.1 hx).1 rfl rfl

theorem Regular.start_mem_places {anchored : Bool} {lead : Nat} (hlead : lead ≤ t.leadLength) :
    t.start anchored lead ∈ t.places :=
  mem_places (h.start_kind hlead) rfl rfl

theorem Regular.wrappedRoot_mem_places : t.wrappedRoot ∈ t.places := by
  refine List.mem_filter.2 ⟨List.mem_range.2 (lt_size_of_kind_ne fun hkind ↦ ?_), ?_⟩
  · have hgroup := h.wrappedRoot_group
    rw [hkind] at hgroup
    cases hgroup
  · rw [beq_self_eq_true, Bool.true_or]

theorem Regular.target_mem_places {d : Successor} (hd : d ∈ t.step k.1 k.2) :
    d.target ∈ t.places := by
  rcases h.stepsCompletely.target d hd with hchars | hmatch | hdollar
  · obtain ⟨set, lookBehind, hkind⟩ := NodeKind.isChars_iff.1 hchars
    exact mem_places hkind rfl rfl
  · exact mem_places (h.matchFound_iff.2 hmatch) rfl rfl
  · exact mem_places hdollar rfl rfl

theorem Regular.exists_of_mem_contributors (hb : b ∈ t.branches k) {i : Nat}
    (hi : i ∈ b.contributors) : ∃ d, (t.step k.1 k.2)[i]? = some d := by
  cases hfinal : b.isFinal with
  | true =>
    obtain ⟨j, d, hj, -, rfl⟩ := ((h.exact_branches k).final hfinal).1 hb
    obtain rfl := Array.mem_singleton.1 hi
    exact ⟨d, hj⟩
  | false =>
    obtain ⟨d, hd, -⟩ := (h.exact_branches k).reading hb hfinal hi
    exact ⟨d, hd⟩

theorem Regular.covers_targetOf (hb : b ∈ t.branches k) : t.Covers (t.targetOf k b) := by
  refine ⟨rfl, fun x hx ↦ ?_⟩
  obtain ⟨i, hi, hx⟩ := mem_targetOf.1 hx
  obtain ⟨d, hd⟩ := h.exists_of_mem_contributors hb hi
  rw [Array.getD_eq_getD_getElem?, hd, Option.getD_some, Branch.markersOf] at hx
  have hd := Array.mem_of_getElem? hd
  rcases List.mem_append.1 hx with hx | hx
  · split at hx
    · exact h.mem_places_of_mem_dollars (Array.mem_toList_iff.1 hx)
    · exact h.mem_places_of_mem_dollars (Array.mem_toList_iff.1 hx)
    · exact List.mem_singleton.1 hx ▸ h.target_mem_places hd
  · obtain ⟨length, hkind⟩ := NodeKind.isLookBehind_iff.1 (h.isLookBehind_of_mem hd hx)
    exact mem_places hkind rfl rfl

/-- A step has no more branches than there are sets of targets. -/
theorem Regular.length_branches_le (k : MarkerSet × Bool) :
    (t.branches k).length ≤ 2 ^ t.places.length := by
  have hsubset : (t.step k.1 k.2).toList.map Successor.target ⊆ t.places := by
    intro x hx
    obtain ⟨d, hd, rfl⟩ := List.mem_map.1 hx
    exact h.target_mem_places (Array.mem_toList_iff.1 hd)
  have hle := (h.stepsCompletely.nodup.subperm hsubset).length_le
  rw [List.length_map, Array.length_toList] at hle
  exact Nat.le_trans (Nat.le_of_lt (Branch.length_ofSuccessors_lt _))
    (Nat.pow_le_pow_right (Nat.succ_pos 1) hle)

end Regular

end Tree

/-! ## What the bounds let through -/

/-- The bounds leave room for all keys of a tree, for the branches of all of them, and for the
entries and loop-backs. -/
structure Options.Houses (o : Options) (t : Tree) : Prop where
  states : 2 ^ (t.places.length + 1) ≤ o.maxState + 1
  transitions :
    3 * t.leadLength + 6 + 2 ^ (t.places.length + 1) * 2 ^ t.places.length ≤ o.maxTransition + 1

instance (o : Options) (t : Tree) : Decidable (o.Houses t) :=
  decidable_of_iff (_ ∧ _) ⟨fun h ↦ ⟨h.1, h.2⟩, fun h ↦ ⟨h.states, h.transitions⟩⟩

theorem bind_eq_ok {ε α β : Type} {x : Except ε α} {f : α → Except ε β} {a : α} {b : β}
    (hx : x = .ok a) (hf : f a = .ok b) : x >>= f = .ok b := by
  rw [hx]
  exact hf

/-- Steps that each use up one of what there is room for go well one after another. -/
theorem exists_foldlM_eq_ok {ε α β : Type} {f : β → α → Except ε β} (P : Nat → β → Prop)
    (bound : Nat) {l : List α}
    (hf : ∀ a ∈ l, ∀ {n b}, n < bound → P n b → ∃ b', f b a = .ok b' ∧ P (n + 1) b') {n : Nat}
    {b : β} (hn : n + l.length ≤ bound) (hb : P n b) :
    ∃ b', l.foldlM f b = .ok b' ∧ P (n + l.length) b' := by
  induction l generalizing n b with
  | nil => exact ⟨b, rfl, hb⟩
  | cons a l ih =>
    rw [List.length_cons] at hn
    obtain ⟨hfirst, hrest⟩ := List.forall_mem_cons.1 hf
    obtain ⟨b₁, hok, hb₁⟩ := hfirst (by omega) hb
    obtain ⟨b₂, hok₂, hb₂⟩ := ih hrest (by omega) hb₁
    refine ⟨b₂, ?_, ?_⟩
    · rw [List.foldlM_cons]
      exact bind_eq_ok hok hok₂
    · rwa [List.length_cons, ← Nat.succ_add_eq_add_succ]

namespace Assembly

variable {t : Tree} {o : Options} {m m' : Assembly o} {id q n : Nat} {k : MarkerSet × Bool}
  {b : Branch} {dummy : Nat} {queue : Array Nat}

/-- The keys are those of the tree, and there are no more transitions than `n`. -/
structure Sized (t : Tree) (m : Assembly o) (n : Nat) : Prop where
  keys : ∀ {id k}, m.key? id = some k → t.Covers k.1
  transitions : m.transitions.size ≤ n

namespace Sized

theorem empty : Sized t ({} : Assembly o) 0 := ⟨nofun, Nat.le_refl _⟩

theorem modifyState (h : Sized t m n) {f : State → State} (hf : ∀ s, (f s).key = s.key) :
    Sized t (m.modifyState id f) n where
  keys hk := by
    rw [key_modifyState hf] at hk
    exact h.keys hk
  transitions := h.transitions

theorem assign (h : Sized t m n) (id : Nat) (f : Roles → Roles) : Sized t (m.assign id f) n :=
  h.modifyState fun _ ↦ rfl

/-- The states and the keys that have no state yet are together no more than there are keys. -/
theorem length_le (h : Sized t m n) (htabled : Tabled m) {keys : List (MarkerSet × Bool)}
    (hnodup : keys.Nodup) (hkeys : ∀ k ∈ keys, t.Covers k.1 ∧ m.table[k]? = none) :
    m.states.size + keys.length ≤ 2 ^ (t.places.length + 1) := by
  have hget : ∀ i, (m.states.toList.map State.key)[i]? = m.key? i := by
    intro i
    rw [List.getElem?_map, Array.getElem?_toList, key?]
  have hstates : (m.states.toList.map State.key).Nodup := by
    refine List.nodup_iff_getElem?_ne_getElem?.2 fun i j hij hj heq ↦ ?_
    have hsome := List.getElem?_eq_getElem hj
    rw [heq.symm, hget] at hsome
    rw [hget, hget] at heq
    exact Nat.ne_of_lt hij (htabled.key_inj hsome (heq ▸ hsome))
  have hknown : ∀ {k}, k ∈ m.states.toList.map State.key → ∃ i, m.key? i = some k := by
    intro k hk
    obtain ⟨i, hi⟩ := List.mem_iff_getElem?.1 hk
    exact ⟨i, hget i ▸ hi⟩
  -- a key that the table does not know is that of no state
  have hall : (m.states.toList.map State.key ++ keys).Nodup := by
    refine List.nodup_append.2 ⟨hstates, hnodup, fun k hk k' hk' heq ↦ ?_⟩
    obtain ⟨i, hi⟩ := hknown hk
    have hnone := (hkeys k' hk').2
    rw [← heq, htabled.table.2 hi] at hnone
    cases hnone
  have hle := Tree.length_keys_le (t := t) hall fun k hk ↦ by
    rcases List.mem_append.1 hk with hk | hk
    · obtain ⟨i, hi⟩ := hknown hk
      exact h.keys hi
    · exact (hkeys k hk).1
  rwa [List.length_append, List.length_map, Array.length_toList] at hle

/-- **There is room for the state of a key.** -/
theorem stateOf (h : Sized t m n) (htabled : Tabled m) (ho : o.Houses t) {markers : MarkerSet}
    (hcovers : t.Covers markers) (mustAdvance : Bool) : ∃ id isNew m',
      m.stateOf t markers mustAdvance = .ok (id, isNew, m') ∧ Tabled m' ∧ Sized t m' n := by
  cases htable : m.table[(markers, mustAdvance)]? with
  | some id =>
    refine ⟨id, false, m, ?_, htabled, h⟩
    unfold Assembly.stateOf
    rw [htable]
    rfl
  | none =>
    -- besides the keys of the states this one counts, so the bound is not reached yet
    have hroom := h.length_le htabled (List.nodup_singleton (markers, mustAdvance)) fun k hk ↦ by
      rw [List.mem_singleton.1 hk]
      exact ⟨hcovers, htable⟩
    rw [List.length_singleton] at hroom
    have hnext : m.stateNumbers.next.1 = .ok m.states.size := by
      have hstates := ho.states
      rw [next_stateNumbers]
      exact Bound.grant_eq_ok (show (m.states.size : Int) ≤ o.maxState by omega)
    have hok : ∃ m', m.stateOf t markers mustAdvance = .ok (m.states.size, true, m') := by
      unfold Assembly.stateOf
      rw [htable]
      exact ⟨_, bind_eq_ok hnext rfl⟩
    obtain ⟨m', hok⟩ := hok
    obtain ⟨htabled', hmakes, -⟩ := stateOf_spec htabled hok
    refine ⟨_, _, m', hok, htabled', fun hk ↦ ?_, hmakes.transitions ▸ h.transitions⟩
    rcases hmakes.keys.1 hk with hk | ⟨-, rfl⟩
    · exact h.keys hk
    · exact hcovers

/-- **There is room for a transition.** -/
theorem connect (h : Sized t m n) (hn : n ≤ o.maxTransition) (tr : Transition) :
    ∃ i m', m.connect tr = .ok (i, m') ∧ Sized t m' (n + 1) := by
  have hnext : m.transitionNumbers.next.1 = .ok m.transitions.size := by
    have htransitions := h.transitions
    rw [next_transitionNumbers]
    exact Bound.grant_eq_ok (show (m.transitions.size : Int) ≤ o.maxTransition by omega)
  refine ⟨_, _, bind_eq_ok hnext rfl, fun hk ↦ h.keys hk, ?_⟩
  rw [transitions_withTransition, Array.size_push]
  exact Nat.succ_le_succ h.transitions

theorem connectFreely (h : Sized t m n) (hn : n ≤ o.maxTransition) (source target : Nat) :
    ∃ i m', m.connectFreely t source target = .ok (i, m') ∧ Sized t m' (n + 1) :=
  h.connect hn _

end Sized

/-! ## Fixed states -/

section Fixed

variable (ho : o.Houses t)
include ho

theorem Sized.addEntries (h : Sized t m n) (htabled : Tabled m) {anchored : Bool}
    (hstart : ∀ lead ≤ t.leadLength, t.start anchored lead ∈ t.places)
    (hn : n + (t.leadLength + 1) ≤ o.maxTransition + 1) (dummy : Nat) :
    ∃ entries m', m.addEntries t dummy anchored = .ok (entries, m') ∧ Tabled m' ∧
      Sized t m' (n + (t.leadLength + 1)) := by
  have hfold : ∃ r, m.addEntries t dummy anchored = .ok r ∧ Tabled r.2 ∧
      Sized t r.2 (n + (List.range (t.leadLength + 1)).length) := by
    refine exists_foldlM_eq_ok (fun n (r : Entries × Assembly o) ↦ Tabled r.2 ∧ Sized t r.2 n)
      (o.maxTransition + 1) ?_ (by rwa [List.length_range]) ⟨htabled, h⟩
    rintro lead hlead n ⟨entries, m⟩ hn ⟨htabled, hsized⟩
    have hlead : lead ≤ t.leadLength := Nat.le_of_lt_succ (List.mem_range.1 hlead)
    have hcovers : t.Covers (t.markers [t.start anchored lead]) :=
      Tree.covers_markers fun x hx ↦ List.mem_singleton.1 hx ▸ hstart lead hlead
    obtain ⟨state, isNew, m₁, hstate, htabled₁, hsized₁⟩ :=
      hsized.stateOf htabled ho hcovers o.mustAdvance
    have htabled₂ : Tabled (m₁.assign state (initialRole anchored lead)) :=
      htabled₁.modifyState (fun _ ↦ rfl) fun _ ↦ rfl
    obtain ⟨entry, m₂, hconnect, hsized₂⟩ := (hsized₁.assign state
      (initialRole anchored lead)).connectFreely (o := o) (Nat.le_of_lt_succ hn) dummy state
    obtain ⟨htabled₃, -⟩ := htabled₂.connect hconnect
    exact ⟨_, bind_eq_ok hstate (bind_eq_ok hconnect rfl), htabled₃, hsized₂⟩
  obtain ⟨⟨entries, m'⟩, hok, htabled', hsized⟩ := hfold
  rw [List.length_range] at hsized
  exact ⟨entries, m', hok, htabled', hsized⟩

theorem Sized.addAdvanced (h : Sized t m n) (htabled : Tabled m)
    (hcovers : t.Covers (t.markers [t.start false 0])) : ∃ advanced m',
      m.addAdvanced t = .ok (advanced, m') ∧ Tabled m' ∧ Sized t m' n := by
  unfold Assembly.addAdvanced
  split
  · obtain ⟨id, isNew, m₁, hstate, htabled₁, hsized₁⟩ := h.stateOf htabled ho hcovers false
    exact ⟨_, _, bind_eq_ok hstate rfl, htabled₁, hsized₁⟩
  · exact ⟨_, _, rfl, htabled, h⟩

theorem Sized.addOwnAnchored (h : Sized t m n) (htabled : Tabled m)
    (hstart : ∀ lead ≤ t.leadLength, t.start true lead ∈ t.places)
    (hn : n + (t.leadLength + 1) ≤ o.maxTransition + 1) (dummy : Nat) : ∃ own m',
      m.addOwnAnchored t dummy = .ok (own, m') ∧ Sized t m' (n + (t.leadLength + 1)) := by
  unfold Assembly.addOwnAnchored
  split
  · exact ⟨_, _, rfl, fun hk ↦ h.keys hk, Nat.le_trans h.transitions (Nat.le_add_right _ _)⟩
  · obtain ⟨entries, m₁, hentries, -, hsized₁⟩ := h.addEntries ho htabled hstart hn dummy
    exact ⟨_, _, bind_eq_ok hentries rfl, hsized₁⟩

/-- **There is room for what stands when expansion starts.** -/
theorem exists_start (h : t.Regular t.encoding.Fits) : ∃ f m, Assembly.start t o = .ok (f, m) ∧
    Sized t m (2 * t.leadLength + 4) := by
  have hn := ho.transitions
  have hcovers : ∀ {x}, x ∈ t.places → t.Covers (t.markers [x]) := fun hx ↦
    Tree.covers_markers fun y hy ↦ List.mem_singleton.1 hy ▸ hx
  have hmatch : t.matchFound ∈ t.places := Tree.mem_places (h.matchFound_iff.2 rfl) rfl rfl
  have hdollars : t.Covers (t.markers t.dollars.toList) := Tree.covers_markers fun x hx ↦
    h.mem_places_of_mem_dollars (Array.mem_toList_iff.1 hx)
  have hstart : ∀ anchored, ∀ lead ≤ t.leadLength, t.start anchored lead ∈ t.places :=
    fun _ _ ↦ h.start_mem_places
  have hassign : ∀ {m : Assembly o} {id : Nat} {f : Roles → Roles}, Tabled m →
      Tabled (m.assign id f) := fun htabled ↦ htabled.modifyState (fun _ ↦ rfl) fun _ ↦ rfl
  have htabled : Tabled {} := (Prepared.empty (t := t) (o := o)).tabled
  obtain ⟨dummy, isNew₁, m₁, h₁, ht₁, hs₁⟩ :=
    (Sized.empty (t := t)).stateOf htabled ho (hcovers h.wrappedRoot_mem_places) o.mustAdvance
  obtain ⟨anchoredFinal, isNew₂, m₂, h₂, ht₂, hs₂⟩ := hs₁.stateOf ht₁ ho hdollars false
  obtain ⟨unanchoredFinal, isNew₃, m₃, h₃, ht₃, hs₃⟩ :=
    (hs₂.assign anchoredFinal ({ · with anchoredFinal := true })).stateOf
      (hassign ht₂) ho (hcovers hmatch) false
  obtain ⟨anchoredReverseEntry, m₄, h₄, hs₄⟩ :=
    (hs₃.assign unanchoredFinal ({ · with unanchoredFinal := true })).connectFreely
      (o := o) (Nat.zero_le _) anchoredFinal dummy
  obtain ⟨ht₄, -⟩ := (hassign ht₃).connect h₄
  obtain ⟨unanchoredReverseEntry, m₅, h₅, hs₅⟩ :=
    hs₄.connectFreely (o := o) (by omega) unanchoredFinal dummy
  obtain ⟨ht₅, -⟩ := ht₄.connect h₅
  obtain ⟨advanced, m₆, h₆, ht₆, hs₆⟩ :=
    hs₅.addAdvanced ho ht₅ (hcovers (hstart _ _ (Nat.zero_le _)))
  obtain ⟨unanchored, m₇, h₇, ht₇, hs₇⟩ := hs₆.addEntries ho ht₆ (hstart false) (by omega) dummy
  obtain ⟨own, m₈, h₈, hs₈⟩ := hs₇.addOwnAnchored ho ht₇ (hstart true) (by omega) dummy
  rw [show 0 + 1 + 1 + (t.leadLength + 1) + (t.leadLength + 1) = 2 * t.leadLength + 4 by omega]
    at hs₈
  refine ⟨_, _, bind_eq_ok h₁ (bind_eq_ok h₂ (bind_eq_ok h₃ (bind_eq_ok h₄ (bind_eq_ok h₅
    (bind_eq_ok h₆ (bind_eq_ok h₇ (bind_eq_ok h₈ rfl))))))), ?_⟩
  exact hs₈.modifyState fun _ ↦ rfl

end Fixed

/-! ## Expansion -/

section Expansion

variable (ho : o.Houses t) (h : t.Regular t.encoding.Fits)
include ho h

/-- **There is room for a branch.** -/
theorem Sized.addBranch (hs : Sized t m n) (htabled : Tabled m) (hn : n ≤ o.maxTransition)
    (hb : b ∈ t.branches k) (q : Nat) (queue : Array Nat) : ∃ queue' m',
      Assembly.addBranch t q (t.step k.1 k.2) (queue, m) b = .ok (queue', m') ∧
        Sized t m' (n + 1) := by
  obtain ⟨target, isNew, m₁, hstate, -, hs₁⟩ :=
    hs.stateOf htabled ho (h.covers_targetOf hb) false
  have hs₂ : Sized t (if isNew && b.isFinal then
      m₁.assign target (finalRole t (t.targetOf k b)) else m₁) n := by
    split
    · exact hs₁.assign _ _
    · exact hs₁
  obtain ⟨transition, m₂, hconnect, hs₃⟩ := hs₂.connect hn {
    source := q, target
    on := b.on
    boundaries := boundariesOf (b.contributors.toList.map ((t.step k.1 k.2).getD · default))
    lastGroup := (b.contributors.toList.map
      ((t.step k.1 k.2).getD · default)).findSome? (·.lastGroup) }
  exact ⟨_, _, bind_eq_ok hstate (bind_eq_ok hconnect rfl), hs₃.modifyState fun _ ↦ rfl⟩

theorem Underway.exists_expand (hunder : Underway t o dummy queue m) (hs : Sized t m n)
    (hn : n + 2 ^ t.places.length ≤ o.maxTransition + 1) (hq : m.key? q = some k) : ∃ queue' m',
      Assembly.expand t queue m q = .ok (queue', m') ∧ Sized t m' (n + 2 ^ t.places.length) := by
  have hlength := h.length_branches_le k
  obtain ⟨s, hstate, rfl⟩ := Option.map_eq_some_iff.1 hq
  obtain ⟨⟨queue', m'⟩, hok, -, -, hs'⟩ := exists_foldlM_eq_ok
    (fun n r ↦ Underway t o dummy r.1 r.2 ∧ r.2.key? q = some s.key ∧ Sized t r.2 n)
    (o.maxTransition + 1) (l := t.branches s.key)
    (f := Assembly.addBranch t q (t.step s.key.1 s.key.2))
    (fun b hb {n r} (hn : n < o.maxTransition + 1) ⟨hunder, hq, hs⟩ ↦ by
      obtain ⟨queue₁, m₁, hok, hs₁⟩ :=
        hs.addBranch ho h hunder.tabled (Nat.le_of_lt_succ hn) hb q r.1
      obtain ⟨hunder₁, hgrows, -⟩ := hunder.addBranch h.discerns hq hb hok
      exact ⟨_, hok, hunder₁, hgrows.keys hq, hs₁⟩)
    (by omega) (b := (queue, m)) ⟨hunder, hq, hs⟩
  refine ⟨queue', m', ?_, fun hk ↦ hs'.keys hk, Nat.le_trans hs'.transitions (by omega)⟩
  unfold Assembly.expand
  rw [Array.getD_eq_getD_getElem?, hstate]
  exact hok

/-- **There is room to expand all states.** Each state in the queue is expanded once, and there are
no more of them than there are keys. -/
theorem Underway.exists_expandAll (fuel place base : Nat) (hunder : Underway t o dummy queue m)
    (hbase : base + 2 ^ (t.places.length + 1) * 2 ^ t.places.length ≤ o.maxTransition + 1)
    (hs : Sized t m (base + place * 2 ^ t.places.length))
    (hplace : place ≤ 2 ^ (t.places.length + 1)) :
    ∃ m', Assembly.expandAll t fuel place queue m = .ok m' ∧
      Sized t m' (base + 2 ^ (t.places.length + 1) * 2 ^ t.places.length) := by
  have hdone : ∀ {m : Assembly o} {place : Nat}, Sized t m (base + place * 2 ^ t.places.length) →
      place ≤ 2 ^ (t.places.length + 1) →
      Sized t m (base + 2 ^ (t.places.length + 1) * 2 ^ t.places.length) := by
    intro m place hs hplace
    refine ⟨fun hk ↦ hs.keys hk, Nat.le_trans hs.transitions ?_⟩
    exact Nat.add_le_add_left (Nat.mul_le_mul_right _ hplace) _
  induction fuel generalizing place queue m with
  | zero => exact ⟨m, rfl, hdone hs hplace⟩
  | succ fuel ih =>
    unfold Assembly.expandAll
    split
    · exact ⟨m, rfl, hdone hs hplace⟩
    · next q hq =>
      obtain ⟨k, hk, -⟩ := hunder.known (Array.mem_of_getElem? hq)
      have hlt : place < queue.size := (Array.getElem?_eq_some_iff.1 hq).1
      -- the queue holds different states, which have different keys
      have hstates : m.states.size ≤ 2 ^ (t.places.length + 1) :=
        hs.length_le hunder.tabled List.nodup_nil nofun
      have hplace' : place + 1 ≤ 2 ^ (t.places.length + 1) :=
        Nat.le_trans hlt (Nat.le_trans hunder.size_queue_le hstates)
      have hnext : base + place * 2 ^ t.places.length + 2 ^ t.places.length =
          base + (place + 1) * 2 ^ t.places.length := by
        rw [Nat.succ_mul, Nat.add_assoc]
      have hroom : base + (place + 1) * 2 ^ t.places.length ≤ o.maxTransition + 1 :=
        Nat.le_trans (Nat.add_le_add_left (Nat.mul_le_mul_right _ hplace') _) hbase
      obtain ⟨queue₁, m₁, hexpand, hs₁⟩ := hunder.exists_expand ho h hs (hnext ▸ hroom) hk
      obtain ⟨hunder₁, -⟩ := hunder.expand h.discerns hk hexpand
      rw [hexpand]
      exact ih _ hunder₁ (hnext ▸ hs₁) hplace'

end Expansion

/-! ## Loop-backs -/

theorem Sized.addLoopBacks (hs : Sized t m n) (hn : n + (t.leadLength + 2) ≤ o.maxTransition + 1)
    (f : Fixed) : ∃ loopBack m', m.addLoopBacks t f = .ok (loopBack, m') := by
  have hskip : ∀ {n} {m : Assembly o}, n < o.maxTransition + 1 → Sized t m n →
      ∀ source target, ∃ m',
        (Assembly.connectFreely t m source target >>= fun r ↦ .ok (r.2.addOut source r.1)) =
          .ok m' ∧ Sized t m' (n + 1) := by
    intro n m hn hs source target
    obtain ⟨id, m₁, hconnect, hs₁⟩ := hs.connectFreely (Nat.le_of_lt_succ hn) source target
    exact ⟨_, bind_eq_ok hconnect rfl, hs₁.modifyState fun _ ↦ rfl⟩
  obtain ⟨m₁, hleads, hs₁⟩ := exists_foldlM_eq_ok (fun n m ↦ Sized t m n) (o.maxTransition + 1)
    (l := List.range t.leadLength) (n := n) (b := m)
    (fun lead _ {n m} hn hs ↦ hskip hn hs (f.unanchored.states.getD (lead + 1) 0)
      (f.unanchored.states.getD lead 0)) (by rw [List.length_range]; omega) hs
  rw [List.length_range] at hs₁
  cases hadvanced : f.advanced with
  | none =>
    obtain ⟨loopBack, m₂, hconnect, -⟩ := hs₁.connectFreely (o := o) (by omega)
      (f.unanchored.states.getD 0 0) (f.unanchored.states.getD 0 0)
    refine ⟨loopBack, m₂, bind_eq_ok hleads ?_⟩
    rw [hadvanced]
    exact hconnect
  | some advanced =>
    obtain ⟨m₂, hlast, hs₂⟩ := hskip (by omega) hs₁ (f.unanchored.states.getD 0 0) advanced
    obtain ⟨loopBack, m₃, hconnect, -⟩ :=
      hs₂.connectFreely (o := o) (by omega) advanced advanced
    refine ⟨loopBack, m₃, bind_eq_ok hleads ?_⟩
    rw [hadvanced]
    exact bind_eq_ok hlast hconnect

end Assembly

/-! ## The automaton -/

/-- **Under bounds that leave room, a tree has an automaton.** -/
theorem Automaton.exists_ofTree {t : Tree} {o : Options} (ho : o.Houses t)
    (h : t.Regular t.encoding.Fits) (fl : Flags) : ∃ a, ofTree t o fl = .ok a := by
  have htransitions := ho.transitions
  obtain ⟨f, m, hstart, hs⟩ := Assembly.exists_start ho h
  obtain ⟨hunder, -⟩ := Assembly.start_spec h hstart
  obtain ⟨m₁, hexpand, hs₁⟩ := hunder.exists_expandAll ho h (o.maxState + 1) 0
    (2 * t.leadLength + 4) (by omega) (by rwa [Nat.zero_mul]) (Nat.zero_le _)
  obtain ⟨loopBack, m₂, hloops⟩ := hs₁.addLoopBacks (o := o) (by omega) f
  exact ⟨_, bind_eq_ok hstart (bind_eq_ok hexpand (bind_eq_ok hloops rfl))⟩

/-- Options that let large automata through. -/
def Automaton.roomyOptions (mustAdvance : Bool) : Options :=
  { mustAdvance, maxState := 32767, maxTransition := 536870920 }

theorem Automaton.exists_ofPattern {o : Options} {pattern : Bytes} (p : Tree → Bool)
    (h : (Tree.ofPattern o pattern).toOption.any (fun t ↦ decide (o.Houses t) && p t) = true)
    (fl : Flags) :
    ∃ t a, Tree.ofPattern o pattern = .ok t ∧ ofTree t o fl = .ok a ∧ p t = true := by
  obtain ⟨t, ht, hp⟩ := Tree.exists_ofPattern _ h
  rw [Bool.and_eq_true, decide_eq_true_iff] at hp
  obtain ⟨a, ha⟩ := exists_ofTree hp.1 (Tree.regular_of_ofPattern ht).2 fl
  exact ⟨t, a, ht, ha, hp.2⟩

end PatternAutomata
