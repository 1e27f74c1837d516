import PatternAutomata.Proofs.Automaton.Realize

/-!
# Where states come from

A state is made for a key, which is that of a fixed state, or one that a branch leads to from the
key of a state that is there already. So what holds of the fixed keys and is handed on by branches
holds of the keys of all states.

What a state gets when it is made, it keeps: its characters, which are reckoned from its markers.
And until the states are told by which transitions they are entered, none but the dummy knows of
any, and none is noted as being within the lead-in.
-/

namespace PatternAutomata

/-- How keys come up: as those of the fixed states, and by branches from others. -/
inductive Tree.Arises (t : Tree) (o : Options) : MarkerSet × Bool → Prop
  | dummy : Arises t o (t.markers [t.wrappedRoot], o.mustAdvance)
  | anchoredFinal : Arises t o (t.markers t.dollars.toList, false)
  | unanchoredFinal : Arises t o (t.markers [t.matchFound], false)
  | advanced : o.mustAdvance = true → Arises t o (t.markers [t.start false 0], false)
  | start {anchored : Bool} {lead : Nat} : lead ≤ t.leadLength →
      (anchored = true → t.carets.isEmpty = false) → Arises t o (t.startKey o anchored lead)
  | branch {k : MarkerSet × Bool} {b : Branch} : Arises t o k → b ∈ t.branches k →
      Arises t o (t.targetOf k b, false)

namespace Assembly

variable {t : Tree} {o : Options} {fl : Flags} {m m' : Assembly o} {id q i : Nat}
  {k : MarkerSet × Bool} {starts : List Nat} {known : Nat → Array Nat}

/-- A state as it is before predecessors are told, where `starts` are the states that a search
starts from and `known` says which transitions each state knows to enter it. -/
structure Fresh (t : Tree) (o : Options) (starts : List Nat) (known : Nat → Array Nat) (id : Nat)
    (s : State) : Prop where
  arises : t.Arises o s.key
  chars : s.chars = t.commonChars s.markers
  into : s.into = known id
  hardPrefix : s.roles.hardPrefix = false
  isInitial : s.isInitial = true ↔ id ∈ starts

/-- All states are as they were made. -/
structure Founded (t : Tree) (o : Options) (starts : List Nat) (known : Nat → Array Nat)
    (m : Assembly o) : Prop where
  fresh : ∀ {id : Nat} {s : State}, m.states[id]? = some s → Fresh t o starts known id s
  lt : ∀ {id}, id ∈ starts → id < m.states.size
  known_eq : ∀ {id}, m.states.size ≤ id → known id = #[]

theorem Founded.empty : Founded t o [] (fun _ ↦ #[]) {} := ⟨nofun, nofun, fun _ ↦ rfl⟩

theorem Founded.arises (h : Founded t o starts known m) (hk : m.key? id = some k) :
    t.Arises o k := by
  obtain ⟨s, hs, rfl⟩ := Option.map_eq_some_iff.1 hk
  exact (h.fresh hs).arises

theorem Founded.of_states_eq (h : Founded t o starts known m) (hstates : m'.states = m.states) :
    Founded t o starts known m' where
  fresh hs := h.fresh (hstates ▸ hs)
  lt hid := hstates ▸ h.lt hid
  known_eq hid := h.known_eq (hstates ▸ hid)

theorem Founded.modifyState (h : Founded t o starts known m) {f : State → State}
    (hf : ∀ {s}, Fresh t o starts known id s → Fresh t o starts known id (f s)) :
    Founded t o starts known (m.modifyState id f) where
  fresh {j s} hs := by
    rw [states_modifyState] at hs
    split at hs
    · next hid =>
      subst hid
      obtain ⟨s₀, hs₀, rfl⟩ := Option.map_eq_some_iff.1 hs
      exact hf (h.fresh hs₀)
    · exact h.fresh hs
  lt hid := size_modifyState.symm ▸ h.lt hid
  known_eq hid := h.known_eq (size_modifyState ▸ hid)

theorem Founded.assign (h : Founded t o starts known m) (id : Nat) (f : Roles → Roles)
    (hhard : ∀ r, (f r).hardPrefix = r.hardPrefix)
    (hinitial : ∀ s : State, ({ s with roles := f s.roles } : State).isInitial = s.isInitial) :
    Founded t o starts known (m.assign id f) := by
  refine h.modifyState fun {s} hs ↦ ⟨hs.arises, hs.chars, hs.into, ?_, ?_⟩
  · exact (hhard _).trans hs.hardPrefix
  · rw [hinitial]
    exact hs.isInitial

theorem Founded.addOut (h : Founded t o starts known m) :
    Founded t o starts known (m.addOut id i) :=
  h.modifyState fun hs ↦ ⟨hs.arises, hs.chars, hs.into, hs.hardPrefix, hs.isInitial⟩

theorem Founded.connect (h : Founded t o starts known m) {tr : Transition}
    (hok : m.connect tr = .ok (i, m')) : Founded t o starts known m' := by
  obtain ⟨rfl, rfl⟩ := connect_eq hok
  exact h.of_states_eq rfl

/-- **The state of a key that comes up.** -/
theorem Founded.stateOf (h : Founded t o starts known m) {markers : MarkerSet}
    {mustAdvance isNew : Bool} (hk : t.Arises o (markers, mustAdvance))
    (hok : m.stateOf t markers mustAdvance = .ok (id, isNew, m')) :
    Founded t o starts known m' := by
  rcases stateOf_cases hok with ⟨-, -, rfl⟩ | ⟨-, -, rfl, -, rfl⟩
  · exact h
  have hsize : (m.withState m.states.size
      { markers, mustAdvance, chars := t.commonChars markers }).states.size = m.states.size + 1 :=
    size_withState ..
  refine ⟨fun {j s} hs ↦ ?_, fun hid ↦ ?_, fun hid ↦ h.known_eq (by omega)⟩
  · rw [getElem?_withState] at hs
    split at hs
    · next hj =>
      cases hs
      subst hj
      exact ⟨hk, rfl, (h.known_eq (Nat.le_refl _)).symm, rfl,
        iff_of_false Bool.false_ne_true fun hmem ↦ Nat.lt_irrefl _ (h.lt hmem)⟩
    · exact h.fresh hs
  · have := h.lt hid
    omega

/-! ## Fixed states -/

theorem Founded.assign_initialRole (h : Founded t o starts known m) (hid : id < m.states.size)
    (anchored : Bool) (lead : Nat) :
    Founded t o (starts ++ [id]) known (m.assign id (initialRole anchored lead)) where
  fresh {j s} hs := by
    rw [Assembly.assign, states_modifyState] at hs
    split at hs
    · next hj =>
      subst hj
      obtain ⟨s₀, hs₀, rfl⟩ := Option.map_eq_some_iff.1 hs
      have hfresh := h.fresh hs₀
      refine ⟨hfresh.arises, hfresh.chars, hfresh.into, ?_, iff_of_true ?_ (by simp)⟩
      · cases anchored <;> exact hfresh.hardPrefix
      · cases anchored <;> simp [State.isInitial, initialRole]
    · next hj =>
      have hs := h.fresh hs
      refine ⟨hs.arises, hs.chars, hs.into, hs.hardPrefix, hs.isInitial.trans ?_⟩
      rw [List.mem_append, List.mem_singleton]
      exact ⟨.inl, fun hmem ↦ hmem.resolve_right (Ne.symm hj)⟩
  lt hmem := by
    rw [size_assign]
    rcases List.mem_append.1 hmem with hmem | hmem
    · exact h.lt hmem
    · exact List.mem_singleton.1 hmem ▸ hid
  known_eq hmem := h.known_eq (size_assign (m := m) ▸ hmem)

theorem Founded.addEntries (h : Founded t o starts known m) (htabled : Tabled m) {dummy : Nat}
    {anchored : Bool} {entries : Entries} (hcarets : anchored = true → t.carets.isEmpty = false)
    (hok : m.addEntries t dummy anchored = .ok (entries, m')) :
    Tabled m' ∧ Founded t o (starts ++ entries.states.toList) known m' := by
  unfold Assembly.addEntries at hok
  refine of_foldlM_range_eq_ok (fun _ (r : Entries × Assembly o) ↦
    Tabled r.2 ∧ Founded t o (starts ++ r.1.states.toList) known r.2) ?_ ?_ hok
  · rw [List.append_nil]
    exact ⟨htabled, h⟩
  · rintro n ⟨entries₁, m₁⟩ r hlt ⟨htabled, hfounded⟩ hok
    obtain ⟨⟨state, isNew, m₂⟩, hstate, hok⟩ := exists_of_bind_eq_ok hok
    obtain ⟨⟨entry, m₃⟩, hconnect, hok⟩ := exists_of_bind_eq_ok hok
    cases hok
    obtain ⟨htabled₂, hmakes, -⟩ := stateOf_spec htabled hstate
    have hfounded₂ := hfounded.stateOf (.start (Nat.le_of_lt_succ hlt) hcarets) hstate
    have hfounded₃ := hfounded₂.assign_initialRole (lt_of_key hmakes.key) anchored n
    have htabled₃ : Tabled (m₂.assign state (initialRole anchored n)) :=
      htabled₂.modifyState (fun _ ↦ rfl) fun _ ↦ rfl
    refine ⟨(htabled₃.connect hconnect).1, ?_⟩
    rw [Array.toList_push, ← List.append_assoc]
    exact hfounded₃.connect hconnect

/-- The states that a search starts from. -/
def Fixed.initial (f : Fixed) : List Nat :=
  f.unanchored.states.toList ++ (ownStates f.ownAnchored).toList

/-- What is known when expansion starts of the transitions that enter states: the dummy is entered
by those from the final states. -/
def Fixed.into (f : Fixed) (id : Nat) : Array Nat := if id = f.dummy then #[0, 1] else #[]

theorem Founded.attach {f : Fixed} (h : Founded t o starts (fun _ ↦ #[]) m)
    (hdummy : f.dummy < m.states.size) : Founded t o starts f.into (f.attach #[0, 1] m) where
  fresh {j s} hs := by
    rw [Fixed.attach, states_modifyState] at hs
    split at hs
    · next hj =>
      obtain ⟨s₀, hs₀, rfl⟩ := Option.map_eq_some_iff.1 hs
      have hs := h.fresh hs₀
      exact ⟨hs.arises, hs.chars, (if_pos hj.symm).symm, hs.hardPrefix, hs.isInitial⟩
    · next hj =>
      have hs := h.fresh hs
      exact ⟨hs.arises, hs.chars, hs.into.trans (if_neg (Ne.symm hj)).symm, hs.hardPrefix,
        hs.isInitial⟩
  lt hid := size_modifyState.symm ▸ h.lt hid
  known_eq {j} hj := by
    rw [Fixed.attach, size_modifyState] at hj
    exact if_neg (by omega)

theorem Founded.addAdvanced (h : Founded t o starts known m) (htabled : Tabled m)
    {advanced : Option Nat} (hok : m.addAdvanced t = .ok (advanced, m')) :
    Tabled m' ∧ Founded t o starts known m' ∧ (o.mustAdvance = true → advanced.isSome = true) := by
  rcases addAdvanced_cases hok with ⟨hmust, id, isNew, rfl, hstate⟩ | ⟨hmust, rfl, rfl⟩
  · exact ⟨(stateOf_spec htabled hstate).1, h.stateOf (.advanced hmust) hstate, fun _ ↦ rfl⟩
  · exact ⟨htabled, h, fun htrue ↦ absurd htrue hmust⟩

theorem Founded.addOwnAnchored (h : Founded t o starts known m) (htabled : Tabled m)
    {dummy : Nat} {own : Option Entries} (hok : m.addOwnAnchored t dummy = .ok (own, m')) :
    Founded t o (starts ++ (ownStates own).toList) known m' := by
  rcases addOwnAnchored_cases hok with ⟨-, rfl, rfl⟩ | ⟨hcarets, entries, rfl, hentries⟩
  · rw [ownStates, List.append_nil]
    exact h
  · exact (h.addEntries htabled (fun _ ↦ hcarets) hentries).2

/-- **The fixed states are as they were made**, and if a match must advance, there is a state from
where any match is good again. -/
theorem founded_start {f : Fixed} {ok : CodePointSet → Prop} (ht : t.Regular ok)
    (hok : Assembly.start t o = .ok (f, m)) :
    Founded t o f.initial f.into m ∧ (o.mustAdvance = true → f.advanced.isSome = true) := by
  obtain ⟨-, hstands, -, hanchored, hunanchored⟩ := start_spec ht hok
  obtain ⟨isNew₁, isNew₂, isNew₃, m₁, m₂, m₃, m₄, m₅, m₆, m₇, m₈, h₁, h₂, h₃, h₄, h₅, h₆, h₇, h₈,
    rfl⟩ := start_cases hok
  rw [hanchored, hunanchored]
  have hassign : ∀ {m : Assembly o} {id : Nat} {f : Roles → Roles}, Tabled m →
      Tabled (m.assign id f) := fun htabled ↦ htabled.modifyState (fun _ ↦ rfl) fun _ ↦ rfl
  obtain ⟨ht₁, -⟩ := stateOf_spec (Prepared.empty (t := t) (o := o)).tabled h₁
  obtain ⟨ht₂, -⟩ := stateOf_spec ht₁ h₂
  obtain ⟨ht₃, -⟩ := stateOf_spec (hassign ht₂) h₃
  obtain ⟨ht₄, -⟩ := (hassign ht₃).connect h₄
  obtain ⟨ht₅, -⟩ := ht₄.connect h₅
  have hf₂ := (Founded.empty.stateOf .dummy h₁).stateOf .anchoredFinal h₂
  have hf₃ := (hf₂.assign f.anchoredFinal ({ · with anchoredFinal := true })
    (fun _ ↦ rfl) fun _ ↦ rfl).stateOf .unanchoredFinal h₃
  have hf₅ := ((hf₃.assign f.unanchoredFinal ({ · with unanchoredFinal := true })
    (fun _ ↦ rfl) fun _ ↦ rfl).connect h₄).connect h₅
  obtain ⟨ht₆, hf₆, hadvanced⟩ := hf₅.addAdvanced ht₅ h₆
  obtain ⟨ht₇, hf₇⟩ := hf₆.addEntries ht₆ (absurd · Bool.false_ne_true) h₇
  have hf₈ := hf₇.addOwnAnchored ht₇ h₈
  have hdummy := lt_of_key hstands.dummy
  rw [Fixed.attach, size_modifyState] at hdummy
  exact ⟨hf₈.attach hdummy, hadvanced⟩

/-! ## Expansion -/

/-- **Where a branch leads**, a state is found or made for a key that comes up. -/
theorem Founded.addBranch (h : Founded t o starts known m) {b : Branch} {queue queue' : Array Nat}
    (hk : t.Arises o k) (hb : b ∈ t.branches k)
    (hok : Assembly.addBranch t q (t.step k.1 k.2) (queue, m) b = .ok (queue', m')) :
    Founded t o starts known m' := by
  obtain ⟨⟨target, isNew, m₁⟩, hstate, hok⟩ := exists_of_bind_eq_ok hok
  obtain ⟨⟨transition, m₂⟩, hconnect, hok⟩ := exists_of_bind_eq_ok hok
  cases hok
  have hfounded : Founded t o starts known m₁ := h.stateOf (.branch hk hb) hstate
  have hrole : Founded t o starts known
      (if isNew && b.isFinal then m₁.assign target (finalRole t (t.targetOf k b)) else m₁) := by
    split
    · refine hfounded.assign _ _ (fun r ↦ ?_) fun s ↦ ?_
      · unfold finalRole
        split <;> rfl
      · unfold finalRole State.isInitial
        dsimp only
        split <;> rfl
    · exact hfounded
  exact (hrole.connect hconnect).addOut

/-- **Expansion makes states for keys that come up, and leaves the others as they are.** -/
theorem Founded.expandAll (h : Founded t o starts known m) (ht : t.Discerns)
    {fuel place dummy : Nat} {queue : Array Nat} (hunder : Underway t o dummy queue m)
    (hok : Assembly.expandAll t fuel place queue m = .ok m') :
    Founded t o starts known m' :=
  hunder.expandAll_induction ht
    (fun _ hm hq hb hbranch ↦ Founded.addBranch hm (hm.arises hq) hb hbranch) h hok

/-! ## Loop-backs -/

theorem Founded.addLoopBacks (h : Founded t o starts known m) {f : Fixed} {loopBack : Nat}
    (hok : m.addLoopBacks t f = .ok (loopBack, m')) : Founded t o starts known m' :=
  addLoopBacks_induction (fun hm hconnect ↦ hm.connect hconnect) Founded.addOut h hok

/-- **Before predecessors are told, all states are as they were made.** -/
theorem Stages.founded {f : Fixed} {m₀ m m' : Assembly o} {a : Automaton}
    (h : Stages t o fl f m₀ m m' a) (ht : t.Regular t.encoding.Fits) :
    Founded t o f.initial f.into m' :=
  ((founded_start ht h.start).1.expandAll ht.discerns (start_spec ht h.start).1
    h.expandAll).addLoopBacks h.addLoopBacks

end Assembly

end PatternAutomata
