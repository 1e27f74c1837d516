import PatternAutomata.Proofs.Automaton.Room

/-!
# Bounds only bound

Bounds decide whether there is an automaton, and never which. What has been built under some bounds
is built under others in the same steps: each of them is either taken alike, or refused because the
assembly would grow past a bound. An assembly never shrinks, so it can be read off the finished
automaton under which bounds it is built, and what is reported under all others.
-/

namespace PatternAutomata

namespace Options

variable {o : Options} {s s' n n' : Nat}

/-- Some numbers of states and transitions are within bounds. As numbers start at zero, there can be
one more than the largest number. -/
structure Allows (o : Options) (states transitions : Nat) : Prop where
  states : states ≤ o.maxState + 1
  transitions : transitions ≤ o.maxTransition + 1

/-- What may be reported when they are not. -/
inductive Refuses (o : Options) (states transitions : Nat) : Explosion → Prop
  | states : o.maxState + 1 < states →
      Refuses o states transitions ⟨.ofString "NFA explosion", o.maxState⟩
  | transitions : o.maxTransition + 1 < transitions →
      Refuses o states transitions ⟨.ofString "NFA transition explosion", o.maxTransition⟩

theorem Allows.mono (h : o.Allows s' n') (hs : s ≤ s') (hn : n ≤ n') : o.Allows s n :=
  ⟨Nat.le_trans hs h.states, Nat.le_trans hn h.transitions⟩

theorem Refuses.mono {e : Explosion} (h : o.Refuses s n e) (hs : s ≤ s') (hn : n ≤ n') :
    o.Refuses s' n' e := by
  cases h with
  | states h => exact .states (Nat.lt_of_lt_of_le h hs)
  | transitions h => exact .transitions (Nat.lt_of_lt_of_le h hn)

end Options

namespace Assembly

variable {t : Tree} {o o' : Options} {m m' m'' : Assembly o} {id q i place fuel fuel' : Nat}
  {tr : Transition} {b : Branch} {dummy : Nat} {queue queue' : Array Nat} {isNew : Bool}

/-! ## Steps under other bounds -/

/-- The assembly as it would be under other bounds. -/
def under (o' : Options) (m : Assembly o) : Assembly o' where
  states := m.states
  transitions := m.transitions
  table := m.table
  stateNumbers := { m.stateNumbers with bound := o'.stateBound }
  transitionNumbers := { m.transitionNumbers with bound := o'.transitionBound }
  stateNumbers_eq := by rw [m.stateNumbers_eq]
  transitionNumbers_eq := by rw [m.transitionNumbers_eq]

theorem states_under : (m.under o').states = m.states := rfl

theorem table_under : (m.under o').table = m.table := rfl

def Within (o' : Options) (m : Assembly o) : Prop := o'.Allows m.states.size m.transitions.size

/-- Under other bounds a step from `m` to `m'` is `x`: it gives `r` unless `m'` is beyond them. -/
structure Replays {α : Type} (o' : Options) (m m' : Assembly o) (r : α) (x : Except Explosion α) :
    Prop where
  states : m.states.size ≤ m'.states.size
  transitions : m.transitions.size ≤ m'.transitions.size
  eq_ok : Within o' m' → x = .ok r
  eq_error : Within o' m → ¬Within o' m' →
    ∃ e, x = .error e ∧ o'.Refuses m'.states.size m'.transitions.size e

section Replays

variable {α β γ : Type} {r : α} {r' : β} {x : Except Explosion α}

theorem Replays.ok (hstates : m'.states.size = m.states.size)
    (htransitions : m'.transitions.size = m.transitions.size) : Replays o' m m' r (.ok r) where
  states := Nat.le_of_eq hstates.symm
  transitions := Nat.le_of_eq htransitions.symm
  eq_ok _ := rfl
  eq_error hwithin hnot := by
    rw [Within, hstates, htransitions] at hnot
    exact absurd hwithin hnot

theorem Replays.of_size_eq (h : Replays o' m' m'' r x) (hstates : m'.states.size = m.states.size)
    (htransitions : m'.transitions.size = m.transitions.size) : Replays o' m m'' r x where
  states := hstates ▸ h.states
  transitions := htransitions ▸ h.transitions
  eq_ok := h.eq_ok
  eq_error hwithin := h.eq_error (by rwa [Within, hstates, htransitions])

theorem Replays.of_modifyState {f : State → State} (h : Replays o' (m.modifyState id f) m' r x) :
    Replays o' m m' r x :=
  h.of_size_eq size_modifyState rfl

theorem Replays.bind (h : Replays o' m m' r x) {f : α → Except Explosion β}
    (h' : Replays o' m' m'' r' (f r)) : Replays o' m m'' r' (x >>= f) where
  states := Nat.le_trans h.states h'.states
  transitions := Nat.le_trans h.transitions h'.transitions
  eq_ok hwithin := by
    rw [h.eq_ok (hwithin.mono h'.states h'.transitions)]
    exact h'.eq_ok hwithin
  eq_error hwithin hnot := by
    by_cases hfirst : Within o' m'
    · rw [h.eq_ok hfirst]
      exact h'.eq_error hfirst hnot
    · obtain ⟨e, rfl, hrefuses⟩ := h.eq_error hwithin hfirst
      exact ⟨e, rfl, hrefuses.mono h'.states h'.transitions⟩

theorem bind_eq_error {e : Explosion} {f : α → Except Explosion β} (h : x = .error e) :
    x >>= f = .error e := by
  rw [h]
  rfl

theorem Replays.foldlM (assembly : β → Assembly o) (g : β → γ) {f : β → α → Except Explosion β}
    {f' : γ → α → Except Explosion γ} (hf : ∀ {r a r'}, f r a = .ok r' →
      Replays o' (assembly r) (assembly r') (g r') (f' (g r) a)) {l : List α} {r : β}
    (hok : l.foldlM f r = .ok r') :
    Replays o' (assembly r) (assembly r') (g r') (l.foldlM f' (g r)) := by
  induction l generalizing r with
  | nil =>
    cases hok
    exact .ok rfl rfl
  | cons a l ih =>
    rw [List.foldlM_cons] at hok ⊢
    obtain ⟨r₁, hfirst, hok⟩ := exists_of_bind_eq_ok hok
    exact (hf hfirst).bind (ih hok)

end Replays

/-- **Asking for a state.** -/
theorem Replays.stateOf {markers : MarkerSet} {mustAdvance : Bool}
    (hok : m.stateOf t markers mustAdvance = .ok (id, isNew, m')) :
    Replays o' m m' (id, isNew, m'.under o') ((m.under o').stateOf t markers mustAdvance) := by
  unfold Assembly.stateOf
  rcases stateOf_cases hok with ⟨htable, rfl, rfl⟩ | ⟨htable, rfl, rfl, -, rfl⟩ <;>
    rw [table_under, htable]
  · exact .ok rfl rfl
  -- a new state draws a number, and nothing else can fail
  have hsize : ∀ s, (m.withState m.states.size s).states.size = m.states.size + 1 :=
    size_withState m
  refine ⟨?_, Nat.le_refl _, fun hwithin ↦ ?_, fun hwithin hnot ↦ ?_⟩
  · rw [hsize]
    exact Nat.le_succ _
  · have hle := hsize _ ▸ hwithin.states
    refine bind_eq_ok ((next_stateNumbers (m := m.under o')).trans ?_) rfl
    exact Bound.grant_eq_ok (show (m.states.size : Int) ≤ o'.maxState by omega)
  · have hlt : o'.maxState < m.states.size := by
      by_contra hle
      refine hnot ⟨?_, hwithin.transitions⟩
      rw [hsize]
      omega
    refine ⟨_, bind_eq_error ((next_stateNumbers (m := m.under o')).trans (Bound.grant_eq_error
      (show (o'.maxState : Int) < m.states.size by omega))), .states ?_⟩
    rw [hsize]
    exact Nat.succ_lt_succ hlt

/-- **Asking for a transition.** -/
theorem Replays.connect (hok : m.connect tr = .ok (i, m')) :
    Replays o' m m' (i, m'.under o') ((m.under o').connect tr) := by
  obtain ⟨rfl, rfl⟩ := connect_eq hok
  have hsize : (m.withTransition tr).transitions.size = m.transitions.size + 1 := Array.size_push _
  refine ⟨Nat.le_refl _, ?_, fun hwithin ↦ ?_, fun hwithin hnot ↦ ?_⟩
  · rw [hsize]
    exact Nat.le_succ _
  · have hle := hsize ▸ hwithin.transitions
    refine bind_eq_ok ((next_transitionNumbers (m := m.under o')).trans ?_) rfl
    exact Bound.grant_eq_ok (show (m.transitions.size : Int) ≤ o'.maxTransition by omega)
  · have hlt : o'.maxTransition < m.transitions.size := by
      by_contra hle
      refine hnot ⟨hwithin.states, ?_⟩
      rw [hsize]
      omega
    refine ⟨_, bind_eq_error ((next_transitionNumbers (m := m.under o')).trans
      (Bound.grant_eq_error (show (o'.maxTransition : Int) < m.transitions.size by omega))),
      .transitions ?_⟩
    rw [hsize]
    exact Nat.succ_lt_succ hlt

theorem Replays.connectFreely {source target : Nat}
    (hok : m.connectFreely t source target = .ok (i, m')) :
    Replays o' m m' (i, m'.under o') ((m.under o').connectFreely t source target) :=
  .connect hok

/-! ## Fixed states -/

section Fixed

variable (ho : o'.mustAdvance = o.mustAdvance)
include ho

theorem Replays.addEntries {anchored : Bool} {entries : Entries}
    (hok : m.addEntries t dummy anchored = .ok (entries, m')) :
    Replays o' m m' (entries, m'.under o') ((m.under o').addEntries t dummy anchored) := by
  refine Replays.foldlM Prod.snd (Prod.map id (under o')) (fun {r lead r'} hok ↦ ?_) hok
  obtain ⟨⟨state, isNew, m₁⟩, hstate, hok⟩ := exists_of_bind_eq_ok hok
  obtain ⟨⟨entry, m₂⟩, hconnect, hok⟩ := exists_of_bind_eq_ok hok
  cases hok
  rw [ho]
  exact (Replays.stateOf hstate).bind
    (.of_modifyState (.bind (.connectFreely hconnect) (.ok rfl rfl)))

theorem Replays.addAdvanced {advanced : Option Nat}
    (hok : m.addAdvanced t = .ok (advanced, m')) :
    Replays o' m m' (advanced, m'.under o') ((m.under o').addAdvanced t) := by
  unfold Assembly.addAdvanced at hok ⊢
  rw [ho]
  split at hok
  · next hmust =>
    obtain ⟨⟨id, isNew, m₁⟩, hstate, hok⟩ := exists_of_bind_eq_ok hok
    cases hok
    rw [if_pos hmust]
    exact (Replays.stateOf hstate).bind (.ok rfl rfl)
  · next hmust =>
    cases hok
    rw [if_neg hmust]
    exact .ok rfl rfl

theorem Replays.addOwnAnchored {own : Option Entries}
    (hok : m.addOwnAnchored t dummy = .ok (own, m')) :
    Replays o' m m' (own, m'.under o') ((m.under o').addOwnAnchored t dummy) := by
  unfold Assembly.addOwnAnchored at hok ⊢
  split at hok
  · next hempty =>
    cases hok
    rw [if_pos hempty]
    exact .ok rfl rfl
  · next hcarets =>
    obtain ⟨⟨entries, m₁⟩, hentries, hok⟩ := exists_of_bind_eq_ok hok
    cases hok
    rw [if_neg hcarets]
    exact (Replays.addEntries ho hentries).bind (.ok rfl rfl)

/-- **The start of expansion under other bounds.** -/
theorem Replays.start {f : Fixed} (hok : Assembly.start t o = .ok (f, m)) :
    Replays o' {} m (f, m.under o') (Assembly.start t o') := by
  obtain ⟨isNew₁, isNew₂, isNew₃, m₁, m₂, m₃, m₄, m₅, m₆, m₇, m₈, h₁, h₂, h₃, h₄, h₅, h₆, h₇, h₈,
    rfl⟩ := start_cases hok
  unfold Assembly.start
  rw [ho]
  refine (Replays.stateOf h₁).bind (.bind (.stateOf h₂) (.of_modifyState (.bind (.stateOf h₃)
    (.of_modifyState (.bind (.connectFreely h₄) (.bind (.connectFreely h₅) (.bind
      (.addAdvanced ho h₆) (.bind (.addEntries ho h₇) (.bind (.addOwnAnchored ho h₈) ?_)))))))))
  exact .ok size_modifyState rfl

end Fixed

/-! ## Expansion -/

theorem size_ite_assign (m : Assembly o) (id : Nat) (c : Bool) (f : Roles → Roles) :
    (if c then m.assign id f else m).states.size = m.states.size ∧
      (if c then m.assign id f else m).transitions.size = m.transitions.size := by
  cases c with
  | true => exact ⟨size_assign, rfl⟩
  | false => exact ⟨rfl, rfl⟩

theorem under_ite_assign (m : Assembly o) (id : Nat) (c : Bool) (f : Roles → Roles) :
    (if c then m.assign id f else m).under o' =
      if c then (m.under o').assign id f else m.under o' := by
  cases c <;> rfl

theorem Replays.addBranch {successors : Array Successor} {r r' : Array Nat × Assembly o}
    (hok : Assembly.addBranch t q successors r b = .ok r') :
    Replays o' r.2 r'.2 (r'.1, r'.2.under o')
      (Assembly.addBranch t q successors (r.1, r.2.under o') b) := by
  obtain ⟨queue, m⟩ := r
  obtain ⟨⟨target, isNew, m₁⟩, hstate, hok⟩ := exists_of_bind_eq_ok hok
  obtain ⟨⟨transition, m₂⟩, hconnect, hok⟩ := exists_of_bind_eq_ok hok
  cases hok
  obtain ⟨hstates, htransitions⟩ := size_ite_assign m₁ target (isNew && b.isFinal)
    (finalRole t (b.target t successors))
  refine (Replays.stateOf hstate).bind (Replays.of_size_eq ?_ hstates htransitions)
  dsimp only
  rw [← under_ite_assign]
  exact (Replays.connect hconnect).bind (.ok size_modifyState rfl)

theorem Replays.expand (hok : Assembly.expand t queue m q = .ok (queue', m')) :
    Replays o' m m' (queue', m'.under o') (Assembly.expand t queue (m.under o') q) :=
  Replays.foldlM Prod.snd (Prod.map id (under o')) .addBranch hok

/-- The queue is no longer than there are states, as it is joined by none but new ones. -/
structure Paced (o : Options) (queue : Array Nat) (m : Assembly o) : Prop where
  queue : queue.size ≤ m.states.size
  states : m.states.size ≤ o.maxState + 1

/-- What adding a branch does to the queue: only the number of a new state may join it. -/
theorem addBranch_cases {successors : Array Successor}
    (hok : Assembly.addBranch t q successors (queue, m) b = .ok (queue', m')) :
    m'.states.size = m.states.size ∧ queue' = queue ∨
      m'.states.size = m.states.size + 1 ∧ m.states.size ≤ o.maxState ∧
        (queue' = queue ∨ queue' = queue.push m.states.size) := by
  obtain ⟨⟨target, isNew, m₁⟩, hstate, hok⟩ := exists_of_bind_eq_ok hok
  obtain ⟨⟨transition, m₂⟩, hconnect, hok⟩ := exists_of_bind_eq_ok hok
  obtain ⟨rfl, rfl⟩ := connect_eq hconnect
  cases hok
  rw [addOut, size_modifyState, Assembly.withTransition, (size_ite_assign _ _ _ _).1]
  rcases stateOf_cases hstate with ⟨-, rfl, rfl⟩ | ⟨-, rfl, rfl, hle, rfl⟩
  · exact .inl ⟨rfl, rfl⟩
  · refine .inr ⟨Array.size_push _, hle, ?_⟩
    cases b.isFinal with
    | true => exact .inl rfl
    | false => exact .inr rfl

theorem Paced.addBranch {successors : Array Successor} {r r' : Array Nat × Assembly o}
    (h : Paced o r.1 r.2) (hok : Assembly.addBranch t q successors r b = .ok r') :
    Paced o r'.1 r'.2 := by
  have hqueue := h.queue
  have hstates := h.states
  rcases addBranch_cases hok with ⟨hsize, heq⟩ | ⟨hsize, hle, heq | heq⟩
  · exact ⟨by rwa [heq, hsize], by rwa [hsize]⟩
  · exact ⟨by rw [heq]; omega, by omega⟩
  · exact ⟨by rw [heq, Array.size_push]; omega, by omega⟩

theorem Paced.expand (h : Paced o queue m)
    (hok : Assembly.expand t queue m q = .ok (queue', m')) : Paced o queue' m' :=
  of_foldlM_eq_ok (fun r ↦ Paced o r.1 r.2) .addBranch h hok

theorem expandAll_of_none (hnone : queue[place]? = none) :
    Assembly.expandAll t fuel place queue m = .ok m := by
  cases fuel with
  | zero => rfl
  | succ fuel =>
    unfold Assembly.expandAll
    rw [hnone]
    rfl

theorem expandAll_of_some (hq : queue[place]? = some q) :
    Assembly.expandAll t (fuel + 1) place queue m =
      Assembly.expand t queue m q >>= fun r ↦
        Assembly.expandAll t fuel (place + 1) r.1 r.2 := by
  rw [Assembly.expandAll, hq]
  dsimp only
  cases Assembly.expand t queue m q with
  | error e => rfl
  | ok r => rfl

/-- **Expansion under other bounds.** It takes as many rounds as before, unless the queue grows past
the bound on states and with it the assembly. -/
theorem Replays.expandAll (h : Paced o queue m) (hfuel : o.maxState + 1 ≤ place + fuel)
    (hfuel' : o'.maxState + 1 ≤ place + fuel')
    (hok : Assembly.expandAll t fuel place queue m = .ok m') :
    Replays o' m m' (m'.under o') (Assembly.expandAll t fuel' place queue (m.under o')) := by
  induction fuel generalizing fuel' place queue m with
  | zero =>
    cases hok
    have hle : queue.size ≤ place := Nat.le_trans (Nat.le_trans h.queue h.states) hfuel
    rw [expandAll_of_none (Array.getElem?_eq_none_iff.2 hle)]
    exact .ok rfl rfl
  | succ fuel ih =>
    cases hq : queue[place]? with
    | none =>
      rw [expandAll_of_none hq] at hok ⊢
      cases hok
      exact .ok rfl rfl
    | some q =>
      rw [expandAll_of_some hq] at hok
      obtain ⟨⟨queue₁, m₁⟩, hexpand, hok⟩ := exists_of_bind_eq_ok hok
      have hfirst : Replays o' m m₁ (queue₁, m₁.under o')
          (Assembly.expand t queue (m.under o') q) := .expand hexpand
      have hrest : ∀ fuel', o'.maxState + 1 ≤ place + 1 + fuel' → Replays o' m₁ m' (m'.under o')
          (Assembly.expandAll t fuel' (place + 1) queue₁ (m₁.under o')) :=
        fun _ hfuel' ↦ ih (h.expand hexpand) (by omega) hfuel' hok
      cases fuel' with
      | succ fuel' =>
        rw [expandAll_of_some hq]
        exact hfirst.bind (hrest fuel' (by omega))
      | zero =>
        -- the queue has outgrown the bound already
        have hsize : o'.maxState + 1 < m.states.size :=
          Nat.lt_of_le_of_lt hfuel' (Nat.lt_of_lt_of_le (Array.getElem?_eq_some_iff.1 hq).1 h.queue)
        have hrest := hrest 0 (by omega)
        have hstates := Nat.le_trans hfirst.states hrest.states
        exact ⟨hstates, Nat.le_trans hfirst.transitions hrest.transitions,
          fun hwithin ↦ absurd (Nat.lt_of_lt_of_le hsize hstates) (Nat.not_lt.2 hwithin.states),
          fun hwithin ↦ absurd hsize (Nat.not_lt.2 hwithin.states)⟩

/-! ## Loop-backs and predecessors -/

theorem Replays.addLoopBacks {f : Fixed} (hok : m.addLoopBacks t f = .ok (i, m')) :
    Replays o' m m' (i, m'.under o') ((m.under o').addLoopBacks t f) := by
  have hskip : ∀ {m m' : Assembly o} {source target : Nat},
      (Assembly.connectFreely t m source target >>= fun r ↦ .ok (r.2.addOut source r.1)) =
        .ok m' →
      Replays o' m m' (m'.under o') (Assembly.connectFreely t (m.under o') source target >>=
        fun r ↦ .ok (r.2.addOut source r.1)) := by
    intro m m' source target hok
    obtain ⟨⟨id, m₁⟩, hconnect, hok⟩ := exists_of_bind_eq_ok hok
    cases hok
    exact (Replays.connectFreely hconnect).bind (.ok size_modifyState rfl)
  unfold Assembly.addLoopBacks at hok ⊢
  obtain ⟨m₁, hleads, hok⟩ := exists_of_bind_eq_ok hok
  refine (Replays.foldlM id (under o') hskip hleads).bind ?_
  dsimp only at hok ⊢
  split at hok
  · exact .connectFreely hok
  · obtain ⟨m₂, hlast, hok⟩ := exists_of_bind_eq_ok hok
    exact (hskip hlast).bind (.connectFreely hok)

theorem size_linkFrom {fl : Flags} (s : Array Nat × Assembly o) :
    (linkFrom t fl dummy s id).2.states.size = s.2.states.size := by
  obtain ⟨hardPrefixStates, m⟩ := s
  unfold linkFrom
  dsimp only
  split
  · rfl
  · split
    · rw [← Array.foldl_toList]
      generalize (m.states.getD id default).out.toList = l
      induction l using List.reverseRecOn with
      | nil => rfl
      | append_singleton l i ih =>
        rw [List.foldl_append, List.foldl_cons, List.foldl_nil, size_modifyState, ih]
    · exact size_assign

theorem size_linkAll {fl : Flags} : (m.linkAll t fl dummy).2.states.size = m.states.size := by
  unfold linkAll
  generalize List.range m.states.size = l
  induction l using List.reverseRecOn with
  | nil => rfl
  | append_singleton l id ih => rw [List.foldl_append, List.foldl_cons, List.foldl_nil,
      size_linkFrom, ih]

theorem linkFrom_under {fl : Flags} (s : Array Nat × Assembly o) (id : Nat) :
    linkFrom t fl dummy (s.1, s.2.under o') id =
      ((linkFrom t fl dummy s id).1, (linkFrom t fl dummy s id).2.under o') := by
  obtain ⟨hardPrefixStates, m⟩ := s
  unfold linkFrom
  dsimp only
  rw [states_under]
  split
  · rfl
  · split
    · exact Prod.ext rfl (Array.foldl_hom (under o') fun _ _ ↦ rfl)
    · rfl

/-- Bounds play no part in telling states by which transitions they are entered. -/
theorem linkAll_under {fl : Flags} :
    linkAll t fl dummy (m.under o') =
      ((linkAll t fl dummy m).1, (linkAll t fl dummy m).2.under o') := by
  have hfold (s : Array Nat × Assembly o) (l : List Nat) :
      l.foldl (linkFrom t fl dummy) (s.1, s.2.under o') =
        ((l.foldl (linkFrom t fl dummy) s).1, (l.foldl (linkFrom t fl dummy) s).2.under o') :=
    List.foldl_hom (fun s : Array Nat × Assembly o ↦ (s.1, s.2.under o')) linkFrom_under
  exact hfold (#[], m) _

end Assembly

/-! ## The automaton -/

namespace Automaton

open Assembly

variable {t : Tree} {o : Options} {fl : Flags} {a : Automaton}

/-- **Building an automaton under other bounds.** -/
theorem replays_ofTree {ok : CodePointSet → Prop} (h : t.Regular ok) (hok : ofTree t o fl = .ok a)
    (o' : Options) (ho : o'.mustAdvance = o.mustAdvance) :
    ∃ m : Assembly o, m.states = a.states ∧ m.transitions = a.transitions ∧
      Replays o' {} m a (ofTree t o' fl) := by
  obtain ⟨⟨f, m₁⟩, hstart, hok⟩ := exists_of_bind_eq_ok hok
  obtain ⟨m₂, hexpand, hok⟩ := exists_of_bind_eq_ok hok
  obtain ⟨⟨loopBack, m₃⟩, hloops, hok⟩ := exists_of_bind_eq_ok hok
  obtain ⟨hunder, -⟩ := start_spec h hstart
  have hpaced : Paced o f.queue m₁ := ⟨hunder.size_queue_le, hunder.size⟩
  refine ⟨(m₃.linkAll t fl f.dummy).2, ?_, ?_, ?_⟩
  · cases hok
    rfl
  · cases hok
    rfl
  · refine (Replays.start ho hstart).bind (.bind (.expandAll hpaced ?_ ?_ hexpand)
      (.bind (.addLoopBacks hloops) ?_))
    · omega
    · omega
    · cases hok
      dsimp only
      rw [linkAll_under]
      exact .ok size_linkAll (congrArg Array.size same_linkAll.transitions)

/-- **Bounds decide whether there is an automaton, and never which.** An automaton is within the
bounds that it has been built under. Under any others, the same one is built just if it is within
them, and if it is not, an explosion tells one of the bounds that it exceeds. -/
theorem ofTree_under_bounds (h : t.Finished) (hok : ofTree t o fl = .ok a) :
    a.states.size ≤ o.maxState + 1 ∧ a.transitions.size ≤ o.maxTransition + 1 ∧
    ∀ maxState maxTransition,
      (ofTree t { o with maxState, maxTransition } fl = .ok a ↔
        a.states.size ≤ maxState + 1 ∧ a.transitions.size ≤ maxTransition + 1) ∧
      (¬(a.states.size ≤ maxState + 1 ∧ a.transitions.size ≤ maxTransition + 1) →
        ∃ e, ofTree t { o with maxState, maxTransition } fl = .error e ∧
          (e = ⟨.ofString "NFA explosion", maxState⟩ ∧ maxState + 1 < a.states.size ∨
            e = ⟨.ofString "NFA transition explosion", maxTransition⟩ ∧
              maxTransition + 1 < a.transitions.size)) := by
  have hrefused : ∀ o' : Options, o'.mustAdvance = o.mustAdvance →
      ¬o'.Allows a.states.size a.transitions.size →
        ∃ e, ofTree t o' fl = .error e ∧ o'.Refuses a.states.size a.transitions.size e := by
    intro o' ho hnot
    -- an assembly starts empty, within any bounds
    obtain ⟨m, hstates, htransitions, hreplays⟩ := replays_ofTree h.regular hok o' ho
    rw [← hstates, ← htransitions] at hnot ⊢
    exact hreplays.eq_error ⟨Nat.zero_le _, Nat.zero_le _⟩ hnot
  have hallows : o.Allows a.states.size a.transitions.size := by
    by_contra hnot
    obtain ⟨e, herror, -⟩ := hrefused o rfl hnot
    cases hok.symm.trans herror
  refine ⟨hallows.states, hallows.transitions, fun maxState maxTransition ↦ ⟨⟨fun hok' ↦ ?_, ?_⟩,
    fun hnot ↦ ?_⟩⟩
  · by_contra hnot
    obtain ⟨e, herror, -⟩ := hrefused { o with maxState, maxTransition } rfl
      fun hallows' ↦ hnot ⟨hallows'.states, hallows'.transitions⟩
    cases hok'.symm.trans herror
  · rintro ⟨hs, hn⟩
    obtain ⟨m, hstates, htransitions, hreplays⟩ :=
      replays_ofTree h.regular hok { o with maxState, maxTransition } rfl
    exact hreplays.eq_ok (by rw [Within, hstates, htransitions]; exact ⟨hs, hn⟩)
  · obtain ⟨e, herror, hrefuses⟩ := hrefused { o with maxState, maxTransition } rfl
      fun hallows' ↦ hnot ⟨hallows'.states, hallows'.transitions⟩
    refine ⟨e, herror, ?_⟩
    cases hrefuses with
    | states hlt => exact .inl ⟨rfl, hlt⟩
    | transitions hlt => exact .inr ⟨rfl, hlt⟩

/-- What is built under wide bounds is built under the tightest as well. -/
theorem ofTree_under_tightest_bounds :
    ∃ t a, Tree.ofPattern (roomyOptions false) (.ofString "a|^b$") = .ok t ∧
      ofTree t (roomyOptions false) {} = .ok a ∧
        ofTree t { roomyOptions false with
          maxState := a.states.size - 1, maxTransition := a.transitions.size - 1 } {} = .ok a := by
  obtain ⟨t, a, ht, ha, -⟩ := exists_ofPattern (fun _ ↦ true)
    (show (Tree.ofPattern (roomyOptions false) (.ofString "a|^b$")).toOption.any _ = true by
      decide +kernel) {}
  refine ⟨t, a, ht, ha, ?_⟩
  exact (((ofTree_under_bounds (.ofPattern ht) ha).2.2 _ _).1).2 ⟨by omega, by omega⟩

end Automaton

end PatternAutomata
