import PatternAutomata.Proofs.Automaton.Room

/-!
# Automata are closures of steps

The states and transitions of a finished automaton, in full: which states there are, what leaves
each of them and in which order, what every transition does to the slots, and where it is listed.

Whatever leaves a state that a search can be in is there for a branch of its step, one transition
for each and in their order, and nothing but loop-backs comes behind these. Nothing leaves a state
where a match is found.
-/

namespace PatternAutomata

/-! ## What a transition carries -/

namespace Assembly

variable {successors : List Successor} {slot : Nat}

theorem mem_boundariesOf {slots : Boundaries → IndexSet} (hempty : slots {} = ∅)
    (hunion : ∀ b c, slots (b.union c) = slots b ∪ slots c) :
    slot ∈ slots (boundariesOf successors) ↔ ∃ d ∈ successors, slot ∈ slots d.boundaries := by
  have hfold : ∀ b : Boundaries,
      slot ∈ slots (successors.foldl (fun b d ↦ b.union d.boundaries) b) ↔
        slot ∈ slots b ∨ ∃ d ∈ successors, slot ∈ slots d.boundaries := by
    induction successors with
    | nil => simp
    | cons d successors ih =>
      intro b
      rw [List.foldl_cons, ih, hunion, IndexSet.mem_union, or_assoc]
      simp
  rw [boundariesOf, hfold, hempty]
  exact or_iff_right (IndexSet.not_mem_empty slot)

end Assembly

namespace Automaton

open Assembly

variable {t : Tree} {o : Options} {fl : Flags} {a : Automaton} {pattern : Bytes} {q : Nat}

theorem state_eq {s : State} (hs : a.states[q]? = some s) : a.state q = s := by
  rw [state, Array.getD_eq_getD_getElem?, hs, Option.getD_some]

theorem exists_state_of_mem_out {i : Nat} (hi : i ∈ (a.state q).out) :
    ∃ s, a.states[q]? = some s := by
  cases hs : a.states[q]? with
  | some s => exact ⟨s, rfl⟩
  | none =>
    rw [state, Array.getD_eq_getD_getElem?, hs] at hi
    exact absurd hi (Array.not_mem_empty i)

/-- A transition carries what the successors that a branch lists bring along, and nothing else. -/
structure Carries (t : Tree) (a : Automaton) (q : Nat) (k : MarkerSet × Bool) (b : Branch)
    (tr : Transition) : Prop where
  source : tr.source = q
  on : tr.on = b.on
  target : (a.states[tr.target]?).map State.key = some (t.targetOf k b, false)
  updates : ∀ {slot}, slot ∈ tr.boundaries.updates ↔
    ∃ d ∈ t.taken k b, slot ∈ d.boundaries.updates
  clears : ∀ {slot}, slot ∈ tr.boundaries.clears ↔
    ∃ d ∈ t.taken k b, slot ∈ d.boundaries.clears
  lastGroup : tr.lastGroup = (t.taken k b).findSome? (·.lastGroup)

/-- An automaton is the closure of the steps of a tree. Its states and transitions are known by
their places. -/
structure IsClosure (t : Tree) (a : Automaton) : Prop where
  /-- Different states differ in their markers or in having to advance. -/
  key_inj : ∀ {q q' : Nat} {s s' : State}, a.states[q]? = some s → a.states[q']? = some s' →
    s.key = s'.key → q = q'
  /-- What leaves a state that a search can be in: transitions for the branches of its step, and
  loop-backs behind them if a search from anywhere starts there. -/
  expanded : ∀ {q : Nat} {s : State}, a.states[q]? = some s → q ≠ a.dummy → s.isFinal = false →
    ∃ made back, s.out.toList.map a.transition = made ++ back ∧
      List.Forall₂ (a.Carries t q s.key) (t.branches s.key) made ∧
      ∀ tr ∈ back, q ∈ a.unanchored.states ∧ tr.source = q ∧
        LoopBack t a.unanchored.states a.advanced tr
  /-- Nothing leaves a state where a match is found. -/
  final : ∀ {q : Nat} {s : State}, a.states[q]? = some s → s.isFinal = true → s.out = #[]
  /-- A match is found where a place behind the pattern is among the markers, and at the state of
  all dollars, of which there may be none. -/
  isFinal_iff : ∀ {q : Nat} {s : State}, a.states[q]? = some s → (s.isFinal = true ↔
    q = a.anchoredFinal ∨
      ∃ x ∈ s.markers.members, x = t.matchFound ∨ (t.node x).kind = .dollar)
  /-- The numbers listed are those of transitions. -/
  lt_of_mem_out : ∀ {q i}, i ∈ (a.state q).out → i < a.transitions.size
  /-- A transition is listed once, where it leaves its source. The loop-back of the search as a
  whole and the entries back to the dummy are not listed. -/
  count_out : ∀ {i : Nat} {tr : Transition}, a.transitions[i]? = some tr → ∀ q,
    (a.state q).out.count i =
      if q = tr.source ∧ i ∉ [a.loopBack, a.anchoredReverseEntry, a.unanchoredReverseEntry] then 1
      else 0
  anchoredReverseEntry : a.anchoredReverseEntry = 0
  unanchoredReverseEntry : a.unanchoredReverseEntry = 1

end Automaton

namespace Assembly

variable {t : Tree} {o : Options} {m m' : Assembly o} {f : Fixed} {queue : Array Nat}
  {a : Automaton} {q : Nat} {s : State} {tr : Transition}

theorem Fixed.Stands.source_of_loopBack (h : f.Stands t o m)
    (hloop : LoopBack t f.unanchored.states f.advanced tr) :
    tr.source ∈ f.unanchored.states := by
  cases hloop with
  | shorten hlead => exact h.mem_unanchored hlead
  | advance _ => exact h.mem_unanchored (Nat.zero_le _)

section Finishes

variable (h : Finishes t o f queue m m' a) (hs : a.states[q]? = some s)
include h hs

theorem Finishes.key_of_state : m.key? q = some s.key := by
  rw [← h.key_eq, hs, Option.map_some]

theorem Finishes.isFinal_of_state : m.isFinal q = s.isFinal := by
  rw [← h.isFinal_eq, Automaton.state, Array.getD_eq_getD_getElem?, hs, Option.getD_some]

theorem Finishes.map_out_of_state : s.out.toList.map a.transition = m'.edges q := by
  rw [← h.map_out, Automaton.state, Array.getD_eq_getD_getElem?, hs, Option.getD_some]

theorem Finishes.isFinal_iff_ends : s.isFinal = true ↔ t.Ends s.key.1 := by
  rw [← h.isFinal_of_state hs]
  exact h.underway.labelled (h.key_of_state hs)

theorem Finishes.isFinal_iff_concludes {ok : CodePointSet → Prop} (ht : t.Regular ok) :
    s.isFinal = true ↔ q = a.anchoredFinal ∨ t.Concludes s.markers := by
  have hk := h.key_of_state hs
  have hanchored := h.stands.anchoredFinal
  rw [h.isFinal_iff_ends hs, h.anchoredFinal]
  have hends : q = f.anchoredFinal → t.Ends s.key.1 := by
    rintro rfl
    rw [Option.some.inj (hk.symm.trans hanchored)]
    exact ht.ends_dollars
  rcases h.underway.decides hk with hdollars | hdecides
  · have hq : q = f.anchoredFinal :=
      h.underway.tabled.key_inj hk (hanchored.trans (congrArg some hdollars.symm))
    exact iff_of_true (hends hq) (.inl hq)
  · exact ⟨fun h ↦ .inr (hdecides.1 h), fun h ↦ h.elim hends hdecides.2⟩

/-- Nothing leaves a state where a match is found: no branch does, and searches do not start
there. -/
theorem Finishes.out_of_isFinal {ok : CodePointSet → Prop} (ht : t.Regular ok)
    (hfinal : s.isFinal = true) : s.out = #[] := by
  have hk := h.key_of_state hs
  have hends := (h.isFinal_iff_ends hs).1 hfinal
  have hq : q ≠ a.dummy := by
    rintro rfl
    rw [h.dummy, h.stands.dummy] at hk
    rw [← Option.some.inj hk] at hends
    exact ht.not_ends_wrappedRoot hends
  obtain ⟨back, hedges, hback⟩ := h.loopsBack.edges q
  -- loop-backs leave initial states, and these are in front of the pattern
  have hnil : back = [] := by
    refine List.eq_nil_iff_forall_not_mem.2 fun tr htr ↦ ?_
    obtain ⟨rfl, hloop⟩ := hback tr htr
    obtain ⟨lead, hlead, hkey⟩ :=
      h.stands.unanchored.exists_lead (h.stands.source_of_loopBack hloop)
    rw [Option.some.inj (hk.symm.trans hkey)] at hends
    exact ht.not_ends_start (Nat.le_of_lt_succ hlead) hends
  have hout := h.map_out_of_state hs
  rw [hedges, h.edges_eq_nil hq hk hends, hnil, List.append_nil, List.map_eq_nil_iff] at hout
  exact Array.toList_eq_nil_iff.1 hout

end Finishes

theorem Renders.carries (h : Finishes t o f queue m m' a) {k : MarkerSet × Bool} {b : Branch}
    (hrenders : Renders t m q k b tr) : a.Carries t q k b tr where
  source := hrenders.source
  on := hrenders.on
  target := (h.key_eq _).trans hrenders.target
  updates := by
    rw [hrenders.boundaries]
    exact mem_boundariesOf rfl fun _ _ ↦ rfl
  clears := by
    rw [hrenders.boundaries]
    exact mem_boundariesOf rfl fun _ _ ↦ rfl
  lastGroup := hrenders.lastGroup

end Assembly

/-! ## The automaton of a pattern -/

namespace Automaton

open Assembly

variable {t : Tree} {o : Options} {fl : Flags} {a : Automaton} {pattern : Bytes}

theorem isClosure_ofTree (hreg : t.Regular t.encoding.Fits) (ha : ofTree t o fl = .ok a) :
    a.IsClosure t := by
  obtain ⟨f, queue, m, m', h⟩ := exists_of_ofTree hreg ha
  constructor
  case key_inj =>
    intro q q' s s' hs hs' heq
    exact h.underway.tabled.key_inj (h.key_of_state hs) (heq ▸ h.key_of_state hs')
  case expanded =>
    intro q s hs hq hfinal
    have hinside : ¬t.Ends s.key.1 := by
      rw [← h.isFinal_iff_ends hs, hfinal]
      exact Bool.false_ne_true
    obtain ⟨back, hedges, hback⟩ := h.loopsBack.edges q
    refine ⟨m.edges q, back, (h.map_out_of_state hs).trans hedges, ?_, fun tr htr ↦ ?_⟩
    · exact (h.forall₂_renders hq (h.key_of_state hs) hinside).imp fun _ _ hr ↦ hr.carries h
    · obtain ⟨rfl, hloop⟩ := hback tr htr
      rw [h.unanchored, h.advanced]
      exact ⟨h.stands.source_of_loopBack hloop, rfl, hloop⟩
  case final => exact fun hs hfinal ↦ h.out_of_isFinal hs hreg hfinal
  case isFinal_iff => exact fun hs ↦ h.isFinal_iff_concludes hs hreg
  case lt_of_mem_out =>
    intro q i hi
    rw [h.out] at hi
    rw [h.transitions]
    exact h.loopsBack.tabled.out hi
  case count_out =>
    intro i tr htr q
    rw [h.transitions] at htr
    rw [h.out, h.anchoredReverseEntry, h.unanchoredReverseEntry]
    -- what is loose has been made before the loop-backs
    refine h.loopsBack.wired (fun i hi ↦ ?_) h.underway.wired htr q
    have hle := h.underway.two_le
    simp only [List.mem_cons, List.not_mem_nil, or_false] at hi
    omega
  case anchoredReverseEntry => exact h.anchoredReverseEntry
  case unanchoredReverseEntry => exact h.unanchoredReverseEntry

/-- **The automaton of a pattern is the closure of the steps of its tree.** -/
theorem isClosure_ofPattern (ht : Tree.ofPattern o pattern = .ok t) (ha : ofTree t o fl = .ok a) :
    a.IsClosure t :=
  isClosure_ofTree (Tree.regular_of_ofPattern ht).2 ha

theorem isClosure_caret_dollar :
    ∃ t a, Tree.ofPattern (roomyOptions true) (.ofString "a|^b$") = .ok t ∧
      ofTree t (roomyOptions true) {} = .ok a ∧ a.IsClosure t := by
  obtain ⟨t, a, ht, ha, -⟩ := exists_ofPattern (fun _ ↦ true)
    (show (Tree.ofPattern (roomyOptions true) (.ofString "a|^b$")).toOption.any _ = true by
      decide +kernel) {}
  exact ⟨t, a, ht, ha, isClosure_ofPattern ht ha⟩

end Automaton

end PatternAutomata
