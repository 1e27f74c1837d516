import PatternAutomata.Proofs.Automaton.Origins

/-!
# Telling predecessors

When everything has been made, the states are gone through by number, and each one tells the states
that it leads to by which transitions it does, in the order in which they leave it. What a state is
told by the way stands in the order of the sources, then, and for each source in the order of its
transitions. A state within the lead-in is noted instead, unless the search is for one place only.

Nothing else is changed by that, so automata that have been built for different searches are the
same but for what is told and noted.
-/

namespace PatternAutomata

/-- A state without what is told and noted of it. -/
def State.unlinked (s : State) : State :=
  { s with into := #[], roles := { s.roles with hardPrefix := false } }

def Automaton.unlinked (a : Automaton) : Automaton :=
  { a with states := a.states.map State.unlinked, hardPrefixStates := #[] }

namespace Assembly

variable {t : Tree} {o : Options} {fl : Flags} {m m' : Assembly o} {dummy id q i : Nat}
  {ids : List Nat} {r : Array Nat × Assembly o}

/-- Whether a state is noted as being within the lead-in. -/
def notes (t : Tree) (fl : Flags) (dummy : Nat) (m : Assembly o) (id : Nat) : Bool :=
  id != dummy && !(fl.sticky || t.hardPrefix.isDisjoint (m.states.getD id default).markers)

/-- The transitions into `q` that a state tells of. -/
def told (t : Tree) (fl : Flags) (dummy : Nat) (m : Assembly o) (q id : Nat) : List Nat :=
  if id = dummy ∨ m.notes t fl dummy id = true then []
  else (m.out id).toList.filter fun i ↦ (m.transitions.getD i default).target == q

/-- A state with some more transitions that it is told of. -/
def heard (transitions : List Nat) (s : State) : State :=
  { s with into := s.into ++ transitions.toArray }

theorem heard_nil (s : State) : heard [] s = s := by
  simp [heard]

/-- A state with what it has been told and with what has been noted when the states in a list have
been gone through. -/
def linked (t : Tree) (fl : Flags) (dummy : Nat) (m : Assembly o) (ids : List Nat) (q : Nat)
    (s : State) : State :=
  { heard (ids.flatMap (m.told t fl dummy q)) s with
    roles := { s.roles with
      hardPrefix := s.roles.hardPrefix || decide (q ∈ ids.filter (m.notes t fl dummy)) } }

/-- What has come of telling and noting for the states in a list. -/
structure Linked (t : Tree) (fl : Flags) (dummy : Nat) (m : Assembly o) (ids : List Nat)
    (r : Array Nat × Assembly o) : Prop where
  noted : r.1.toList = ids.filter (m.notes t fl dummy)
  transitions : r.2.transitions = m.transitions
  states : ∀ q, r.2.states[q]? = (m.states[q]?).map (linked t fl dummy m ids q)

theorem Linked.empty : Linked t fl dummy m [] (#[], m) where
  noted := rfl
  transitions := rfl
  states q := by
    have hsame : linked t fl dummy m [] q = fun s ↦ s := by
      funext s
      simp [linked, heard]
    rw [hsame, Option.map_id_fun']
    rfl

theorem foldl_tell (transitions : List Nat) (m : Assembly o) :
    (transitions.foldl (fun m i ↦ m.modifyState (m.transitions.getD i default).target fun s ↦
        { s with into := s.into.push i }) m).transitions = m.transitions ∧
      ∀ q, (transitions.foldl (fun m i ↦
        m.modifyState (m.transitions.getD i default).target fun s ↦
          { s with into := s.into.push i }) m).states[q]? =
        (m.states[q]?).map (heard (transitions.filter fun i ↦
          (m.transitions.getD i default).target == q)) := by
  induction transitions generalizing m with
  | nil =>
    refine ⟨rfl, fun q ↦ ?_⟩
    rw [List.filter_nil, funext heard_nil, Option.map_id_fun']
    rfl
  | cons i transitions ih =>
    obtain ⟨htransitions, hstates⟩ := ih
      (m.modifyState (m.transitions.getD i default).target fun s ↦
        { s with into := s.into.push i })
    refine ⟨htransitions, fun q ↦ (hstates q).trans ?_⟩
    rw [states_modifyState, List.filter_cons]
    split
    · next htarget =>
      rw [if_pos (by simpa using htarget), Option.map_map]
      congr 1
      funext s
      simp [heard, Assembly.modifyState]
    · next htarget =>
      rw [if_neg (by simpa using htarget)]
      rfl

/-- What is noted and told of a state does not depend on what has been before. -/
theorem Linked.getD (h : Linked t fl dummy m ids r) (id : Nat) :
    (r.2.states.getD id default).markers = (m.states.getD id default).markers ∧
      (r.2.states.getD id default).out = (m.states.getD id default).out := by
  rw [Array.getD_eq_getD_getElem?, Array.getD_eq_getD_getElem?, h.states]
  cases m.states[id]? with
  | none => exact ⟨rfl, rfl⟩
  | some s => exact ⟨rfl, rfl⟩

theorem linked_concat_of_not_notes (hnotes : m.notes t fl dummy id = false) :
    linked t fl dummy m (ids ++ [id]) q =
      heard (m.told t fl dummy q id) ∘ linked t fl dummy m ids q := by
  have hfilter : (ids ++ [id]).filter (m.notes t fl dummy) = ids.filter (m.notes t fl dummy) := by
    simp [hnotes]
  funext s
  simp [linked, heard, hfilter]

theorem linked_concat_of_notes (hnotes : m.notes t fl dummy id = true) (s : State) :
    linked t fl dummy m (ids ++ [id]) q s =
      if id = q then
        { linked t fl dummy m ids q s with
          roles := { (linked t fl dummy m ids q s).roles with hardPrefix := true } }
      else linked t fl dummy m ids q s := by
  have hnone : m.told t fl dummy q id = [] := if_pos (.inr hnotes)
  have hfilter : (ids ++ [id]).filter (m.notes t fl dummy) =
      ids.filter (m.notes t fl dummy) ++ [id] := by
    simp [hnotes]
  split
  · next hq =>
    subst hq
    simp only [linked, heard, hfilter, List.flatMap_append, List.flatMap_singleton, hnone,
      List.append_nil, List.mem_append, List.mem_singleton, or_true, decide_true, Bool.or_true]
  · next hq => simp [linked, heard, hfilter, hnone, Ne.symm hq]

theorem Linked.linkFrom (h : Linked t fl dummy m ids r) :
    Linked t fl dummy m (ids ++ [id]) (linkFrom t fl dummy r id) := by
  obtain ⟨hmarkers, hout⟩ := h.getD id
  obtain ⟨hnoted, htransitions, hstates⟩ := h
  obtain ⟨hardPrefixStates, m'⟩ := r
  dsimp only at hmarkers hout hnoted htransitions hstates
  unfold Assembly.linkFrom
  dsimp only
  rw [hmarkers, hout]
  split
  · next hdummy =>
    have hnotes : m.notes t fl dummy id = false := by simp [notes, hdummy]
    refine ⟨by simpa [hnotes] using hnoted, htransitions, fun q ↦ ?_⟩
    have hnone : m.told t fl dummy q id = [] := if_pos (.inl hdummy)
    rw [hstates, linked_concat_of_not_notes hnotes, hnone]
    exact congrArg (Option.map · _) (funext fun s ↦ (heard_nil _).symm)
  · next hdummy =>
    split
    · next htells =>
      have hnotes : m.notes t fl dummy id = false := by
        simp only [notes, htells, Bool.not_true, Bool.and_false]
      obtain ⟨htold, hheard⟩ := foldl_tell (m.out id).toList m'
      rw [Array.foldl_toList] at htold hheard
      refine ⟨by simpa [hnotes] using hnoted, htold.trans htransitions,
        fun q ↦ (hheard q).trans ?_⟩
      have htells : m.told t fl dummy q id = (m.out id).toList.filter fun i ↦
          (m.transitions.getD i default).target == q := if_neg (by simp [hdummy, hnotes])
      rw [hstates, Option.map_map, linked_concat_of_not_notes hnotes, htells, htransitions]
    · next htells =>
      have hnotes : m.notes t fl dummy id = true := by
        simp only [notes, Bool.eq_false_iff.2 htells, bne_iff_ne, ne_eq, hdummy, Bool.not_false,
          Bool.and_true, not_false_eq_true]
      refine ⟨by simpa [hnotes] using hnoted, htransitions, fun q ↦ ?_⟩
      rw [Assembly.assign, states_modifyState, hstates, funext (linked_concat_of_notes hnotes)]
      split
      · next hq => rw [Option.map_map]; rfl
      · next hq => rfl

/-- **Telling all predecessors.** -/
theorem linked_linkAll :
    Linked t fl dummy m (List.range m.states.size) (m.linkAll t fl dummy) := by
  have hfold : ∀ n, Linked t fl dummy m (List.range n)
      ((List.range n).foldl (linkFrom t fl dummy) (#[], m)) := by
    intro n
    induction n with
    | zero => exact .empty
    | succ n ih =>
      rw [List.range_succ, List.foldl_concat]
      exact ih.linkFrom
  exact hfold _

theorem Linked.map_unlinked (h : Linked t fl dummy m ids r) :
    r.2.states.map State.unlinked = m.states.map State.unlinked := by
  refine Array.ext_getElem? fun q ↦ ?_
  rw [Array.getElem?_map, Array.getElem?_map, h.states, Option.map_map]
  rfl

/-! ## The finished automaton -/

section Stages

variable {f : Fixed} {m₀ : Assembly o} {a : Automaton} {s : State}
  (h : Stages t o fl f m₀ m m' a)
include h

theorem Stages.toList_hardPrefixStates : a.hardPrefixStates.toList =
    (List.range m'.states.size).filter (m'.notes t fl f.dummy) := by
  rw [h.hardPrefixStates]
  exact linked_linkAll.noted

theorem Stages.getElem?_states (q : Nat) : a.states[q]? =
    (m'.states[q]?).map (Assembly.linked t fl f.dummy m' (List.range m'.states.size) q) := by
  rw [h.states]
  exact linked_linkAll.states q

/-- The states of a finished automaton are as they were made, but for what is told and noted. -/
theorem Stages.exists_fresh (ht : t.Regular t.encoding.Fits) (hs : a.states[q]? = some s) :
    ∃ s₀, Fresh t o f.initial f.into q s₀ ∧
      Assembly.linked t fl f.dummy m' (List.range m'.states.size) q s₀ = s := by
  obtain ⟨s₀, hs₀, heq⟩ := Option.map_eq_some_iff.1 ((h.getElem?_states q).symm.trans hs)
  exact ⟨s₀, (h.founded ht).fresh hs₀, heq⟩

theorem Stages.state_spec (ht : t.Regular t.encoding.Fits) (hs : a.states[q]? = some s) :
    t.Arises o s.key ∧ s.chars = t.commonChars s.markers ∧
      (s.isInitial = true ↔ q ∈ f.initial) := by
  obtain ⟨s₀, hfresh, rfl⟩ := h.exists_fresh ht hs
  exact ⟨hfresh.arises, hfresh.chars, hfresh.isInitial⟩

end Stages

end Assembly

namespace Automaton

open Assembly

variable {t : Tree} {o : Options}

/-- **Automata of a tree that are built for different searches** are the same but for what is told
and noted, and if there is none for one of the searches, there is none for the other. -/
theorem map_unlinked_ofTree (fl fl' : Flags) :
    (ofTree t o fl).map unlinked = (ofTree t o fl').map unlinked := by
  have hlink : ∀ (m : Assembly o) (dummy : Nat),
      (m.linkAll t fl dummy).2.states.map State.unlinked =
          (m.linkAll t fl' dummy).2.states.map State.unlinked ∧
        (m.linkAll t fl dummy).2.transitions = (m.linkAll t fl' dummy).2.transitions :=
    fun m dummy ↦ ⟨linked_linkAll.map_unlinked.trans linked_linkAll.map_unlinked.symm,
      linked_linkAll.transitions.trans linked_linkAll.transitions.symm⟩
  unfold ofTree
  cases Assembly.start t o with
  | error e => rfl
  | ok r =>
    obtain ⟨f, m⟩ := r
    cases hexpand : Assembly.expandAll t (o.maxState + 1) 0 f.queue m with
    | error e => simp [hexpand, bind, Except.bind, Except.map]
    | ok m₁ =>
      cases hloops : m₁.addLoopBacks t f with
      | error e => simp [hexpand, hloops, bind, Except.bind, Except.map]
      | ok r =>
        obtain ⟨loopBack, m₂⟩ := r
        obtain ⟨hstates, htransitions⟩ := hlink m₂ f.dummy
        simp only [hexpand, hloops, bind, Except.bind, pure, Except.pure, Except.map, unlinked,
          hstates, htransitions]

end Automaton

end PatternAutomata
