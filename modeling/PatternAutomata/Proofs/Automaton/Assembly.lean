import Mathlib.Tactic.Common
import PatternAutomata.Automaton.Build

/-!
# Assemblies

An assembly seen from outside: the key that each state is known by, whether a match is found there,
and the transitions that leave it, in order. What is made of states later on, by telling them more
transitions and roles, leaves their keys alone, and no transition is ever taken back.

A state is final just if its markers are those behind the pattern. States are told apart by their
keys, as the table sees to. A transition is listed once, where it leaves its source.
-/

namespace PatternAutomata

theorem exists_of_bind_eq_ok {ε α β : Type} {x : Except ε α} {f : α → Except ε β} {b : β}
    (h : x >>= f = .ok b) : ∃ a, x = .ok a ∧ f a = .ok b := by
  cases x with
  | error e => cases h
  | ok a => exact ⟨a, rfl, h⟩

/-- What every round of a fold keeps holds when all of them have gone well. -/
theorem of_foldlM_eq_ok {ε α β : Type} {f : β → α → Except ε β} (P : β → Prop)
    (hf : ∀ {b a b'}, P b → f b a = .ok b' → P b') {l : List α} {b b' : β} (hb : P b)
    (hok : l.foldlM f b = .ok b') : P b' := by
  induction l generalizing b with
  | nil =>
    cases hok
    exact hb
  | cons a l ih =>
    rw [List.foldlM_cons] at hok
    obtain ⟨b₁, hfirst, hok⟩ := exists_of_bind_eq_ok hok
    exact ih (hf hb hfirst) hok

theorem of_foldlM_range_eq_ok {ε β : Type} {f : β → Nat → Except ε β} (P : Nat → β → Prop) {n : Nat}
    {b b' : β} (hzero : P 0 b)
    (hsucc : ∀ {k b b'}, k < n → P k b → f b k = .ok b' → P (k + 1) b')
    (hok : (List.range n).foldlM f b = .ok b') : P n b' := by
  induction n generalizing b' with
  | zero =>
    cases hok
    exact hzero
  | succ n ih =>
    rw [List.range_succ, List.foldlM_append] at hok
    obtain ⟨b₁, hrest, hok⟩ := exists_of_bind_eq_ok hok
    rw [List.foldlM_cons] at hok
    obtain ⟨b₂, hlast, hok⟩ := exists_of_bind_eq_ok hok
    cases hok
    exact hsucc (Nat.lt_succ_self n) (ih (fun hk ↦ hsucc (Nat.lt_succ_of_lt hk)) hrest) hlast

theorem Bound.grant_eq_ok {bound : Bound} {n : Nat} (h : (n : Int) ≤ bound.max) :
    bound.grant n = .ok n :=
  if_neg (Int.not_lt.2 h)

theorem Bound.eq_of_grant_eq_ok {bound : Bound} {n i : Nat} (h : bound.grant n = .ok i) :
    i = n ∧ (n : Int) ≤ bound.max := by
  unfold Bound.grant at h
  split at h
  · cases h
  · next hle =>
    cases h
    exact ⟨rfl, Int.not_lt.1 hle⟩

theorem Bound.grant_eq_error {bound : Bound} {n : Nat} (h : bound.max < n) :
    bound.grant n = .error ⟨bound.subsystem, bound.max⟩ :=
  if_pos h

/-- Markers that are all behind the pattern: places where a match is found, and look-behind
assertions passed on the way there. -/
def Tree.Ends (t : Tree) (markers : MarkerSet) : Prop :=
  ∀ x ∈ markers.members, t.isFinal x = true ∨ (t.node x).kind.isLookBehind = true

namespace Assembly

variable {t : Tree} {o : Options} {m m' m'' : Assembly o} {id j q : Nat} {k : MarkerSet × Bool}
  {tr : Transition}

def key? (m : Assembly o) (id : Nat) : Option (MarkerSet × Bool) := (m.states[id]?).map State.key

/-- The transitions that leave a state, by number. -/
def out (m : Assembly o) (id : Nat) : Array Nat := (m.states.getD id default).out

def isFinal (m : Assembly o) (id : Nat) : Bool := (m.states.getD id default).isFinal

/-- The transitions that leave a state. -/
def edges (m : Assembly o) (id : Nat) : List Transition :=
  (m.out id).toList.map (m.transitions.getD · default)

/-- `m'` has all states and transitions that `m` has. -/
structure Grows (m m' : Assembly o) : Prop where
  keys : ∀ {id k}, m.key? id = some k → m'.key? id = some k
  transitions : ∀ {i : Nat} {tr : Transition},
    m.transitions[i]? = some tr → m'.transitions[i]? = some tr

/-- The table knows all states, and the numbers of transitions are those of transitions. -/
structure Tabled (m : Assembly o) : Prop where
  table : ∀ {k : MarkerSet × Bool} {id : Nat}, m.table[k]? = some id ↔ m.key? id = some k
  out : ∀ {id i}, i ∈ m.out id → i < m.transitions.size

/-- A transition is listed once, where it leaves its source; those that are loose are not listed. -/
def Wired (loose : List Nat) (m : Assembly o) : Prop :=
  ∀ ⦃i : Nat⦄ ⦃tr : Transition⦄, m.transitions[i]? = some tr →
    ∀ q, (m.out q).count i = if q = tr.source ∧ i ∉ loose then 1 else 0

/-- Final are the states behind the pattern. -/
def Labelled (t : Tree) (m : Assembly o) : Prop :=
  ∀ ⦃id k⦄, m.key? id = some k → (m.isFinal id = true ↔ t.Ends k.1)

theorem Grows.refl (m : Assembly o) : Grows m m := ⟨id, id⟩

theorem Grows.trans (h : Grows m m') (h' : Grows m' m'') : Grows m m'' :=
  ⟨h'.keys ∘ h.keys, h'.transitions ∘ h.transitions⟩

theorem Grows.size_transitions_le (h : Grows m m') : m.transitions.size ≤ m'.transitions.size := by
  by_contra hlt
  have hlast := Array.getElem?_eq_getElem (Nat.lt_of_not_le hlt)
  exact Nat.lt_irrefl _ (Array.getElem?_eq_some_iff.1 (h.transitions hlast)).1

theorem edges_congr (hout : m'.out q = m.out q) (htransitions : m'.transitions = m.transitions) :
    m'.edges q = m.edges q := by
  rw [edges, hout, htransitions, edges]

theorem Wired.congr {loose : List Nat} (h : Wired loose m) (hout : ∀ {q}, m'.out q = m.out q)
    (htransitions : m'.transitions = m.transitions) : Wired loose m' := by
  intro i tr htr q
  rw [htransitions] at htr
  rw [hout]
  exact h htr q

theorem lt_of_key (h : m.key? id = some k) : id < m.states.size := by
  obtain ⟨s, hs, -⟩ := Option.map_eq_some_iff.1 h
  exact (Array.getElem?_eq_some_iff.1 hs).1

theorem key_eq_none_iff : m.key? id = none ↔ m.states.size ≤ id := by
  rw [key?, Option.map_eq_none_iff, Array.getElem?_eq_none_iff]

theorem Tabled.key_inj (h : Tabled m) (hid : m.key? id = some k) (hj : m.key? j = some k) :
    id = j :=
  Option.some.inj ((h.table.2 hid).symm.trans (h.table.2 hj))

/-! ## Changes to states -/

section modifyState

variable {f : State → State}

theorem states_modifyState : (m.modifyState id f).states[j]? =
    if id = j then (m.states[j]?).map f else m.states[j]? := by
  rw [modifyState, Array.getElem?_modify]

theorem key_modifyState (hf : ∀ s, (f s).key = s.key) : (m.modifyState id f).key? j = m.key? j := by
  rw [key?, states_modifyState]
  split
  · rw [Option.map_map, show State.key ∘ f = State.key from funext hf, key?]
  · rfl

theorem getD_modifyState (hid : id < m.states.size) :
    (m.modifyState id f).states.getD j default =
      if id = j then f (m.states.getD j default) else m.states.getD j default := by
  rw [Array.getD_eq_getD_getElem?, states_modifyState]
  split
  · next h =>
    subst h
    rw [Array.getD_eq_getD_getElem?, Array.getElem?_eq_getElem hid]
    rfl
  · rw [Array.getD_eq_getD_getElem?]

theorem out_modifyState (hf : ∀ s, (f s).out = s.out) : (m.modifyState id f).out j = m.out j := by
  rw [out, Array.getD_eq_getD_getElem?, states_modifyState]
  split
  · rw [out, Array.getD_eq_getD_getElem?]
    cases m.states[j]? with
    | none => rfl
    | some s => exact hf s
  · rw [out, Array.getD_eq_getD_getElem?]

theorem isFinal_modifyState (hf : ∀ s, (f s).isFinal = s.isFinal) :
    (m.modifyState id f).isFinal j = m.isFinal j := by
  rw [isFinal, Array.getD_eq_getD_getElem?, states_modifyState]
  split
  · rw [isFinal, Array.getD_eq_getD_getElem?]
    cases m.states[j]? with
    | none => rfl
    | some s => exact hf s
  · rw [isFinal, Array.getD_eq_getD_getElem?]

theorem size_modifyState : (m.modifyState id f).states.size = m.states.size := Array.size_modify

end modifyState

theorem key_assign {f : Roles → Roles} : (m.assign id f).key? j = m.key? j :=
  key_modifyState fun _ ↦ rfl

theorem out_assign {f : Roles → Roles} : (m.assign id f).out j = m.out j :=
  out_modifyState fun _ ↦ rfl

theorem size_assign {f : Roles → Roles} : (m.assign id f).states.size = m.states.size :=
  size_modifyState

theorem out_addOut {i : Nat} (hq : q < m.states.size) :
    (m.addOut q i).out j = if q = j then (m.out j).push i else m.out j := by
  rw [out, addOut, getD_modifyState hq]
  split <;> rfl

theorem key_addOut {i : Nat} : (m.addOut q i).key? j = m.key? j := key_modifyState fun _ ↦ rfl

theorem isFinal_addOut {i : Nat} : (m.addOut q i).isFinal j = m.isFinal j :=
  isFinal_modifyState fun _ ↦ rfl

theorem Tabled.modifyState (h : Tabled m) {f : State → State} (hkey : ∀ s, (f s).key = s.key)
    (hout : ∀ s, (f s).out = s.out) : Tabled (m.modifyState id f) where
  table := by
    intro k j
    rw [key_modifyState hkey]
    exact h.table
  out hi := by
    rw [out_modifyState hout] at hi
    exact h.out hi

theorem Labelled.modifyState (h : Labelled t m) {f : State → State} (hkey : ∀ s, (f s).key = s.key)
    (hfinal : ∀ s, (f s).isFinal = s.isFinal) : Labelled t (m.modifyState id f) := by
  intro j k hj
  rw [key_modifyState hkey] at hj
  rw [isFinal_modifyState hfinal]
  exact h hj

theorem Grows.modifyState {f : State → State} (hkey : ∀ s, (f s).key = s.key) :
    Grows m (m.modifyState id f) where
  keys hj := by rwa [key_modifyState hkey]
  transitions hi := hi

/-! ## New states -/

/-- The state of a key, which may be a new one. -/
structure Makes (m m' : Assembly o) (id : Nat) (k : MarkerSet × Bool) : Prop where
  keys : ∀ {j k'}, m'.key? j = some k' ↔ m.key? j = some k' ∨ j = id ∧ k' = k
  out : ∀ {j}, m'.out j = m.out j
  transitions : m'.transitions = m.transitions

theorem Makes.key (h : Makes m m' id k) : m'.key? id = some k := h.keys.2 (.inr ⟨rfl, rfl⟩)

theorem Makes.grows (h : Makes m m' id k) : Grows m m' where
  keys hj := h.keys.2 (.inl hj)
  transitions hi := by rwa [h.transitions]

theorem Makes.modifyState (h : Makes m m' id k) {f : State → State} (hkey : ∀ s, (f s).key = s.key)
    (hout : ∀ s, (f s).out = s.out) : Makes m (m'.modifyState j f) id k where
  keys := by
    intro j' k'
    rw [key_modifyState hkey]
    exact h.keys
  out := by
    intro j'
    rw [out_modifyState hout]
    exact h.out
  transitions := h.transitions

theorem Labelled.makes (h : Labelled t m) (hmakes : Makes m m' id k)
    (hold : ∀ {j}, j ≠ id → m'.isFinal j = m.isFinal j)
    (hnew : m'.isFinal id = true ↔ t.Ends k.1) : Labelled t m' := by
  intro j k' hj
  by_cases hne : j = id
  · subst hne
    obtain rfl : k = k' := Option.some.inj (hmakes.key.symm.trans hj)
    exact hnew
  · rw [hold hne]
    exact h ((hmakes.keys.1 hj).resolve_right fun h ↦ hne h.1)

theorem getD_default_of_key_none (h : m.key? id = none) : m.states.getD id default = default := by
  rw [Array.getD_eq_getD_getElem?, Option.map_eq_none_iff.1 h]
  rfl

theorem isFinal_of_key_none (h : m.key? id = none) : m.isFinal id = false := by
  rw [isFinal, getD_default_of_key_none h]
  rfl

theorem next_stateNumbers : m.stateNumbers.next.1 = o.stateBound.grant m.states.size := by
  rw [m.stateNumbers_eq]
  rfl

theorem size_withState (m : Assembly o) (s : State) :
    (m.withState id s).states.size = m.states.size + 1 := Array.size_push _

theorem getElem?_withState (m : Assembly o) (s : State) (j : Nat) :
    (m.withState id s).states[j]? = if j = m.states.size then some s else m.states[j]? :=
  Array.getElem?_push

theorem getD_withState {α : Type} (f : State → α) {s : State} (hs : f s = f default) :
    f ((m.withState id s).states.getD j default) = f (m.states.getD j default) := by
  rw [Array.getD_eq_getD_getElem?, getElem?_withState]
  split
  · next hj =>
    rw [hj, getD_default_of_key_none (key_eq_none_iff.2 (Nat.le_refl _))]
    exact hs
  · rw [Array.getD_eq_getD_getElem?]

theorem makes_withState {s : State} (hout : s.out = #[]) :
    Makes m (m.withState id s) m.states.size s.key where
  keys {j k'} := by
    rw [key?, getElem?_withState]
    split
    · next hj =>
      subst hj
      have hnone : m.key? m.states.size = none := key_eq_none_iff.2 (Nat.le_refl _)
      rw [hnone, Option.map_some, Option.some_inj]
      exact ⟨fun hk ↦ .inr ⟨rfl, hk.symm⟩, fun hk ↦ (hk.resolve_left nofun).2.symm⟩
    · next hj => exact ⟨.inl, fun hk ↦ hk.resolve_right fun hk ↦ hj hk.1⟩
  out := getD_withState State.out hout
  transitions := rfl

theorem Tabled.withState (h : Tabled m) {s : State} (hnone : m.table[s.key]? = none)
    (hout : s.out = #[]) : Tabled (m.withState m.states.size s) where
  table {k j} := by
    have hget : (m.withState m.states.size s).table[k]? = if s.key == k then some m.states.size
        else m.table[k]? := Std.HashMap.getElem?_insert
    rw [hget, (makes_withState hout).keys]
    split
    · next hk =>
      rw [beq_iff_eq] at hk
      subst hk
      rw [Option.some_inj, ← h.table, hnone]
      exact ⟨fun hj ↦ .inr ⟨hj.symm, rfl⟩, fun hj ↦ (hj.resolve_left nofun).1.symm⟩
    · next hk =>
      rw [h.table]
      refine ⟨.inl, fun hj ↦ hj.resolve_right ?_⟩
      rintro ⟨-, rfl⟩
      exact hk (beq_self_eq_true _)
  out {j i} hi := by
    rw [(makes_withState hout).out] at hi
    exact h.out hi

/-- The state of a key is found in the table, or it is the next one. -/
theorem stateOf_cases {markers : MarkerSet} {mustAdvance isNew : Bool}
    (hok : m.stateOf t markers mustAdvance = .ok (id, isNew, m')) :
    m.table[(markers, mustAdvance)]? = some id ∧ isNew = false ∧ m' = m ∨
      m.table[(markers, mustAdvance)]? = none ∧ isNew = true ∧ id = m.states.size ∧
        id ≤ o.maxState ∧
          m' = m.withState id { markers, mustAdvance, chars := t.commonChars markers } := by
  unfold stateOf at hok
  split at hok
  · next htable =>
    cases hok
    exact .inl ⟨htable, rfl, rfl⟩
  · next htable =>
    obtain ⟨id', hnext, hok⟩ := exists_of_bind_eq_ok hok
    obtain ⟨rfl, hle⟩ := Bound.eq_of_grant_eq_ok (next_stateNumbers.symm.trans hnext)
    cases hok
    exact .inr ⟨htable, rfl, rfl, Int.ofNat_le.1 hle, rfl⟩

/-- **Asking for the state of a key.** -/
theorem stateOf_spec (h : Tabled m) {markers : MarkerSet} {mustAdvance isNew : Bool}
    (hok : m.stateOf t markers mustAdvance = .ok (id, isNew, m')) :
    Tabled m' ∧ Makes m m' id (markers, mustAdvance) ∧ (∀ {j}, m'.isFinal j = m.isFinal j) ∧
      (isNew = false ∧ m' = m ∨ isNew = true ∧ m.key? id = none ∧ id ≤ o.maxState ∧
        m'.states.size = id + 1) := by
  rcases stateOf_cases hok with ⟨htable, rfl, rfl⟩ | ⟨htable, rfl, rfl, hle, rfl⟩
  · have hkey := h.table.1 htable
    refine ⟨h, ⟨fun {j k'} ↦ ⟨.inl, ?_⟩, rfl, rfl⟩, rfl, .inl ⟨rfl, rfl⟩⟩
    rintro (hj | ⟨rfl, rfl⟩)
    · exact hj
    · exact hkey
  · exact ⟨h.withState htable rfl, makes_withState rfl, getD_withState State.isFinal rfl,
      .inr ⟨rfl, key_eq_none_iff.2 (Nat.le_refl _), hle, size_withState _ _⟩⟩

end Assembly

end PatternAutomata
