import PatternAutomata.Proofs.Automaton.Coherence
import PatternAutomata.Proofs.Automaton.Predecessors
import PatternAutomata.Proofs.Step.Events
import PatternAutomata.Proofs.Step.Exhaustive

/-!
# What transitions do to the slots

All transitions are free, so that they leave all slots alone, or they are made for branches by
expansion, and then they set and clear what the successors of the branch do. One successor never
both sets and clears a slot. But the successors of a branch share its characters and nothing else,
so one of them may set what another one clears, and the transition then does both.
-/

namespace PatternAutomata

namespace Assembly

variable {t : Tree} {o : Options} {fl : Flags} {m m' : Assembly o} {id q i dummy : Nat}
  {k : MarkerSet × Bool} {b : Branch} {queue queue' : Array Nat} {tr : Transition} {f : Fixed}

/-! ## Where transitions come from -/

/-- What there is more leaves all slots alone. -/
def AddsFree (m m' : Assembly o) : Prop :=
  ∀ ⦃i : Nat⦄ ⦃tr : Transition⦄, m'.transitions[i]? = some tr →
    m.transitions[i]? = some tr ∨ tr.boundaries = {}

theorem AddsFree.of_transitions_eq (h : m'.transitions = m.transitions) : AddsFree m m' :=
  fun _ _ htr ↦ .inl (h ▸ htr)

theorem AddsFree.trans {m'' : Assembly o} (h : AddsFree m m') (h' : AddsFree m' m'') :
    AddsFree m m'' := fun _ _ htr ↦ (h' htr).elim (@h _ _) .inr

theorem AddsFree.stateOf {markers : MarkerSet} {mustAdvance isNew : Bool}
    (hok : m.stateOf t markers mustAdvance = .ok (id, isNew, m')) : AddsFree m m' := by
  rcases stateOf_cases hok with ⟨-, -, rfl⟩ | ⟨-, -, -, -, rfl⟩ <;> exact .of_transitions_eq rfl

theorem AddsFree.connectFreely {source target : Nat}
    (hok : m.connectFreely t source target = .ok (i, m')) : AddsFree m m' := by
  obtain ⟨rfl, rfl⟩ := connect_eq hok
  intro j tr htr
  rcases getElem?_withTransition.1 htr with htr | ⟨-, rfl⟩
  · exact .inl htr
  · exact .inr rfl

theorem AddsFree.addEntries {anchored : Bool} {entries : Entries}
    (hok : m.addEntries t dummy anchored = .ok (entries, m')) : AddsFree m m' := by
  unfold Assembly.addEntries at hok
  refine of_foldlM_range_eq_ok (fun _ (r : Entries × Assembly o) ↦ AddsFree m r.2)
    (.of_transitions_eq rfl) ?_ hok
  rintro n ⟨entries₁, m₁⟩ r - hfree hok
  obtain ⟨⟨state, isNew, m₂⟩, hstate, hok⟩ := exists_of_bind_eq_ok hok
  obtain ⟨⟨entry, m₃⟩, hconnect, hok⟩ := exists_of_bind_eq_ok hok
  cases hok
  exact (hfree.trans (.stateOf hstate)).trans (.connectFreely (m := m₂.assign state _) hconnect)

theorem AddsFree.addAdvanced {advanced : Option Nat}
    (hok : m.addAdvanced t = .ok (advanced, m')) : AddsFree m m' := by
  rcases addAdvanced_cases hok with ⟨-, id, isNew, -, hstate⟩ | ⟨-, -, rfl⟩
  · exact .stateOf hstate
  · exact .of_transitions_eq rfl

theorem AddsFree.addOwnAnchored {own : Option Entries}
    (hok : m.addOwnAnchored t dummy = .ok (own, m')) : AddsFree m m' := by
  rcases addOwnAnchored_cases hok with ⟨-, -, rfl⟩ | ⟨-, entries, -, hentries⟩
  · exact .of_transitions_eq rfl
  · exact .addEntries hentries

/-- **The fixed transitions are free.** -/
theorem addsFree_start (hok : Assembly.start t o = .ok (f, m)) : AddsFree {} m := by
  obtain ⟨isNew₁, isNew₂, isNew₃, m₁, m₂, m₃, m₄, m₅, m₆, m₇, m₈, h₁, h₂, h₃, h₄, h₅, h₆, h₇, h₈,
    rfl⟩ := start_cases hok
  have hfinals : AddsFree {} m₅ := by
    refine .trans (.trans (.stateOf h₁) (.stateOf h₂)) ?_
    refine .trans (.stateOf (m := m₂.assign _ _) h₃) ?_
    exact .trans (.connectFreely (m := m₃.assign _ _) h₄) (.connectFreely h₅)
  have hentries : AddsFree m₅ m₈ :=
    ((AddsFree.addAdvanced h₆).trans (.addEntries h₇)).trans (.addOwnAnchored h₈)
  exact hfinals.trans hentries

/-- All transitions are free, or they are made for branches of their sources. -/
def Derived (t : Tree) (m : Assembly o) : Prop :=
  ∀ ⦃i : Nat⦄ ⦃tr : Transition⦄, m.transitions[i]? = some tr → tr.boundaries = {} ∨
    ∃ k b, m.key? tr.source = some k ∧ b ∈ t.branches k ∧ Renders t m tr.source k b tr

theorem Derived.addsFree (h : Derived t m) (hfree : AddsFree m m') (hgrows : Grows m m') :
    Derived t m' := by
  intro i tr htr
  refine (hfree htr).elim (fun htr ↦ (h htr).imp_right ?_) .inl
  rintro ⟨k, b, hk, hb, hrenders⟩
  exact ⟨k, b, hgrows.keys hk, hb, hrenders.grows hgrows⟩

/-- **Expansion makes transitions for branches.** -/
theorem Derived.addBranch (h : Derived t m) (ht : t.Discerns) (hunder : Underway t o dummy queue m)
    (hq : m.key? q = some k) (hb : b ∈ t.branches k)
    (hok : Assembly.addBranch t q (t.step k.1 k.2) (queue, m) b = .ok (queue', m')) :
    Derived t m' := by
  obtain ⟨-, hgrows, -, tr, hpush, -, hrenders⟩ := hunder.addBranch ht hq hb hok
  intro i tr' htr
  rw [hpush] at htr
  rcases getElem?_withTransition.1 htr with htr | ⟨-, rfl⟩
  · refine (h htr).imp_right ?_
    rintro ⟨k', b', hk', hb', hrenders'⟩
    exact ⟨k', b', hgrows.keys hk', hb', hrenders'.grows hgrows⟩
  · have hsource := hrenders.source
    exact .inr ⟨k, b, hsource ▸ hgrows.keys hq, hb, hsource ▸ hrenders⟩

theorem Derived.expandAll (h : Derived t m) (ht : t.Discerns) {fuel place : Nat}
    (hunder : Underway t o dummy queue m)
    (hok : Assembly.expandAll t fuel place queue m = .ok m') : Derived t m' :=
  hunder.expandAll_induction ht
    (fun hunder hm hq hb hbranch ↦ Derived.addBranch hm ht hunder hq hb hbranch) h hok

/-- **When all has been made**, transitions are free or made for branches, and the two entries back
to the dummy are free. -/
theorem Stages.derived {m₀ : Assembly o} {a : Automaton} (h : Stages t o fl f m₀ m m' a)
    (hfin : Finishes t o f queue m m' a) (ht : t.Regular t.encoding.Fits) :
    Derived t m' ∧ ∀ i < 2, (m'.transitions.getD i default).boundaries = {} := by
  obtain ⟨hunder, -, hreaches, -, -⟩ := start_spec ht h.start
  obtain ⟨-, -, hgrows, -⟩ :=
    hunder.expandAll ht.discerns (Nat.le_of_eq (Nat.zero_add _).symm) hreaches h.expandAll
  have hfree := addsFree_start h.start
  have hnone : ∀ {i : Nat} {tr : Transition}, m₀.transitions[i]? = some tr → tr.boundaries = {} :=
    fun htr ↦ (hfree htr).resolve_left nofun
  have hderived₀ : Derived t m₀ := fun _ _ htr ↦ .inl (hnone htr)
  have hloops : AddsFree m m' :=
    addLoopBacks_induction (P := AddsFree m) (fun hm hconnect ↦ hm.trans (.connectFreely hconnect))
      (fun hm ↦ hm.trans (.of_transitions_eq rfl)) (.of_transitions_eq rfl) h.addLoopBacks
  refine ⟨(hderived₀.expandAll ht.discerns hunder h.expandAll).addsFree hloops
    hfin.loopsBack.grows, fun i hi ↦ ?_⟩
  have hlt : i < m₀.transitions.size := Nat.lt_of_lt_of_le hi hunder.two_le
  have htr := Array.getElem?_eq_getElem hlt
  rw [Array.getD_eq_getD_getElem?, (hgrows.trans hfin.loopsBack.grows).transitions htr]
  exact hnone htr

end Assembly

namespace Tree

variable {t : Tree} {k : MarkerSet × Bool} {b : Branch} {d : Successor} {c : CodePoint}

/-! ## The successors of a branch -/

theorem Regular.taken_of_isFinal (h : t.Regular t.encoding.Fits) (hb : b ∈ t.branches k)
    (hfinal : b.isFinal = true) : ∃ d ∈ t.step k.1 k.2, t.taken k b = [d] := by
  obtain ⟨i, d, hi, -, rfl⟩ := ((h.exact_branches k).final hfinal).1 hb
  refine ⟨d, Array.mem_of_getElem? hi, ?_⟩
  have hget : (t.step k.1 k.2).getD i default = d := by
    rw [Array.getD_eq_getD_getElem?, hi, Option.getD_some]
  exact congrArg (fun d ↦ [d]) hget

/-- The successors of any other branch are those that read a character of it. -/
theorem Regular.mem_taken_iff (h : t.Regular t.encoding.Fits) (hb : b ∈ t.branches k)
    (hc : b.Reads c) : d ∈ t.taken k b ↔ d ∈ t.step k.1 k.2 ∧ d.reads t c = true := by
  rw [taken, (h.exact_branches k).contributors hb hc, List.mem_map]
  constructor
  · rintro ⟨i, hi, rfl⟩
    obtain ⟨d, hd, hreads⟩ := Successor.mem_readers.1 hi
    rw [Array.getElem?_toList] at hd
    rw [Array.getD_eq_getD_getElem?, hd, Option.getD_some]
    exact ⟨Array.mem_of_getElem? hd, hreads⟩
  · rintro ⟨hd, hreads⟩
    obtain ⟨i, hi⟩ := Array.mem_iff_getElem?.1 hd
    refine ⟨i, Successor.mem_readers.2 ⟨d, by rw [Array.getElem?_toList, hi], hreads⟩, ?_⟩
    rw [Array.getD_eq_getD_getElem?, hi, Option.getD_some]

theorem Regular.mem_step_of_mem_taken (h : t.Regular t.encoding.Fits) (hb : b ∈ t.branches k)
    (hd : d ∈ t.taken k b) : d ∈ t.step k.1 k.2 := by
  cases hfinal : b.isFinal with
  | true =>
    obtain ⟨e, he, htaken⟩ := h.taken_of_isFinal hb hfinal
    rw [htaken, List.mem_singleton] at hd
    exact hd ▸ he
  | false =>
    obtain ⟨c, hc⟩ := h.exists_reads hb hfinal
    exact ((h.mem_taken_iff hb hc).1 hd).1

end Tree

namespace Automaton

open Assembly

variable {t : Tree} {o : Options} {fl : Flags} {a : Automaton} {pattern : Bytes} {i n : Nat}
  {s s' : State} {b : Branch}

/-- What the transitions of an automaton do to the slots. -/
structure SettlesSlots (t : Tree) (a : Automaton) : Prop where
  /-- No successor of a step both sets and clears a slot. -/
  successor : ∀ {held mustAdvance d}, d ∈ t.step held mustAdvance → d.boundaries.Consistent
  /-- What expansion has not made leaves all slots alone. -/
  free : ∀ {i}, i < a.transitions.size → ¬a.IsExpansion i → (a.transition i).boundaries = {}
  /-- Where a match is found, no slot is both set and cleared. -/
  final : ∀ {i}, a.IsExpansion i → (a.state (a.transition i).target).isFinal = true →
    (a.transition i).boundaries.Consistent
  /-- Anywhere else, the slots that are both set and cleared are those that one successor sets and
  another one clears, where both read the characters of the transition. -/
  conflict_iff : ∀ {i c slot}, a.IsExpansion i →
    (a.state (a.transition i).target).isFinal = false → c ∈ (a.transition i).on →
    (slot ∈ (a.transition i).boundaries.updates ∧ slot ∈ (a.transition i).boundaries.clears ↔
      ∃ d ∈ t.step (a.state (a.transition i).source).markers
          (a.state (a.transition i).source).mustAdvance,
        ∃ e ∈ t.step (a.state (a.transition i).source).markers
            (a.state (a.transition i).source).mustAdvance,
          d.reads t c = true ∧ e.reads t c = true ∧ slot ∈ d.boundaries.updates ∧
            slot ∈ e.boundaries.clears)
  /-- What is cleared are slots of captures below a loop. -/
  nested : ∀ {i slot}, slot ∈ (a.transition i).boundaries.clears → t.IsNested slot

section Makes

variable (h : a.Makes t o i n s s' b) (ht : t.Regular t.encoding.Fits)
include h ht

theorem Makes.consistent_of_isFinal (hfinal : s'.isFinal = true) :
    (a.transition i).boundaries.Consistent := by
  rw [h.isFinal] at hfinal
  obtain ⟨d, hd, htaken⟩ := ht.taken_of_isFinal h.mem_branches hfinal
  intro slot hupdate hclear
  rw [h.carries.updates, htaken] at hupdate
  rw [h.carries.clears, htaken] at hclear
  obtain ⟨_, hmem, hupdate⟩ := hupdate
  obtain rfl := List.mem_singleton.1 hmem
  obtain ⟨_, hmem, hclear⟩ := hclear
  obtain rfl := List.mem_singleton.1 hmem
  exact (ht.settles_of_mem_step hd).consistent slot hupdate hclear

theorem Makes.conflict_iff {c : CodePoint} {slot : Nat} (hfinal : s'.isFinal = false)
    (hc : c ∈ (a.transition i).on) :
    slot ∈ (a.transition i).boundaries.updates ∧ slot ∈ (a.transition i).boundaries.clears ↔
      ∃ d ∈ t.step s.markers s.mustAdvance, ∃ e ∈ t.step s.markers s.mustAdvance,
        d.reads t c = true ∧ e.reads t c = true ∧ slot ∈ d.boundaries.updates ∧
          slot ∈ e.boundaries.clears := by
  have hreads : b.Reads c := ⟨h.isFinal ▸ hfinal, h.on ▸ hc⟩
  rw [h.carries.updates, h.carries.clears]
  simp only [ht.mem_taken_iff h.mem_branches hreads]
  constructor
  · rintro ⟨⟨d, ⟨hd, hdc⟩, hupdate⟩, e, ⟨he, hec⟩, hclear⟩
    exact ⟨d, hd, e, he, hdc, hec, hupdate, hclear⟩
  · rintro ⟨d, hd, e, he, hdc, hec, hupdate, hclear⟩
    exact ⟨⟨d, ⟨hd, hdc⟩, hupdate⟩, e, ⟨he, hec⟩, hclear⟩

theorem Makes.nested {slot : Nat} (hclear : slot ∈ (a.transition i).boundaries.clears) :
    t.IsNested slot := by
  obtain ⟨d, hd, hclear⟩ := h.carries.clears.1 hclear
  exact (ht.settles_of_mem_step (ht.mem_step_of_mem_taken h.mem_branches hd)).nested hclear

end Makes

/-- **What expansion has not made is free.** -/
theorem free_of_not_isExpansion {f : Fixed} {queue : Array Nat} {m₀ m m' : Assembly o}
    (h : Stages t o fl f m₀ m m' a) (hfin : Finishes t o f queue m m' a)
    (hclosure : a.IsClosure t) (ht : t.Regular t.encoding.Fits) (hi : i < a.transitions.size)
    (hnot : ¬a.IsExpansion i) : (a.transition i).boundaries = {} := by
  obtain ⟨hderived, hentries⟩ := h.derived hfin ht
  have htr : a.transitions[i]? = some (a.transition i) := by
    rw [transition, Array.getD_eq_getD_getElem?, Array.getElem?_eq_getElem hi, Option.getD_some]
  by_cases hloose : i ∈ [a.loopBack, a.anchoredReverseEntry, a.unanchoredReverseEntry]
  · rw [hfin.anchoredReverseEntry, hfin.unanchoredReverseEntry] at hloose
    rcases List.mem_cons.1 hloose with rfl | hentry
    · have hloop := (hfin.stands.all_loopBacks hfin.underway.tabled hfin.addLoopBacks).2
      rw [← hfin.transitions, htr] at hloop
      rw [Option.some.inj hloop]
    · rw [transition, hfin.transitions]
      refine hentries i ?_
      simp only [List.mem_cons, List.not_mem_nil, or_false] at hentry
      omega
  refine (hderived (hfin.transitions ▸ htr)).resolve_right ?_
  rintro ⟨k, b, hk, hb, hrenders⟩
  refine hnot ⟨?_, ?_, ?_⟩
  · -- no path starts from the dummy
    refine hfin.ne_dummy_of_key (hfin.loopsBack.keys.symm.trans hk) fun hmarkers ↦ ?_
    obtain ⟨x, hx, horigin⟩ := ht.exists_origin_of_branch hb
    obtain ⟨g, hgroup⟩ := NodeKind.isGroup_iff.1 ht.wrappedRoot_group
    rw [hmarkers, Tree.mem_markers, List.mem_singleton] at hx
    rw [hx, Tree.origin?, hgroup] at horigin
    exact horigin rfl
  · have hcount := hclosure.count_out htr (a.transition i).source
    rw [if_pos ⟨rfl, hloose⟩] at hcount
    exact Array.count_pos_iff.1 (hcount ▸ Nat.one_pos)
  · rw [hfin.unanchored, hfin.advanced]
    exact not_loopBack_of_renders ht (hfin.stands.grows hfin.loopsBack.grows) hb hrenders

/-- **What transitions do to the slots.** A slot is both set and cleared where one successor sets it
and another one clears it that reads the same characters, and nowhere else: no single successor does
both, so no transition does where a match is found, and all that expansion has not made leaves the
slots alone. -/
theorem settlesSlots_ofPattern (htree : Tree.ofPattern o pattern = .ok t)
    (ha : ofTree t o fl = .ok a) : a.SettlesSlots t := by
  have ht := (Tree.regular_of_ofPattern htree).2
  have hclosure := isClosure_ofTree ht ha
  obtain ⟨f, queue, m₀, m, m', hstages, hfin⟩ := exists_stages ht ha
  have hmakes : ∀ {i}, a.IsExpansion i → ∃ n s s' b, a.Makes t o i n s s' b :=
    exists_makes hclosure hfin ht ha
  have hfree : ∀ {i}, i < a.transitions.size → ¬a.IsExpansion i →
      (a.transition i).boundaries = {} :=
    free_of_not_isExpansion hstages hfin hclosure ht
  constructor
  case successor => exact fun hd ↦ (ht.settles_of_mem_step hd).consistent
  case free => exact hfree
  case final =>
    intro i hi hfinal
    obtain ⟨n, s, s', b, h⟩ := hmakes hi
    rw [state_eq h.target] at hfinal
    exact h.consistent_of_isFinal ht hfinal
  case conflict_iff =>
    intro i c slot hi hfinal hc
    obtain ⟨n, s, s', b, h⟩ := hmakes hi
    rw [state_eq h.target] at hfinal
    rw [state_eq h.source]
    exact h.conflict_iff ht hfinal hc
  case nested =>
    intro i slot hclear
    by_cases hi : a.IsExpansion i
    · obtain ⟨n, s, s', b, h⟩ := hmakes hi
      exact h.nested ht hclear
    · have hempty : (a.transition i).boundaries = {} := by
        by_cases hlt : i < a.transitions.size
        · exact hfree hlt hi
        · rw [transition, Array.getD_eq_getD_getElem?,
            Array.getElem?_eq_none (Nat.not_lt.1 hlt)]
          rfl
      rw [hempty] at hclear
      exact absurd hclear (IndexSet.not_mem_empty slot)

/-- A capture in a loop that is captured anew at the end of an iteration. -/
theorem settlesSlots_loop : ∃ t a,
    Tree.ofPattern (roomyOptions false) (.ofString "(a)*") = .ok t ∧
      ofTree t (roomyOptions false) {} = .ok a ∧ a.SettlesSlots t := by
  obtain ⟨t, a, ht, ha, -⟩ := exists_ofPattern (fun _ ↦ true)
    (show (Tree.ofPattern (roomyOptions false) (.ofString "(a)*")).toOption.any _ = true by
      decide +kernel) {}
  exact ⟨t, a, ht, ha, settlesSlots_ofPattern ht ha⟩

/-- A slot that one successor sets and another one clears, where both read the same character, is
set and cleared by a transition. -/
theorem Stands.exists_conflict {f : Fixed} {queue : Array Nat} {m m' : Assembly o} {q slot : Nat}
    {k : MarkerSet × Bool} {d e : Successor} {c : CodePoint} (hq : a.Stands t q k)
    (hfin : Finishes t o f queue m m' a) (ht : t.Regular t.encoding.Fits)
    (hd : d ∈ t.step k.1 k.2) (he : e ∈ t.step k.1 k.2) (hdc : d.reads t c = true)
    (hec : e.reads t c = true) (hprogress : d.isProgress t = false)
    (hupdate : slot ∈ d.boundaries.updates) (hclear : slot ∈ e.boundaries.clears) :
    ∃ i < a.transitions.size, slot ∈ (a.transition i).boundaries.updates ∧
      slot ∈ (a.transition i).boundaries.clears := by
  obtain ⟨b, hb, hc⟩ := (ht.exact_branches k).reads_iff.2 ⟨d, hd, hdc, hprogress⟩
  obtain ⟨tr, htr, hrenders⟩ := hq.exists_edge hfin hb
  have hcarries := hrenders.carries hfin
  obtain ⟨⟨i, hi, rfl⟩, -⟩ := (hq.expands_iff hfin ht).2 htr
  refine ⟨i, ?_, ?_, ?_⟩
  · rw [hfin.out] at hi
    rw [hfin.transitions]
    exact hfin.loopsBack.tabled.out hi
  · exact hcarries.updates.2 ⟨d, (ht.mem_taken_iff hb hc).2 ⟨hd, hdc⟩, hupdate⟩
  · exact hcarries.clears.2 ⟨e, (ht.mem_taken_iff hb hc).2 ⟨he, hec⟩, hclear⟩

/-- Of two alternatives in a loop that read the same character one sets the slots of its capture,
and the other one, like any iteration, clears them. -/
theorem conflict_alternatives : ∃ t a,
    Tree.ofPattern {} (.ofString "(?:(a)|a)*") = .ok t ∧ ofTree t {} {} = .ok a ∧
      ∃ i < a.transitions.size, ∃ slot, slot ∈ (a.transition i).boundaries.updates ∧
        slot ∈ (a.transition i).boundaries.clears := by
  obtain ⟨t, a, ht, ha, hp⟩ := exists_ofPattern
    (fun t ↦
      let held := t.markers [t.start false 0]
      let successors := (t.track held (t.firstWays held false)).toList
      successors.any fun d ↦ successors.any fun e ↦ decide (d.reads t 0x61 = true ∧
        e.reads t 0x61 = true ∧ d.isProgress t = false ∧ 2 ∈ d.boundaries.updates.toList ∧
          2 ∈ e.boundaries.clears.toList))
    (show (Tree.ofPattern {} (.ofString "(?:(a)|a)*")).toOption.any _ = true by
      decide +kernel) {}
  have h := (Tree.regular_of_ofPattern ht).2
  obtain ⟨f, queue, m, m', hfin⟩ := exists_of_ofTree h ha
  dsimp only at hp
  rw [← Tree.step_eq_track_ways h.forest h.fits] at hp
  obtain ⟨d, hd, hp⟩ := List.any_eq_true.1 hp
  obtain ⟨e, he, hp⟩ := List.any_eq_true.1 hp
  obtain ⟨hdc, hec, hprogress, hupdate, hclear⟩ := of_decide_eq_true hp
  have hq : a.Stands t (a.initial false 0) (t.startKey {} false 0) :=
    stands_initial hfin h (Nat.zero_le _)
  obtain ⟨i, hi, hconflict⟩ := hq.exists_conflict hfin h (Array.mem_toList_iff.1 hd)
    (Array.mem_toList_iff.1 he) hdc hec hprogress (IndexSet.mem_toList.1 hupdate)
    (IndexSet.mem_toList.1 hclear)
  exact ⟨t, a, ht, ha, i, hi, 2, hconflict⟩

end Automaton

end PatternAutomata
