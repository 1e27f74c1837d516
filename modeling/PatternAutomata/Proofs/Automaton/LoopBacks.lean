import PatternAutomata.Proofs.Automaton.Realize

/-!
# Loop-backs

Whatever leaves a state within the pattern is a transition of a branch of its step or a loop-back,
and no loop-back is missing. One more loop-back leaves no state: it skips characters where no lead
is left, one by one, as often as it is taken.
-/

namespace PatternAutomata

variable {t : Tree} {o : Options} {fl : Flags}

namespace Assembly

variable {f : Fixed} {m m' m₁ : Assembly o} {i : Nat} {tr : Transition} {loose : List Nat}

theorem LoopsBack.mem_edges (h : LoopsBack t f loose m m') {q : Nat} (htr : tr ∈ m.edges q) :
    tr ∈ m'.edges q := by
  obtain ⟨back, hedges, -⟩ := h.edges q
  rw [hedges]
  exact List.mem_append_left back htr

theorem mem_edges_skip (h : Tabled m) {source target : Nat} (hsource : source < m.states.size)
    (hok : m.connectFreely t source target = .ok (i, m')) :
    { source, target, on := t.encoding.fullSet } ∈ (m'.addOut source i).edges source := by
  rw [(h.connect_addOut hsource hok).2.appends source, if_pos rfl]
  exact List.mem_append_right _ (List.mem_singleton_self _)

theorem getElem?_connectFreely {source target : Nat}
    (hok : m.connectFreely t source target = .ok (i, m')) :
    m'.transitions[i]? = some { source, target, on := t.encoding.fullSet } := by
  obtain ⟨rfl, rfl⟩ := connect_eq hok
  exact Array.getElem?_push_size

/-- Where a search skips characters without end. -/
def Fixed.shortest (f : Fixed) : Nat := f.advanced.getD (f.unanchored.states.getD 0 0)

theorem Fixed.Stands.getD_lt (hf : f.Stands t o m) (h : LoopsBack t f [] m m₁) {lead : Nat}
    (hlead : lead ≤ t.leadLength) : f.unanchored.states.getD lead 0 < m₁.states.size :=
  lt_of_key (h.grows.keys (hf.unanchored.key_getD (Nat.lt_succ_of_le hlead)))

/-- **All loop-backs are added.** -/
theorem Fixed.Stands.all_loopBacks (hf : f.Stands t o m) (h : Tabled m) {loopBack : Nat}
    (hok : m.addLoopBacks t f = .ok (loopBack, m')) :
    (∀ {tr}, LoopBack t f.unanchored.states f.advanced tr → tr ∈ m'.edges tr.source) ∧
      m'.transitions[loopBack]? = some
        { source := f.shortest, target := f.shortest, on := t.encoding.fullSet } := by
  unfold Assembly.addLoopBacks at hok
  obtain ⟨m₁, hrest, hok⟩ := exists_of_bind_eq_ok hok
  have hleads : LoopsBack t f [] m m₁ ∧ ∀ lead < t.leadLength,
      { source := f.unanchored.states.getD (lead + 1) 0, target := f.unanchored.states.getD lead 0
        on := t.encoding.fullSet } ∈ m₁.edges (f.unanchored.states.getD (lead + 1) 0) := by
    refine of_foldlM_range_eq_ok (fun n m₁ ↦ LoopsBack t f [] m m₁ ∧ ∀ lead < n,
      { source := f.unanchored.states.getD (lead + 1) 0, target := f.unanchored.states.getD lead 0
        on := t.encoding.fullSet } ∈ m₁.edges (f.unanchored.states.getD (lead + 1) 0))
      ⟨.refl h, nofun⟩ ?_ hrest
    rintro lead m₂ m₃ hlt ⟨hloops, hmem⟩ hskip
    obtain ⟨⟨id, m₄⟩, hconnect, hskip⟩ := exists_of_bind_eq_ok hskip
    cases hskip
    have hsource := hf.getD_lt hloops (Nat.succ_le_of_lt hlt)
    have hloop := LoopsBack.skip hloops.tabled hsource (f := f) (.shorten hlt) hconnect
    refine ⟨hloops.trans hloop, fun lead' hlead' ↦ ?_⟩
    rcases Nat.lt_succ_iff_lt_or_eq.1 hlead' with hlead' | rfl
    · exact hloop.mem_edges (hmem lead' hlead')
    · exact mem_edges_skip hloops.tabled hsource hconnect
  obtain ⟨hloops, hmem⟩ := hleads
  unfold Fixed.shortest
  dsimp only at hok
  split at hok
  · next hadvanced =>
    rw [hadvanced]
    have hlast := LoopsBack.connectFreely (f := f) hloops.tabled hok
    refine ⟨fun hloop ↦ ?_, getElem?_connectFreely hok⟩
    cases hloop with
    | shorten hlead => exact hlast.mem_edges (hmem _ hlead)
    | advance hadvanced' => cases hadvanced'
  · next advanced hadvanced =>
    obtain ⟨m₂, hskip, hok⟩ := exists_of_bind_eq_ok hok
    obtain ⟨⟨id, m₃⟩, hconnect, hskip⟩ := exists_of_bind_eq_ok hskip
    cases hskip
    have hsource := hf.getD_lt hloops (Nat.zero_le _)
    have hloop := LoopsBack.skip hloops.tabled hsource (f := f) (.advance hadvanced) hconnect
    have hlast := LoopsBack.connectFreely (f := f) hloop.tabled hok
    rw [hadvanced]
    refine ⟨fun hback ↦ hlast.mem_edges ?_, getElem?_connectFreely hok⟩
    cases hback with
    | shorten hlead => exact hloop.mem_edges (hmem _ hlead)
    | advance hadvanced' =>
      obtain rfl := Option.some.inj hadvanced'
      exact mem_edges_skip hloops.tabled hsource hconnect

end Assembly

namespace Automaton

open Assembly

variable {a : Automaton} {q : Nat} {k : MarkerSet × Bool} {tr : Transition}

/-- A search that starts within the pattern is not over at once. -/
theorem Stands.isFinal_eq_false (h : t.Regular t.encoding.Fits) (hok : ofTree t o fl = .ok a)
    (hq : a.Stands t q k) : (a.state q).isFinal = false := by
  obtain ⟨f, queue, m, m', hfin⟩ := exists_of_ofTree h hok
  rw [hfin.isFinal_eq, ← Bool.not_eq_true, hfin.underway.labelled (hq.key_eq_some hfin)]
  exact hq.inside

/-- **What leaves a state** are the transitions that expansion has made and the loop-backs. -/
theorem leaves_iff (h : t.Regular t.encoding.Fits) (hok : ofTree t o fl = .ok a)
    (hq : a.Stands t q k) : (∃ i ∈ (a.state q).out, a.transition i = tr) ↔
      a.Expands q tr ∨ tr.source = q ∧ LoopBack t a.unanchored.states a.advanced tr := by
  obtain ⟨f, queue, m, m', hfin⟩ := exists_of_ofTree h hok
  have hf := hfin.stands
  obtain ⟨back, hedges, hback⟩ := hfin.loopsBack.edges q
  rw [hfin.unanchored, hfin.advanced]
  constructor
  · intro hleave
    have hmem := hfin.leaves_iff.1 hleave
    rw [hedges, List.mem_append] at hmem
    rcases hmem with hmem | hmem
    · obtain ⟨b, hb, hrenders⟩ := hq.exists_branch hfin hmem
      have hnot := not_loopBack_of_renders h hf hb hrenders
      rw [← hfin.unanchored, ← hfin.advanced] at hnot
      exact .inl ⟨hleave, hnot⟩
    · exact .inr (hback tr hmem)
  · rintro (hexpands | ⟨rfl, hloop⟩)
    · exact hexpands.1
    · exact hfin.leaves_iff.2 ((hf.all_loopBacks hfin.underway.tabled hfin.addLoopBacks).1 hloop)

/-- Where matches may be empty, no state comes behind the one of no lead. -/
theorem advanced_eq_none (h : t.Regular t.encoding.Fits) (hok : ofTree t o fl = .ok a)
    (hmust : o.mustAdvance = false) : a.advanced = none := by
  obtain ⟨f, queue, m, m', hfin⟩ := exists_of_ofTree h hok
  rw [hfin.advanced]
  by_contra hne
  obtain ⟨id, hid⟩ := Option.ne_none_iff_exists'.1 hne
  have htrue := (hfin.stands.advanced id hid).1
  rw [hmust] at htrue
  cases htrue

theorem transition_loopBack (h : t.Regular t.encoding.Fits) (hok : ofTree t o fl = .ok a)
    (hmust : o.mustAdvance = false) : a.transition a.loopBack =
      { source := a.initial false 0, target := a.initial false 0, on := t.encoding.fullSet } := by
  have hnone := advanced_eq_none h hok hmust
  obtain ⟨f, queue, m, m', hfin⟩ := exists_of_ofTree h hok
  have hget := (hfin.stands.all_loopBacks hfin.underway.tabled hfin.addLoopBacks).2
  rw [Fixed.shortest, ← hfin.advanced, hnone, Option.getD_none, ← hfin.unanchored] at hget
  rw [transition, Array.getD_eq_getD_getElem?, hfin.transitions, hget]
  rfl

theorem initial_mem (h : t.Regular t.encoding.Fits) (hok : ofTree t o fl = .ok a) {lead : Nat}
    (hlead : lead ≤ t.leadLength) : a.initial false lead ∈ a.unanchored.states := by
  obtain ⟨f, queue, m, m', hfin⟩ := exists_of_ofTree h hok
  have hmem := hfin.stands.mem_unanchored hlead
  rwa [← hfin.unanchored] at hmem

theorem Realizes.initial_inj (hr : a.Realizes t o) (h : t.Regular t.encoding.Fits)
    {lead lead' : Nat} (hlead : lead ≤ t.leadLength) (hlead' : lead' ≤ t.leadLength)
    (heq : a.initial false lead = a.initial false lead') : lead = lead' := by
  have hstands : ∀ n ≤ t.leadLength, a.Stands t (a.initial false n) (t.startKey o false n) :=
    fun n hn ↦ hr.initial hn
  have hkey := (hstands lead hlead).key
  rw [heq, (hstands lead' hlead').key] at hkey
  exact (h.startKey_inj hlead' hlead (Option.some.inj hkey)).2.symm

end Automaton

end PatternAutomata
