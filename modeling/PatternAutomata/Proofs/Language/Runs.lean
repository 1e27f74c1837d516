import PatternAutomata.Proofs.Automaton.Realize
import PatternAutomata.Proofs.Language.Tracks

/-!
# Runs of automata

A run reads a word by transitions that expansion has made, without ever skipping a character. The
state that it comes to holds markers that keep track of all walks, so a match is found there just if
walks find one. That is, unless the run is still where it has started and a match must advance.
-/

namespace PatternAutomata

namespace Automaton

/-- A run from a state on a word: each character takes a transition that expansion has made, and no
final state is entered. -/
inductive Runs (a : Automaton) (q : Nat) : List CodePoint → Nat → Prop
  | nil : Runs a q [] q
  | snoc {v : List CodePoint} {c : CodePoint} {p : Nat} {tr : Transition} : Runs a q v p →
      a.Expands p tr → (a.state tr.target).isFinal = false → c ∈ tr.on →
      Runs a q (v ++ [c]) tr.target

/-- A match is found at a state: expansion has made a transition from there to a final state. -/
def Accepts (a : Automaton) (q : Nat) : Prop :=
  ∃ tr, a.Expands q tr ∧ (a.state tr.target).isFinal = true

end Automaton

variable {t : Tree} {o : Options} {a : Automaton} {w v : List CodePoint}
  {anchored mustAdvance : Bool} {source lead k q p : Nat} {held : MarkerSet}

namespace Tree

theorem Regular.tracks_start {ok : CodePointSet → Prop} (h : t.Regular ok)
    (hsource : (t.node source).kind = .marker anchored lead) :
    t.Tracks w anchored source 0 (t.markers [source]) := by
  have hmem : ∀ {x}, x ∈ (t.markers [source]).members ↔ x = source :=
    mem_markers.trans List.mem_singleton
  refine ⟨fun {x set} hkind ↦ ?_, fun {x lead' isAnchored} hkind ↦ ?_, fun {l j x} hl hx ↦ ?_⟩
  · have hne : x ≠ source := by
      rintro rfl
      cases hkind.symm.trans hsource
    refine iff_of_false (fun hx ↦ hne (hmem.1 hx)) fun hwalk ↦ ?_
    obtain ⟨s, -, -, hs, -⟩ := (walks_back_iff hkind hne).1 hwalk
    cases hs
  · rw [hmem]
    exact (and_iff_right rfl).symm
  · refine iff_of_false (fun hheld ↦ ?_) fun hpartway ↦ Nat.not_lt_zero j hpartway.lt
    obtain ⟨-, set, hset⟩ := h.body hl (Array.mem_of_getElem? hx)
    rw [hmem.1 hheld] at hset
    cases hsource.symm.trans hset

end Tree

namespace Automaton

section runs

variable (h : t.Regular t.encoding.Fits) (hr : a.Realizes t o)
  (hsource : (t.node source).kind = .marker anchored lead)
  (hstart : a.Stands t q (t.markers [source], o.mustAdvance))
include h hr hsource hstart

/-- **A run comes to markers that keep track of walks.** -/
theorem Realizes.tracks_of_runs (hrun : a.Runs q v p) (hpre : v <+: w) :
    ∃ held, a.Stands t p (held, o.mustAdvance && v.isEmpty) ∧
      t.Tracks w anchored source v.length held := by
  induction hrun with
  | nil =>
    rw [List.isEmpty_nil, Bool.and_true]
    exact ⟨_, hstart, h.tracks_start hsource⟩
  | @snoc v c p tr _ htr hfinal hc ih =>
    obtain ⟨rest, rfl⟩ := hpre
    obtain ⟨held, hstands, htracks⟩ := ih ⟨c :: rest, by simp⟩
    obtain ⟨b, hb, hrenders⟩ := hr.sound hstands htr
    have hbfinal := hrenders.final.symm.trans hfinal
    rw [hrenders.on] at hc
    refine ⟨t.targetOf (held, o.mustAdvance && v.isEmpty) b, ?_, ?_⟩
    · rw [show (o.mustAdvance && (v ++ [c]).isEmpty) = false by simp]
      exact hrenders.stands hbfinal
    · rw [List.length_append, List.length_singleton]
      exact h.tracks_targetOf hsource htracks hb (by simp) ⟨hbfinal, hc⟩

/-- **A run exists as long as walks can go on.** -/
theorem Realizes.exists_runs (hk : k ≤ w.length) {x : Nat} (hx : t.Pauses w anchored source k x) :
    ∃ p, a.Runs q (w.take k) p := by
  induction k generalizing x with
  | zero => exact ⟨q, .nil⟩
  | succ k ih =>
    rcases hx with ⟨hzero, -⟩ | ⟨⟨set, hkind⟩, hwalk⟩
    · cases hzero
    have hne : x ≠ source := by
      rintro rfl
      cases hkind.symm.trans hsource
    obtain ⟨s, c, r, hs, hc, hset, hwalk⟩ := (Tree.walks_back_iff hkind hne).1 hwalk
    obtain rfl := Nat.succ.inj hs
    -- the walk has paused before, so a run has come here, and the character leads it on
    obtain ⟨y, hy, -⟩ := h.exists_pauses hsource hwalk
    obtain ⟨p, hrun⟩ := ih (Nat.le_of_succ_le hk) hy
    obtain ⟨held, hstands, htracks⟩ :=
      hr.tracks_of_runs h hsource hstart hrun (List.take_prefix k w)
    rw [List.length_take_of_le (Nat.le_of_succ_le hk)] at htracks
    obtain ⟨b, hb, hreads⟩ := h.exists_branch_of_walks hsource htracks hc hkind hset hwalk
    obtain ⟨tr, htr, hrenders⟩ := hr.complete hstands hb
    refine ⟨tr.target, ?_⟩
    rw [List.take_add_one, hc, Option.toList_some]
    exact hrun.snoc htr (hrenders.final.trans hreads.1) (hrenders.on ▸ hreads.2)

omit hstart in
theorem Realizes.accepts_iff (hstands : a.Stands t p (held, mustAdvance))
    (htracks : t.Tracks w anchored source w.length held) :
    a.Accepts p ↔ mustAdvance = false ∧ t.Finds w anchored (.back source) 0 := by
  rw [← h.exists_final_branch_iff hsource htracks rfl]
  constructor
  · rintro ⟨tr, htr, hfinal⟩
    obtain ⟨b, hb, hrenders⟩ := hr.sound hstands htr
    exact ⟨b, hb, hrenders.final.symm.trans hfinal⟩
  · rintro ⟨b, hb, hfinal⟩
    obtain ⟨tr, htr, hrenders⟩ := hr.complete hstands hb
    exact ⟨tr, htr, hrenders.final.trans hfinal⟩

/-- **Runs find what walks do**, unless nothing has been read where a match must advance. -/
theorem Realizes.exists_accepting_run_iff : (∃ p, a.Runs q w p ∧ a.Accepts p) ↔
    (o.mustAdvance = true → w ≠ []) ∧ t.Finds w anchored (.back source) 0 := by
  have hadvance : (o.mustAdvance && w.isEmpty) = false ↔ (o.mustAdvance = true → w ≠ []) := by
    cases o.mustAdvance <;> simp
  rw [← hadvance]
  constructor
  · rintro ⟨p, hrun, haccepts⟩
    obtain ⟨held, hstands, htracks⟩ :=
      hr.tracks_of_runs h hsource hstart hrun (List.prefix_refl w)
    exact (hr.accepts_iff h hsource hstands htracks).1 haccepts
  · rintro ⟨hadvance, hfinds⟩
    obtain ⟨x, hx, -⟩ := h.exists_pauses hsource hfinds
    obtain ⟨p, hrun⟩ := hr.exists_runs h hsource hstart (Nat.le_refl _) hx
    rw [List.take_length] at hrun
    obtain ⟨held, hstands, htracks⟩ :=
      hr.tracks_of_runs h hsource hstart hrun (List.prefix_refl w)
    exact ⟨p, hrun, (hr.accepts_iff h hsource hstands htracks).2 ⟨hadvance, hfinds⟩⟩

omit hsource hstart in
theorem Realizes.target_unique {k : MarkerSet × Bool} (hq : a.Stands t q k) {c : CodePoint}
    {tr tr' : Transition} (htr : a.Expands q tr) (htr' : a.Expands q tr')
    (hfinal : (a.state tr.target).isFinal = false) (hfinal' : (a.state tr'.target).isFinal = false)
    (hc : c ∈ tr.on) (hc' : c ∈ tr'.on) : tr.target = tr'.target ∧ ∃ k, a.Stands t tr.target k := by
  obtain ⟨b, hb, hrenders⟩ := hr.sound hq htr
  obtain ⟨b', hb', hrenders'⟩ := hr.sound hq htr'
  have hbfinal := hrenders.final.symm.trans hfinal
  have hbfinal' := hrenders'.final.symm.trans hfinal'
  rw [hrenders.on] at hc
  rw [hrenders'.on] at hc'
  obtain rfl := (h.exact_branches k).separate.eq_of_reads hb hb' ⟨hbfinal, hc⟩ ⟨hbfinal', hc'⟩
  exact ⟨hr.inj (hrenders.stands hbfinal) (hrenders'.stands hbfinal), _, hrenders.stands hbfinal⟩

omit hsource in
/-- **There is one run on a word at most.** -/
theorem Realizes.runs_unique (hrun : a.Runs q v p) {p' : Nat} (hrun' : a.Runs q v p') : p = p' := by
  have key : ∀ {p'}, a.Runs q v p' → p = p' ∧ ∃ k, a.Stands t p k := by
    clear hrun' p'
    induction hrun with
    | nil =>
      intro p' hrun'
      generalize hv : ([] : List CodePoint) = v at hrun'
      cases hrun' with
      | nil => exact ⟨rfl, _, hstart⟩
      | snoc => simp at hv
    | @snoc v c p tr _ htr hfinal hc ih =>
      intro p' hrun'
      generalize hv : v ++ [c] = v' at hrun'
      cases hrun' with
      | nil => simp at hv
      | snoc hrun' htr' hfinal' hc' =>
        -- both runs have come to the same state, and read the same character there
        obtain ⟨rfl, hlast⟩ := List.append_inj' hv rfl
        obtain rfl := List.singleton_inj.1 hlast
        obtain ⟨rfl, k, hp⟩ := ih hrun'
        exact hr.target_unique h hp htr htr' hfinal hfinal' hc hc'
  exact (key hrun').1

end runs

end Automaton

end PatternAutomata
