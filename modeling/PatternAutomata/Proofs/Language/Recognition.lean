import Mathlib.Data.List.Forall2
import PatternAutomata.Proofs.Automaton.Room
import PatternAutomata.Proofs.Language.Distance
import PatternAutomata.Proofs.Language.Runs

/-!
# Automata recognize patterns

The automaton of a pattern finds a match on a word, without skipping any of it, just if the pattern
matches the word behind the lead. On the way its states tell how far look-behind bodies have been
matched.

A match that must advance is found on every word but the empty one. The lead counts as well: once a
character of the lead has been read, an empty match behind it is found.
-/

namespace PatternAutomata

variable {o : Options} {pattern : Bytes} {t : Tree} {fl : Flags} {a : Automaton} {lead p : Nat}
  {v w : List CodePoint} {anchored : Bool}

/-! ## Recognition -/

namespace Automaton

section pattern

variable (ht : Tree.ofPattern o pattern = .ok t) (ha : ofTree t o fl = .ok a)
  (hlead : lead ≤ t.leadLength)
include ht ha hlead

theorem starts_ofPattern (anchored : Bool) : t.Regular t.encoding.Fits ∧ a.Realizes t o ∧
    (t.node (t.start (anchored && !t.carets.isEmpty) lead)).kind =
      .marker (anchored && !t.carets.isEmpty) lead ∧
    a.Stands t (a.initial anchored lead)
      (t.markers [t.start (anchored && !t.carets.isEmpty) lead], o.mustAdvance) := by
  have h := (Tree.regular_of_ofPattern ht).2
  have hr := realizes_ofTree h ha
  exact ⟨h, hr, h.start_kind hlead, hr.initial hlead⟩

/-- Runs find matches, unless nothing has been read where a match must advance. -/
theorem exists_accepting_run_iff_matches (hw : ∀ c ∈ w, c ∈ o.encoding.fullSet)
    (hlength : lead ≤ w.length) :
    (∃ p, a.Runs (a.initial anchored lead) w p ∧ a.Accepts p) ↔
      (o.mustAdvance = true → w ≠ []) ∧ t.Matches w anchored (.node t.root) lead w.length := by
  obtain ⟨h, hr, hkind, hstands⟩ := starts_ofPattern ht ha hlead anchored
  rw [← (Tree.regular_of_ofPattern ht).1] at hw
  rw [hr.exists_accepting_run_iff h hkind hstands, h.finds_iff_matches hw hlead hlength,
    (Tree.Finished.ofPattern ht).matches_anchored_iff]

/-- **Automata recognize what patterns match.** There is at most one run on a word, and it exists
and finds a match just if the root matches all of the word behind the lead. -/
theorem recognizes_ofPattern (hmust : o.mustAdvance = false)
    (hw : ∀ c ∈ w, c ∈ o.encoding.fullSet) (hlength : lead ≤ w.length) :
    (∀ p p', a.Runs (a.initial anchored lead) w p → a.Runs (a.initial anchored lead) w p' →
      p = p') ∧
    ((∃ p, a.Runs (a.initial anchored lead) w p ∧ a.Accepts p) ↔
      t.Matches w anchored (.node t.root) lead w.length) := by
  obtain ⟨h, hr, -, hstands⟩ := starts_ofPattern ht ha hlead anchored
  refine ⟨fun p p' hrun hrun' ↦ hr.runs_unique h hstands hrun hrun', ?_⟩
  rw [exists_accepting_run_iff_matches ht ha hlead hw hlength, hmust]
  exact and_iff_right nofun

end pattern

/-! ### An assertion about the lead

The pattern is one look-behind assertion and nothing else: all of a match of it is in the lead. -/

theorem exists_lookBehind (mustAdvance : Bool) :
    ∃ t a, Tree.ofPattern (roomyOptions mustAdvance) (.ofString "(?<=a)") = .ok t ∧
      ofTree t (roomyOptions mustAdvance) {} = .ok a ∧ 1 ≤ t.leadLength ∧ 5 ∈ t.lookBehinds ∧
        (t.body 5)[0]? = some 4 ∧ t.Matches [0x61] false (.node t.root) 1 1 := by
  obtain ⟨t, a, ht, ha, hp⟩ := exists_ofPattern
    (fun t ↦ decide (1 ≤ t.leadLength ∧ 5 ∈ t.lookBehinds ∧ t.body 5 = #[4] ∧
      (t.node 4).kind = .chars (.range 0x61 0x61) (some 5) ∧ (t.node 5).kind = .lookBehind 1 ∧
      (t.node 1).kind = .sequence ∧ (t.node 1).children = #[5] ∧
      (t.node 0).kind = .group { capture := some 0 } ∧ (t.node 0).children = #[1] ∧ t.root = 0))
    (show (Tree.ofPattern (roomyOptions mustAdvance) (.ofString "(?<=a)")).toOption.any _ = true
      by cases mustAdvance <;> decide +kernel) {}
  obtain ⟨hlead, hmem, hbody, hchars, hlookBehind, hsequence, hterms, hgroup, halternatives,
    hroot⟩ := of_decide_eq_true hp
  refine ⟨t, a, ht, ha, hlead, hmem, by rw [hbody]; rfl, ?_⟩
  have hprecedes : t.Precedes [0x61] 1 5 := by
    refine ⟨by rw [hbody]; exact Nat.le_refl 1, fun {j x} hx ↦ ?_⟩
    rw [hbody] at hx ⊢
    obtain ⟨hj, rfl⟩ := Array.getElem?_eq_some_iff.1 hx
    obtain rfl : j = 0 := Nat.lt_one_iff.1 hj
    exact ⟨0x61, rfl, _, _, hchars, by decide⟩
  rw [hroot]
  refine .choice hgroup rfl (c := 1) (by rw [halternatives]; exact Array.mem_singleton.2 rfl)
    (.sequence hsequence ?_)
  rw [hterms]
  exact .cons (.lookBehind hlookBehind hprecedes) .nil

theorem recognizes_lookBehind :
    ∃ t a, Tree.ofPattern (roomyOptions false) (.ofString "(?<=a)") = .ok t ∧
      ofTree t (roomyOptions false) {} = .ok a ∧
        ∃ p, a.Runs (a.initial false 1) [0x61] p ∧ a.Accepts p := by
  obtain ⟨t, a, ht, ha, hlead, -, -, hmatches⟩ := exists_lookBehind false
  refine ⟨t, a, ht, ha, ?_⟩
  exact (recognizes_ofPattern ht ha hlead rfl (List.forall_mem_singleton.2 (by decide))
    (Nat.le_refl 1)).2.2 hmatches

/-! ## Matches that must advance -/

section mustAdvance

variable {t' : Tree} {a' : Automaton} {fl' : Flags}

/-- **What is lost when a match must advance is what would be found on the empty word.** On all
other words the same is found, also if no more than the lead has been read. -/
theorem accepts_mustAdvance_iff
    (ht : Tree.ofPattern { o with mustAdvance := true } pattern = .ok t)
    (ha : ofTree t { o with mustAdvance := true } fl = .ok a)
    (ht' : Tree.ofPattern { o with mustAdvance := false } pattern = .ok t')
    (ha' : ofTree t' { o with mustAdvance := false } fl' = .ok a') (hlead : lead ≤ t.leadLength) :
    (∃ p, a.Runs (a.initial anchored lead) w p ∧ a.Accepts p) ↔
      (∃ p, a'.Runs (a'.initial anchored lead) w p ∧ a'.Accepts p) ∧ w ≠ [] := by
  -- having to advance makes no difference to the tree
  have hsame : Tree.ofPattern { o with mustAdvance := true } pattern =
      Tree.ofPattern { o with mustAdvance := false } pattern :=
    Tree.ofPattern_congr pattern rfl rfl
  obtain rfl : t = t' := Except.ok.inj (ht.symm.trans (hsame.trans ht'))
  obtain ⟨h, hr, hkind, hstands⟩ := starts_ofPattern ht ha hlead anchored
  obtain ⟨-, hr', -, hstands'⟩ := starts_ofPattern ht' ha' hlead anchored
  rw [hr.exists_accepting_run_iff h hkind hstands, hr'.exists_accepting_run_iff h hkind hstands']
  constructor
  · rintro ⟨hadvance, hfinds⟩
    exact ⟨⟨nofun, hfinds⟩, hadvance rfl⟩
  · rintro ⟨⟨-, hfinds⟩, hne⟩
    exact ⟨fun _ ↦ hne, hfinds⟩

/-- Both searches find the empty match behind the character of the lead. -/
theorem accepts_mustAdvance_lookBehind : ∃ t a t' a',
    Tree.ofPattern (roomyOptions true) (.ofString "(?<=a)") = .ok t ∧
    ofTree t (roomyOptions true) {} = .ok a ∧
    Tree.ofPattern (roomyOptions false) (.ofString "(?<=a)") = .ok t' ∧
    ofTree t' (roomyOptions false) {} = .ok a' ∧
      ((∃ p, a.Runs (a.initial false 1) [0x61] p ∧ a.Accepts p) ↔
        (∃ p, a'.Runs (a'.initial false 1) [0x61] p ∧ a'.Accepts p) ∧
          [(0x61 : CodePoint)] ≠ []) := by
  obtain ⟨t, a, ht, ha, hlead, -⟩ := exists_lookBehind true
  obtain ⟨t', a', ht', ha', -⟩ := exists_lookBehind false
  exact ⟨t, a, t', a', ht, ha, ht', ha',
    accepts_mustAdvance_iff (o := roomyOptions false) ht ha ht' ha' hlead⟩

/-- **An empty match behind the lead is found although a match must advance**: on the one character
of the lead, a match of `(?<=a)` is found, and nothing has been read behind the lead. -/
theorem accepts_empty_match_behind_lead : ∃ t a t' a',
    Tree.ofPattern (roomyOptions true) (.ofString "(?<=a)") = .ok t ∧
    ofTree t (roomyOptions true) {} = .ok a ∧
    Tree.ofPattern (roomyOptions false) (.ofString "(?<=a)") = .ok t' ∧
    ofTree t' (roomyOptions false) {} = .ok a' ∧ 1 ≤ t.leadLength ∧
      ¬((∃ p, a.Runs (a.initial false 1) [0x61] p ∧ a.Accepts p) ↔
        (∃ p, a'.Runs (a'.initial false 1) [0x61] p ∧ a'.Accepts p) ∧
          [(0x61 : CodePoint)].length > 1) := by
  obtain ⟨t, a, ht, ha, hlead, -, -, hmatches⟩ := exists_lookBehind true
  obtain ⟨t', a', ht', ha', -⟩ := exists_lookBehind false
  refine ⟨t, a, t', a', ht, ha, ht', ha', hlead, fun hiff ↦ ?_⟩
  have hfound : ∃ p, a.Runs (a.initial false 1) [0x61] p ∧ a.Accepts p :=
    (exists_accepting_run_iff_matches ht ha hlead (List.forall_mem_singleton.2 (by decide))
      (Nat.le_refl 1)).2 ⟨nofun, hmatches⟩
  exact absurd (hiff.1 hfound).2 (by decide)

end mustAdvance

end Automaton

/-! ## Look-behind bodies -/

namespace Tree

variable {l j x : Nat}

/-- A body has been matched up to one of its classes when the last characters are in the classes so
far, in order. -/
theorem partway_iff_forall₂ (hx : (t.body l)[j]? = some x) :
    t.Partway v v.length l j ↔ j + 1 ≤ v.length ∧
      List.Forall₂ t.Reads ((t.body l).toList.take (j + 1)) (v.drop (v.length - (j + 1))) := by
  have hj : j < (t.body l).size := (Array.getElem?_eq_some_iff.1 hx).1
  have hget : ∀ {i : Nat} (hi : i < (t.body l).size), (t.body l)[i]? = some (t.body l)[i] :=
    fun hi ↦ Array.getElem?_eq_getElem hi
  rw [List.forall₂_iff_get]
  simp only [List.length_take, Array.length_toList, List.length_drop, List.get_eq_getElem,
    List.getElem_take, Array.getElem_toList, List.getElem_drop]
  constructor
  · intro h
    have hlt := h.lt
    refine ⟨hlt, by omega, fun i hi hi' ↦ ?_⟩
    obtain ⟨c, hc, hreads⟩ := h.reads (by omega) (hget (by omega : i < _))
    obtain ⟨_, rfl⟩ := List.getElem?_eq_some_iff.1 hc
    exact hreads
  · rintro ⟨hlt, -, hreads⟩
    refine ⟨hlt, fun {i y} hi hy ↦ ?_⟩
    obtain ⟨hsize, rfl⟩ := Array.getElem?_eq_some_iff.1 hy
    exact ⟨_, List.getElem?_eq_getElem (by omega), hreads i (by omega) (by omega)⟩

end Tree

namespace Automaton

/-- **States keep track of look-behind bodies.** After a run, the state holds a class of a body just
if the last characters that have been read are in the classes of the body up to that one. -/
theorem mem_markers_iff_of_runs (ht : Tree.ofPattern o pattern = .ok t)
    (ha : ofTree t o fl = .ok a) (hlead : lead ≤ t.leadLength)
    (hrun : a.Runs (a.initial anchored lead) v p) {l j x : Nat} (hl : l ∈ t.lookBehinds)
    (hx : (t.body l)[j]? = some x) :
    x ∈ (a.state p).markers.members ↔ j + 1 ≤ v.length ∧
      List.Forall₂ t.Reads ((t.body l).toList.take (j + 1)) (v.drop (v.length - (j + 1))) := by
  obtain ⟨h, hr, hkind, hstands⟩ := starts_ofPattern ht ha hlead anchored
  obtain ⟨held, hp, htracks⟩ := hr.tracks_of_runs h hkind hstands hrun (List.prefix_refl v)
  obtain ⟨s, hs, hkey⟩ := Option.map_eq_some_iff.1 hp.key
  rw [← Tree.partway_iff_forall₂ hx, ← htracks.body hl hx, state, Array.getD_eq_getD_getElem?, hs,
    Option.getD_some, show s.markers = held from congrArg Prod.fst hkey]

/-- After the one character of the lead, the body of `(?<=a)` has been matched. -/
theorem mem_markers_lookBehind :
    ∃ t a p, Tree.ofPattern (roomyOptions false) (.ofString "(?<=a)") = .ok t ∧
      ofTree t (roomyOptions false) {} = .ok a ∧ a.Runs (a.initial false 1) [0x61] p ∧
        5 ∈ t.lookBehinds ∧ (t.body 5)[0]? = some 4 ∧ (4 ∈ (a.state p).markers.members ↔
          0 + 1 ≤ [(0x61 : CodePoint)].length ∧
            List.Forall₂ t.Reads ((t.body 5).toList.take (0 + 1)) [0x61]) := by
  obtain ⟨t, a, ht, ha, hlead, hl, hx, hmatches⟩ := exists_lookBehind false
  obtain ⟨p, hrun, -⟩ :=
    (exists_accepting_run_iff_matches ht ha hlead (List.forall_mem_singleton.2 (by decide))
      (Nat.le_refl 1)).2 ⟨nofun, hmatches⟩
  exact ⟨t, a, p, ht, ha, hrun, hl, hx, mem_markers_iff_of_runs ht ha hlead hrun hl hx⟩

end Automaton

end PatternAutomata
