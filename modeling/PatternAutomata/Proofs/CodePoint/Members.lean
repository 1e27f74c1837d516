import PatternAutomata.Proofs.CodePoint.Algebra

/-!
# Canonical sets and their members

Between two ranges of a canonical list there is always a code point that belongs to neither, so the
members of a set leave no choice for its list: sets with the same members are the same set.
-/

namespace PatternAutomata

namespace CodePointSet

variable {c : CodePoint} {r q : CodeRange} {as bs : List CodeRange} {s t : CodePointSet}

instance (s : CodePointSet) : Decidable s.Canonical := inferInstanceAs (Decidable (_ ∧ _))

theorem lo_mem (h : Canonical ⟨r :: as⟩) : r.lo ∈ (⟨r :: as⟩ : CodePointSet) :=
  mem_cons.2 (.inl (CodeRange.mem_iff_toNat.2 ⟨Nat.le_refl _, (canonical_cons.1 h).1⟩))

theorem lo_le_of_mem (h : Canonical ⟨r :: as⟩) (hc : c ∈ (⟨r :: as⟩ : CodePointSet)) :
    r.lo.toNat ≤ c.toNat := by
  obtain ⟨hr, hgap, -⟩ := canonical_cons.1 h
  rcases mem_cons.1 hc with hc | hc
  · exact (CodeRange.mem_iff_toNat.1 hc).1
  · have := lt_of_mem hgap hc
    omega

theorem Canonical.eq_empty_iff (h : s.Canonical) : s = .empty ↔ ∀ c, c ∉ s := by
  obtain ⟨l⟩ := s
  cases l with
  | nil => exact iff_of_true rfl fun _ ↦ not_mem_nil
  | cons r l => exact iff_of_false nofun fun hnone ↦ hnone _ (lo_mem h)

/-- Of two lists that start at the same code point, the first range of one does not end behind that
of the other if its members are among those of the other. -/
theorem hi_le_of_subset (hq : Canonical ⟨q :: bs⟩) (hlo : r.lo.toNat = q.lo.toNat)
    (hsub : ∀ c ∈ (⟨r :: as⟩ : CodePointSet), c ∈ (⟨q :: bs⟩ : CodePointSet)) :
    r.hi.toNat ≤ q.hi.toNat := by
  obtain ⟨hle, hgap, -⟩ := canonical_cons.1 hq
  by_contra hlt
  have hsucc := toNat_succ (UInt32.lt_iff_toNat_lt.2 (Nat.not_le.1 hlt))
  -- the code point behind the shorter range is in the gap
  have hmem : q.hi + 1 ∈ (⟨r :: as⟩ : CodePointSet) :=
    mem_cons.2 (.inl (CodeRange.mem_iff_toNat.2 ⟨by omega, by omega⟩))
  rcases mem_cons.1 (hsub _ hmem) with hc | hc
  · have := (CodeRange.mem_iff_toNat.1 hc).2
    omega
  · have := lt_of_mem hgap hc
    omega

theorem mem_tail_iff (h : Canonical ⟨r :: as⟩) :
    c ∈ (⟨as⟩ : CodePointSet) ↔ c ∈ (⟨r :: as⟩ : CodePointSet) ∧ r.hi.toNat < c.toNat := by
  obtain ⟨-, hgap, -⟩ := canonical_cons.1 h
  rw [mem_cons, CodeRange.mem_iff_toNat]
  constructor
  · intro hc
    have := lt_of_mem hgap hc
    exact ⟨.inr hc, by omega⟩
  · rintro ⟨hc | hc, hlt⟩
    · omega
    · exact hc

/-- **A canonical set is known by its members.** -/
theorem Canonical.ext (hs : s.Canonical) (ht : t.Canonical) (h : ∀ c, c ∈ s ↔ c ∈ t) : s = t := by
  obtain ⟨as⟩ := s
  obtain ⟨bs⟩ := t
  rw [mk.injEq]
  induction as generalizing bs with
  | nil =>
    have hempty := ht.eq_empty_iff.2 fun c hc ↦ not_mem_nil ((h c).2 hc)
    exact (congrArg ranges hempty).symm
  | cons r as ih =>
    cases bs with
    | nil => exact absurd ((h _).1 (lo_mem hs)) not_mem_nil
    | cons q bs =>
      have hlo : r.lo.toNat = q.lo.toNat := Nat.le_antisymm
        (lo_le_of_mem hs ((h _).2 (lo_mem ht))) (lo_le_of_mem ht ((h _).1 (lo_mem hs)))
      have hhi : r.hi.toNat = q.hi.toNat := Nat.le_antisymm
        (hi_le_of_subset ht hlo fun c ↦ (h c).1)
        (hi_le_of_subset hs hlo.symm fun c ↦ (h c).2)
      have hrest : as = bs := by
        refine ih (canonical_cons.1 hs).2.2 bs (canonical_cons.1 ht).2.2 fun c ↦ ?_
        rw [mem_tail_iff hs, mem_tail_iff ht, h, hhi]
      have hfirst : r = q := by
        cases r
        cases q
        exact congrArg₂ _ (UInt32.toNat_inj.1 hlo) (UInt32.toNat_inj.1 hhi)
      rw [hfirst, hrest]

/-- Ranges with the members of a canonical set make up that set, if it does not reach the largest
word. -/
theorem Canonical.ofRanges_eq {max : CodePoint} {l : List CodeRange} (hs : s.Canonical)
    (hmax : max.toNat + 1 < 2 ^ 32) (hle : ∀ c ∈ s, c ≤ max)
    (h : ∀ c, (∃ r ∈ l, c ∈ r) ↔ c ∈ s) : ofRanges l = s := by
  obtain ⟨htame, hmem⟩ := ofRanges_spec l
  have hmembers : ∀ c, c ∈ ofRanges l ↔ c ∈ s := fun c ↦ (hmem c).trans (h c)
  exact (htame.canonical hmax fun c hc ↦ hle c ((hmembers c).1 hc)).ext hs hmembers

theorem exists_mem_of_intersect_ne (hs : s.Canonical) (ht : t.Canonical)
    (hne : s.intersect t ≠ s) : ∃ c ∈ s, c ∉ t := by
  by_contra hall
  simp only [not_exists, not_and, not_not] at hall
  refine hne ((hs.intersect ht).ext hs fun c ↦ ?_)
  rw [mem_intersect hs ht]
  exact ⟨And.left, fun hc ↦ ⟨hc, hall c hc⟩⟩

theorem exists_mem_of_rangesMeet (ha : Canonical ⟨as⟩) (hb : Canonical ⟨bs⟩)
    (h : rangesMeet as bs = true) :
    ∃ c, c ∈ (⟨as⟩ : CodePointSet) ∧ c ∈ (⟨bs⟩ : CodePointSet) := by
  induction as, bs using rangesMeet.induct with
  | case1 => rw [rangesMeet] at h; cases h
  | case2 as hne => rw [rangesMeet] at h; cases h; exact hne
  | case3 a as b bs hlt ih =>
    rw [rangesMeet, if_pos hlt] at h
    obtain ⟨c, hca, hcb⟩ := ih (canonical_cons.1 ha).2.2 hb h
    exact ⟨c, mem_cons.2 (.inr hca), hcb⟩
  | case4 a as b bs hge hlt ih =>
    rw [rangesMeet, if_neg hge, if_pos hlt] at h
    obtain ⟨c, hca, hcb⟩ := ih ha (canonical_cons.1 hb).2.2 h
    exact ⟨c, hca, mem_cons.2 (.inr hcb)⟩
  | case5 a as b bs hge hge' =>
    rw [UInt32.lt_iff_toNat_lt] at hge hge'
    have hlea := (canonical_cons.1 ha).1
    have hleb := (canonical_cons.1 hb).1
    -- the later of the two lower ends is in both ranges
    have hmax := toNat_max a.lo b.lo
    refine ⟨max a.lo b.lo, mem_cons.2 (.inl ?_), mem_cons.2 (.inl ?_)⟩ <;>
      (rw [CodeRange.mem_iff_toNat]; omega)

/-- **Sets meet if they have a common member.** -/
theorem intersects_iff (hs : s.Canonical) (ht : t.Canonical) :
    s.intersects t = true ↔ ∃ c, c ∈ s ∧ c ∈ t := by
  refine ⟨exists_mem_of_rangesMeet hs ht, fun ⟨c, hcs, hct⟩ ↦ ?_⟩
  by_contra hnot
  exact not_mem_of_not_intersects hs ht (Bool.eq_false_iff.2 hnot) hcs hct

end CodePointSet

end PatternAutomata
