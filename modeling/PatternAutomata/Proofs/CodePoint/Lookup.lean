import Mathlib.Data.Set.Card
import Mathlib.Order.Interval.Finset.Nat
import PatternAutomata.Proofs.CodePoint.Members

/-!
# Looking code points up

The halving search for a code point finds the last range that starts at or below it, on every list
that is ascending. In a canonical list no other range can hold the code point, so looking it up and
lying in some range are the same. As the ranges of a canonical list keep apart, their sizes add up
to the number of members.
-/

namespace PatternAutomata

theorem CodeRange.size_eq {r : CodeRange} (h : r.lo.toNat ≤ r.hi.toNat) :
    r.size = r.hi.toNat + 1 - r.lo.toNat := by
  rw [size, UInt32.toNat_sub_of_le _ _ (UInt32.le_iff_toNat_le.2 h)]
  omega

theorem CodeRange.encard_eq_size {r : CodeRange} (h : r.lo.toNat ≤ r.hi.toNat) :
    {c : CodePoint | c ∈ r}.encard = r.size := by
  -- counted as naturals, the code points of a range are an interval
  have himage : UInt32.toNat '' {c : CodePoint | c ∈ r} =
      (Finset.Icc r.lo.toNat r.hi.toNat : Set Nat) := by
    ext n
    simp only [Set.mem_image, Set.mem_ofPred_eq, CodeRange.mem_iff_toNat, Finset.coe_Icc,
      Set.mem_Icc]
    constructor
    · rintro ⟨c, hc, rfl⟩
      exact hc
    · intro hn
      have hlt : n < 2 ^ 32 := Nat.lt_of_le_of_lt hn.2 r.hi.toNat_lt
      exact ⟨.ofNat n, by rwa [UInt32.toNat_ofNat_of_lt' hlt], UInt32.toNat_ofNat_of_lt' hlt⟩
  have hinjective : Function.Injective UInt32.toNat := fun _ _ heq ↦ UInt32.toNat_inj.1 heq
  rw [← hinjective.encard_image, himage, Set.encard_coe_eq_coe_finsetCard, Nat.card_Icc, size_eq h]

namespace CodePointSet

variable {c : CodePoint} {r : CodeRange} {l : List CodeRange} {s t : CodePointSet}
  {before : Option CodeRange}

/-! ## The search -/

/-- **What the halving search finds**: the last range that starts at or below the code point, or
the one in front of all that are searched if there is none. -/
theorem lastStartingBelow_eq (h : l.Pairwise fun r t ↦ r.lo ≤ t.lo) :
    lastStartingBelow c before l = (l.filter fun r ↦ r.lo ≤ c).getLast?.or before := by
  induction before, l using lastStartingBelow.induct c with
  | case1 before l hdrop =>
    have hlength := congrArg List.length hdrop
    rw [List.length_drop, List.length_nil] at hlength
    obtain rfl : l = [] := List.length_eq_zero_iff.1 (by omega)
    rw [lastStartingBelow]
    rfl
  | case2 before l middle after hdrop hlt ih =>
    obtain ⟨hfront, hback, -⟩ := List.pairwise_append.1 (l.take_append_drop (l.length / 2) ▸ h)
    have hnone : (middle :: after).filter (fun r ↦ r.lo ≤ c) = [] := by
      refine List.filter_eq_nil_iff.2 fun t ht ↦ ?_
      have hle : middle.lo ≤ t.lo := by
        rcases List.mem_cons.1 ht with rfl | ht
        · exact UInt32.le_refl _
        · exact (List.pairwise_cons.1 (hdrop ▸ hback)).1 t ht
      rw [decide_eq_true_eq, UInt32.not_le]
      exact UInt32.lt_of_lt_of_le hlt hle
    have hall : l.filter (fun r ↦ r.lo ≤ c) = (l.take (l.length / 2)).filter fun r ↦ r.lo ≤ c := by
      conv_lhs => rw [← l.take_append_drop (l.length / 2), List.filter_append, hdrop, hnone,
        List.append_nil]
    rw [lastStartingBelow]
    split
    · next heq => cases hdrop.symm.trans heq
    · next heq =>
      cases hdrop.symm.trans heq
      rw [if_pos hlt, ih hfront, hall]
  | case3 before l middle after hdrop hge ih =>
    obtain ⟨-, hback, -⟩ := List.pairwise_append.1 (l.take_append_drop (l.length / 2) ▸ h)
    have hall : l.filter (fun r ↦ r.lo ≤ c) =
        (l.take (l.length / 2)).filter (fun r ↦ r.lo ≤ c) ++
          middle :: after.filter fun r ↦ r.lo ≤ c := by
      conv_lhs => rw [← l.take_append_drop (l.length / 2), List.filter_append, hdrop,
        List.filter_cons_of_pos (by simpa using hge)]
    rw [lastStartingBelow]
    split
    · next heq => cases hdrop.symm.trans heq
    · next heq =>
      cases hdrop.symm.trans heq
      rw [if_neg hge, ih (List.pairwise_cons.1 (hdrop ▸ hback)).2, hall, List.getLast?_append,
        List.getLast?_cons]
      cases (after.filter fun r ↦ r.lo ≤ c).getLast? <;> rfl

theorem Canonical.pairwise_lo_le (h : s.Canonical) : s.ranges.Pairwise fun r t ↦ r.lo ≤ t.lo := by
  refine h.tame.2.imp fun hrt ↦ UInt32.le_iff_toNat_le.2 hrt.1

/-- The last range of a canonical list that starts at or below a code point holds it if any does. -/
theorem Canonical.mem_iff_getLast? (h : s.Canonical) :
    c ∈ s ↔ ∃ r, (s.ranges.filter fun r ↦ r.lo ≤ c).getLast? = some r ∧ c ≤ r.hi := by
  constructor
  · rintro ⟨r, hr, hlo, hhi⟩
    have hmem : r ∈ s.ranges.filter fun r ↦ r.lo ≤ c := List.mem_filter.2 ⟨hr, by simpa using hlo⟩
    have hgap := h.2.sublist (List.filter_sublist (p := fun r ↦ decide (r.lo ≤ c)))
    cases hlast : (s.ranges.filter fun r ↦ r.lo ≤ c).getLast? with
    | none =>
      rw [List.getLast?_eq_none_iff.1 hlast] at hmem
      cases hmem
    | some t =>
      refine ⟨t, rfl, ?_⟩
      obtain ⟨front, heq⟩ := List.getLast?_eq_some_iff.1 hlast
      have ht : t.lo ≤ c := by
        have hmem : t ∈ s.ranges.filter fun r ↦ r.lo ≤ c := List.mem_of_getLast? hlast
        simpa using (List.mem_filter.1 hmem).2
      rw [heq] at hmem hgap
      rcases List.mem_append.1 hmem with hmem | hmem
      · -- a range in front of the last one ends in front of the code point
        have hgap := (List.pairwise_append.1 hgap).2.2 r hmem t (List.mem_singleton_self t)
        rw [UInt32.le_iff_toNat_le] at ht hhi
        omega
      · rwa [← List.mem_singleton.1 hmem]
  · rintro ⟨r, hlast, hhi⟩
    obtain ⟨hr, hlo⟩ := List.mem_filter.1 (List.mem_of_getLast? hlast)
    exact ⟨r, hr, by simpa using hlo, hhi⟩

/-- **Looking up is membership.** -/
theorem contains_iff (h : s.Canonical) : s.contains c = true ↔ c ∈ s := by
  rw [h.mem_iff_getLast?, contains, lastStartingBelow_eq h.pairwise_lo_le, Option.or_none]
  cases (s.ranges.filter fun r ↦ r.lo ≤ c).getLast? <;> simp

/-! ## The number of members -/

/-- **The size is the number of members.** -/
theorem encard_eq_size (h : s.Canonical) : {c : CodePoint | c ∈ s}.encard = s.size := by
  obtain ⟨l⟩ := s
  induction l with
  | nil =>
    have hnone : {c : CodePoint | c ∈ (⟨[]⟩ : CodePointSet)} = ∅ :=
      Set.eq_empty_of_forall_notMem fun _ ↦ not_mem_nil
    rw [hnone, Set.encard_empty]
    rfl
  | cons r l ih =>
    obtain ⟨hr, hgap, hl⟩ := canonical_cons.1 h
    have hunion : {c : CodePoint | c ∈ (⟨r :: l⟩ : CodePointSet)} =
        {c | c ∈ r} ∪ {c | c ∈ (⟨l⟩ : CodePointSet)} := Set.ext fun _ ↦ mem_cons
    have hapart : Disjoint {c : CodePoint | c ∈ r} {c | c ∈ (⟨l⟩ : CodePointSet)} := by
      refine Set.disjoint_left.2 fun c hc hcl ↦ ?_
      have := (CodeRange.mem_iff_toNat.1 hc).2
      have := lt_of_mem hgap hcl
      omega
    have hsize : size ⟨r :: l⟩ = r.size + size ⟨l⟩ := rfl
    rw [hunion, Set.encard_union_eq hapart, CodeRange.encard_eq_size hr, ih hl, hsize,
      Nat.cast_add]

end CodePointSet

end PatternAutomata
