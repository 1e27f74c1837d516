import Mathlib.Data.List.Sort
import PatternAutomata.Proofs.CodePoint.Members

/-!
# The normal form of ranges

Ranges are put in order and run through once, and what comes of them has their members whatever they
are. In which order they come makes no difference, as the order in which they are put leaves equal
ranges only side by side.

Whether a range absorbs the next one is decided by the successor of its end. Behind the largest word
there is none, and what comes instead is zero. So a range that ends there absorbs nothing but what
starts at zero, and it is followed by a range that it ought to have absorbed. This is the one way in
which the result may fail to be canonical, and it does fail wherever there are two such ranges.
-/

namespace PatternAutomata

namespace CodeRange

variable {a b c : CodeRange}

theorem le_trans (hab : a.le b = true) (hbc : b.le c = true) : a.le c = true := by
  rw [le_iff] at *
  omega

theorem le_total (a b : CodeRange) : (a.le b || b.le a) = true := by
  rw [Bool.or_eq_true, le_iff, le_iff]
  omega

theorem le_antisymm (hab : a.le b = true) (hba : b.le a = true) : a = b := by
  rw [le_iff] at hab hba
  obtain ⟨alo, ahi⟩ := a
  obtain ⟨blo, bhi⟩ := b
  rw [mk.injEq, ← UInt32.toNat_inj, ← UInt32.toNat_inj]
  dsimp only at hab hba
  omega

/-- A range that ends at the largest word does not absorb one that comes behind it in the order of
ranges, unless that one starts at zero as well. -/
def Repels (r t : CodeRange) : Prop :=
  r.hi.toNat + 1 = 2 ^ 32 ∧ 0 < t.lo.toNat ∧ r.le t = true

instance (r t : CodeRange) : Decidable (r.Repels t) := inferInstanceAs (Decidable (_ ∧ _ ∧ _))

/-- Neither of two ranges repels the other. -/
def Merges (r t : CodeRange) : Prop := ¬r.Repels t ∧ ¬t.Repels r

instance (r t : CodeRange) : Decidable (r.Merges t) := inferInstanceAs (Decidable (_ ∧ _))

theorem Merges.symm (h : a.Merges b) : b.Merges a := And.symm h

/-- Of two ranges in order, only the first can repel the other one. -/
theorem merges_iff_of_le (h : a.le b = true) : a.Merges b ↔ ¬a.Repels b := by
  refine ⟨And.left, fun hab ↦ ⟨hab, fun hba ↦ hab ?_⟩⟩
  obtain rfl := le_antisymm h hba.2.2
  exact hba

end CodeRange

namespace CodePointSet

variable {c : CodePoint} {r next : CodeRange} {l l' : List CodeRange} {s t : CodePointSet}

/-! ## The order of the ranges -/

/-- The ranges that are not empty, in order. -/
def inOrder (l : List CodeRange) : List CodeRange :=
  (l.filter CodeRange.nonempty).mergeSort CodeRange.le

theorem pairwise_inOrder (l : List CodeRange) :
    (inOrder l).Pairwise fun a b ↦ a.le b = true :=
  @List.pairwise_mergeSort _ CodeRange.le (fun _ _ _ ↦ CodeRange.le_trans) CodeRange.le_total _

theorem inOrder_eq_of_perm (h : l.Perm l') : inOrder l = inOrder l' := by
  have hperm : (inOrder l).Perm (inOrder l') :=
    ((List.mergeSort_perm _ _).trans (h.filter _)).trans (List.mergeSort_perm _ _).symm
  exact hperm.eq_of_pairwise (fun _ _ _ _ ↦ CodeRange.le_antisymm) (pairwise_inOrder l)
    (pairwise_inOrder l')

theorem ofRanges_eq_of_perm (h : l.Perm l') : ofRanges l = ofRanges l' := by
  have heq : inOrder l = inOrder l' := inOrder_eq_of_perm h
  unfold inOrder at heq
  rw [ofRanges, ofRanges, heq]

/-! ## When the result is canonical -/

theorem exists_coalesce_eq_cons (r : CodeRange) (l : List CodeRange) :
    ∃ hi rest, coalesce r l = ⟨r.lo, hi⟩ :: rest := by
  induction l generalizing r with
  | nil => exact ⟨r.hi, [], rfl⟩
  | cons next l ih =>
    rw [coalesce]
    split
    · exact ih _
    · exact ⟨r.hi, _, rfl⟩

/-- **Absorbing a range changes nothing about which ranges repel which.** -/
theorem pairwise_absorb_iff (hsorted : (r :: next :: l).Pairwise fun a b ↦ a.le b = true)
    (habsorbs : next.lo ≤ r.hi + 1) :
    ((⟨r.lo, max r.hi next.hi⟩ : CodeRange) :: l).Pairwise (fun a b ↦ ¬a.Repels b) ↔
      (r :: next :: l).Pairwise fun a b ↦ ¬a.Repels b := by
  obtain ⟨hr, hsorted⟩ := List.pairwise_cons.1 hsorted
  obtain ⟨hnext, hl⟩ := List.pairwise_cons.1 hsorted
  have hmax := toNat_max r.hi next.hi
  have := r.hi.toNat_lt
  have := next.hi.toNat_lt
  rw [UInt32.le_iff_toNat_le, UInt32.toNat_add, UInt32.toNat_one] at habsorbs
  have hfirst : ¬r.Repels next := by
    rintro ⟨hhi, hlo, -⟩
    omega
  -- the wider range ends at the largest word if one of the two does, and stays in order
  have hboth : ∀ t ∈ l, ¬(⟨r.lo, max r.hi next.hi⟩ : CodeRange).Repels t ↔
      ¬r.Repels t ∧ ¬next.Repels t := by
    intro t ht
    have hrn := CodeRange.le_iff.1 (hr next List.mem_cons_self)
    have hrt := CodeRange.le_iff.1 (hr t (List.mem_cons_of_mem _ ht))
    have hnt := CodeRange.le_iff.1 (hnext t ht)
    have := t.hi.toNat_lt
    simp only [CodeRange.Repels, CodeRange.le_iff, hmax]
    omega
  rw [List.pairwise_cons, List.pairwise_cons, List.pairwise_cons, List.forall_mem_cons,
    and_iff_right hfirst]
  constructor
  · rintro ⟨hall, hrest⟩
    exact ⟨fun t ht ↦ ((hboth t ht).1 (hall t ht)).1,
      fun t ht ↦ ((hboth t ht).1 (hall t ht)).2, hrest⟩
  · rintro ⟨hfar, hnear, hrest⟩
    exact ⟨fun t ht ↦ (hboth t ht).2 ⟨hfar t ht, hnear t ht⟩, hrest⟩

/-- **The step lemma of the normal form**, along the ranges in order. -/
theorem canonical_coalesce_iff (hr : r.lo.toNat ≤ r.hi.toNat)
    (hl : ∀ t ∈ l, t.lo.toNat ≤ t.hi.toNat)
    (hsorted : (r :: l).Pairwise fun a b ↦ a.le b = true) :
    Canonical ⟨coalesce r l⟩ ↔ (r :: l).Pairwise fun a b ↦ ¬a.Repels b := by
  induction l generalizing r with
  | nil =>
    refine iff_of_true ?_ (List.pairwise_singleton _ _)
    rw [coalesce]
    exact canonical_cons.2 ⟨hr, List.forall_mem_nil _, canonical_nil⟩
  | cons next l ih =>
    obtain ⟨hnext, hl⟩ := List.forall_mem_cons.1 hl
    have hmax := toNat_max r.hi next.hi
    have := r.hi.toNat_lt
    have := next.lo.toNat_lt
    rw [coalesce]
    split
    · next habsorbs =>
      rw [← pairwise_absorb_iff hsorted habsorbs]
      refine ih (by dsimp only; omega) hl (List.pairwise_cons.2 ⟨fun t ht ↦ ?_, ?_⟩)
      · obtain ⟨hall, hrest⟩ := List.pairwise_cons.1 hsorted
        have hrn := CodeRange.le_iff.1 (hall next List.mem_cons_self)
        have hrt := CodeRange.le_iff.1 (hall t (List.mem_cons_of_mem _ ht))
        have hnt := CodeRange.le_iff.1 ((List.pairwise_cons.1 hrest).1 t ht)
        rw [CodeRange.le_iff]
        dsimp only
        omega
      · exact (List.pairwise_cons.1 (List.pairwise_cons.1 hsorted).2).2
    · next hrepels =>
      obtain ⟨hall, hrest⟩ := List.pairwise_cons.1 hsorted
      rw [UInt32.le_iff_toNat_le, UInt32.toNat_add, UInt32.toNat_one] at hrepels
      obtain ⟨hi, rest, heq⟩ := exists_coalesce_eq_cons next l
      have hspec := coalesce_spec hnext hl
        (fun t ht ↦ by
          have := CodeRange.le_iff.1 ((List.pairwise_cons.1 hrest).1 t ht)
          omega)
        ((List.pairwise_cons.1 hrest).2.imp fun hab ↦ by
          have := CodeRange.le_iff.1 hab
          omega)
      have hgap : (∀ t ∈ coalesce next l, r.hi.toNat + 2 ≤ t.lo.toNat) ↔
          r.hi.toNat + 1 ≠ 2 ^ 32 := by
        constructor
        · intro hbehind
          have := hbehind ⟨next.lo, hi⟩ (by rw [heq]; exact List.mem_cons_self)
          dsimp only at this
          omega
        · intro hne t ht
          have := hspec.2.1 t ht
          omega
      have hfirst : (∀ t ∈ next :: l, ¬r.Repels t) ↔ r.hi.toNat + 1 ≠ 2 ^ 32 := by
        constructor
        · rintro hnone hhi
          exact hnone next List.mem_cons_self ⟨hhi, by omega, hall next List.mem_cons_self⟩
        · exact fun hne t _ hrepels ↦ hne hrepels.1
      rw [canonical_cons, and_iff_right hr, hgap, ih hnext hl hrest, List.pairwise_cons (a := r),
        hfirst]

/-- **When the set of some ranges is canonical**: if no two of them, at different places of the
list, repel each other. -/
theorem canonical_ofRanges_iff : (ofRanges l).Canonical ↔
    (l.filter CodeRange.nonempty).Pairwise CodeRange.Merges := by
  have hperm : (inOrder l).Perm (l.filter CodeRange.nonempty) := List.mergeSort_perm _ _
  have hsorted := pairwise_inOrder l
  have hmem : ∀ r ∈ inOrder l, r.lo.toNat ≤ r.hi.toNat := by
    intro r hr
    have hr := (List.mem_filter.1 (hperm.mem_iff.1 hr)).2
    rwa [CodeRange.nonempty, decide_eq_true_eq, UInt32.le_iff_toNat_le] at hr
  rw [← hperm.pairwise_iff CodeRange.Merges.symm]
  unfold ofRanges
  rw [← inOrder]
  generalize inOrder l = sorted at hsorted hmem
  have hmerges : sorted.Pairwise CodeRange.Merges ↔ sorted.Pairwise fun a b ↦ ¬a.Repels b :=
    ⟨fun h ↦ h.imp And.left, fun h ↦
      (h.and hsorted).imp fun hab ↦ (CodeRange.merges_iff_of_le hab.2).2 hab.1⟩
  rw [hmerges]
  cases sorted with
  | nil => exact iff_of_true canonical_nil .nil
  | cons first rest =>
    obtain ⟨hfirst, hrest⟩ := List.forall_mem_cons.1 hmem
    exact canonical_coalesce_iff hfirst hrest hsorted

/-! ## Unions -/

theorem Canonical.pairwise_merges (hs : s.Canonical) : s.ranges.Pairwise CodeRange.Merges := by
  refine hs.2.imp_of_mem fun {r t} hr ht hgap ↦ ?_
  have := UInt32.le_iff_toNat_le.1 (hs.1 r hr)
  have := t.lo.toNat_lt
  simp only [CodeRange.Merges, CodeRange.Repels, CodeRange.le_iff]
  omega

theorem Canonical.filter_nonempty (hs : s.Canonical) :
    s.ranges.filter CodeRange.nonempty = s.ranges :=
  List.filter_eq_self.2 fun r hr ↦ decide_eq_true (hs.1 r hr)

theorem canonical_union_iff (hs : s.Canonical) (ht : t.Canonical) : (s.union t).Canonical ↔
    ∀ r ∈ s.ranges, ∀ q ∈ t.ranges, r.Merges q := by
  rw [union, canonical_ofRanges_iff, List.filter_append, hs.filter_nonempty, ht.filter_nonempty,
    List.pairwise_append, and_iff_right hs.pairwise_merges, and_iff_right ht.pairwise_merges]

theorem mem_union : c ∈ s.union t ↔ c ∈ s ∨ c ∈ t := by
  rw [union, (ofRanges_spec _).2, mem_iff, mem_iff]
  simp only [List.mem_append, or_and_right, exists_or]

/-! ## The whole -/

/-- **The normal form of any list of ranges.** It has the members of the ranges and is ascending,
with gaps everywhere but behind the largest word; it does not depend on the order of the list; and
it is canonical if and only if no two ranges repel each other. The union of canonical sets is the
normal form of the ranges of both. -/
theorem normal_form (l : List CodeRange) (hs : s.Canonical) (ht : t.Canonical) :
    ((∀ c, c ∈ ofRanges l ↔ ∃ r ∈ l, c ∈ r) ∧ (ofRanges l).Tame ∧
      (∀ l', l.Perm l' → ofRanges l' = ofRanges l) ∧
      ((ofRanges l).Canonical ↔ (l.filter CodeRange.nonempty).Pairwise CodeRange.Merges)) ∧
    (∀ c, c ∈ s.union t ↔ c ∈ s ∨ c ∈ t) ∧ (s.union t).Tame ∧
      ((s.union t).Canonical ↔ ∀ r ∈ s.ranges, ∀ q ∈ t.ranges, r.Merges q) :=
  ⟨⟨(ofRanges_spec l).2, (ofRanges_spec l).1, fun _ hl ↦ (ofRanges_eq_of_perm hl).symm,
    canonical_ofRanges_iff⟩, fun _ ↦ mem_union, (ofRanges_spec _).1, canonical_union_iff hs ht⟩

/-- Ranges in disorder, and two sets one of which reaches the largest word. -/
theorem normal_form_disorder :
    let l : List CodeRange := [⟨7, 9⟩, ⟨5, 3⟩, ⟨0, 0xffffffff⟩, ⟨0, 0⟩, ⟨0, 0xffffffff⟩]
    let s : CodePointSet := ⟨[⟨2, 5⟩, ⟨0xf0000000, 0xffffffff⟩]⟩
    let t : CodePointSet := ⟨[⟨0, 0⟩, ⟨6, 0xefffffff⟩]⟩
    s.Canonical ∧ t.Canonical ∧ ¬(ofRanges l).Canonical ∧ (s.union t).Canonical := by
  have hs : Canonical ⟨[⟨2, 5⟩, ⟨0xf0000000, 0xffffffff⟩]⟩ := by decide
  have ht : Canonical ⟨[⟨0, 0⟩, ⟨6, 0xefffffff⟩]⟩ := by decide
  obtain ⟨⟨-, -, -, hl⟩, -, -, hunion⟩ := normal_form
    [⟨7, 9⟩, ⟨5, 3⟩, ⟨0, 0xffffffff⟩, ⟨0, 0⟩, ⟨0, 0xffffffff⟩] hs ht
  exact ⟨hs, ht, fun h ↦ absurd (hl.1 h) (by decide), hunion.2 (by decide)⟩

/-- Behind the largest word nothing is absorbed: the result is not canonical, and neither is the
union of a set with itself. -/
theorem not_canonical_behind_largest :
    ¬(ofRanges [⟨1, 0xffffffff⟩, ⟨2, 3⟩]).Canonical ∧
      Canonical ⟨[⟨1, 0xffffffff⟩]⟩ ∧
        ¬(union ⟨[⟨1, 0xffffffff⟩]⟩ ⟨[⟨1, 0xffffffff⟩]⟩).Canonical := by
  refine ⟨fun h ↦ ?_, by decide, fun h ↦ ?_⟩ <;>
    exact absurd (canonical_ofRanges_iff.1 h) (by decide)

end CodePointSet

end PatternAutomata
