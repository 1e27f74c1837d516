import Mathlib.Algebra.Group.Nat.Defs
import Mathlib.Data.List.TakeWhile
import Mathlib.Tactic.Common
import PatternAutomata.Encoding

/-!
# The algebra of canonical sets

On canonical lists of ranges the passes do what their names say: they find exactly the code points
that both sets have, or that one has and the other has not, and what they make is canonical again.
Everything is reckoned on naturals, where the successor of a code point does not wrap.
-/

namespace PatternAutomata

theorem CodeRange.mem_iff_toNat {c : CodePoint} {r : CodeRange} :
    c ∈ r ↔ r.lo.toNat ≤ c.toNat ∧ c.toNat ≤ r.hi.toNat := by
  rw [mem_iff, UInt32.le_iff_toNat_le, UInt32.le_iff_toNat_le]

/-- `s` lies within `r`. -/
def CodeRange.Within (s r : CodeRange) : Prop :=
  r.lo.toNat ≤ s.lo.toNat ∧ s.hi.toNat ≤ r.hi.toNat

theorem CodeRange.le_iff {a b : CodeRange} : a.le b = true ↔
    a.lo.toNat < b.lo.toNat ∨ a.lo.toNat = b.lo.toNat ∧ a.hi.toNat ≤ b.hi.toNat := by
  simp only [CodeRange.le, Bool.or_eq_true, Bool.and_eq_true, decide_eq_true_eq, beq_iff_eq,
    UInt32.lt_iff_toNat_lt, UInt32.le_iff_toNat_le, ← UInt32.toNat_inj]

theorem toNat_max (a b : CodePoint) : (max a b).toNat = max a.toNat b.toNat := by
  have h : max a b = if a ≤ b then b else a := rfl
  rw [h, Nat.max_def, apply_ite UInt32.toNat]
  simp only [UInt32.le_iff_toNat_le]

theorem toNat_min (a b : CodePoint) : (min a b).toNat = min a.toNat b.toNat := by
  have h : min a b = if a ≤ b then a else b := rfl
  rw [h, Nat.min_def, apply_ite UInt32.toNat]
  simp only [UInt32.le_iff_toNat_le]

namespace CodePointSet

variable {c : CodePoint} {r : CodeRange} {as bs l : List CodeRange} {s t : CodePointSet}

/-! ## Lists of ranges -/

@[simp] theorem not_mem_nil : c ∉ (⟨[]⟩ : CodePointSet) := by simp [mem_iff]

@[simp] theorem mem_cons : c ∈ (⟨r :: l⟩ : CodePointSet) ↔ c ∈ r ∨ c ∈ (⟨l⟩ : CodePointSet) := by
  simp [mem_iff]

@[simp] theorem mem_append :
    c ∈ (⟨as ++ bs⟩ : CodePointSet) ↔ c ∈ (⟨as⟩ : CodePointSet) ∨ c ∈ (⟨bs⟩ : CodePointSet) := by
  simp [mem_iff, or_and_right, exists_or]

theorem not_mem_of_isEmpty (h : s.isEmpty = true) : c ∉ s := by
  rintro ⟨r, hr, -⟩
  rw [isEmpty, List.isEmpty_iff] at h
  rw [h] at hr
  cases hr

instance (c : CodePoint) (s : CodePointSet) : Decidable (c ∈ s) :=
  inferInstanceAs (Decidable (∃ r ∈ s.ranges, c ∈ r))

theorem canonical_nil : Canonical ⟨[]⟩ := ⟨nofun, .nil⟩

/-- What holds of the lists that are made of any ranges whatever: they are canonical, save that
something may follow a range that ends at the largest word. -/
def Tame (s : CodePointSet) : Prop :=
  (∀ r ∈ s.ranges, r.lo ≤ r.hi) ∧ s.ranges.Pairwise fun r t ↦
    r.lo.toNat ≤ t.lo.toNat ∧ (r.hi.toNat + 1 = 2 ^ 32 ∨ r.hi.toNat + 2 ≤ t.lo.toNat)

theorem Canonical.tame (h : s.Canonical) : s.Tame := by
  refine ⟨h.1, h.2.imp_of_mem fun {r t} hr _ hgap ↦ ⟨?_, .inr hgap⟩⟩
  have := UInt32.le_iff_toNat_le.1 (h.1 r hr)
  omega

theorem tame_cons : Tame ⟨r :: l⟩ ↔ r.lo.toNat ≤ r.hi.toNat ∧
    (∀ t ∈ l, r.lo.toNat ≤ t.lo.toNat ∧
      (r.hi.toNat + 1 = 2 ^ 32 ∨ r.hi.toNat + 2 ≤ t.lo.toNat)) ∧ Tame ⟨l⟩ := by
  simp only [Tame, List.forall_mem_cons, List.pairwise_cons, UInt32.le_iff_toNat_le]
  tauto

theorem canonical_cons : Canonical ⟨r :: l⟩ ↔
    r.lo.toNat ≤ r.hi.toNat ∧ (∀ t ∈ l, r.hi.toNat + 2 ≤ t.lo.toNat) ∧ Canonical ⟨l⟩ := by
  simp only [Canonical, List.forall_mem_cons, List.pairwise_cons, UInt32.le_iff_toNat_le]
  tauto

theorem canonical_append : Canonical ⟨as ++ bs⟩ ↔ Canonical ⟨as⟩ ∧ Canonical ⟨bs⟩ ∧
    ∀ a ∈ as, ∀ b ∈ bs, a.hi.toNat + 2 ≤ b.lo.toNat := by
  simp only [Canonical, List.forall_mem_append, List.pairwise_append]
  tauto

theorem lt_of_mem {n : Nat} (hl : ∀ t ∈ l, n + 2 ≤ t.lo.toNat) (hc : c ∈ (⟨l⟩ : CodePointSet)) :
    n + 2 ≤ c.toNat := by
  obtain ⟨t, ht, hct⟩ := hc
  exact Nat.le_trans (hl t ht) (CodeRange.mem_iff_toNat.1 hct).1

/-! ## Common members -/

/-- What is left to compare after one round. -/
def commonRest (a b : CodeRange) (as bs : List CodeRange) : List CodeRange :=
  if a.hi < b.hi then commonRanges as (b :: bs) else commonRanges (a :: as) bs

theorem commonRanges_cons {a b : CodeRange} : commonRanges (a :: as) (b :: bs) =
    if max a.lo.toNat b.lo.toNat ≤ min a.hi.toNat b.hi.toNat then
      ⟨max a.lo b.lo, min a.hi b.hi⟩ :: commonRest a b as bs
    else commonRest a b as bs := by
  rw [commonRanges, commonRest]
  simp only [CodeRange.nonempty, decide_eq_true_eq, UInt32.le_iff_toNat_le, toNat_max, toNat_min]

theorem within_of_mem_commonRanges (hr : r ∈ commonRanges as bs) :
    r.lo.toNat ≤ r.hi.toNat ∧ (∃ a ∈ as, r.Within a) ∧ ∃ b ∈ bs, r.Within b := by
  induction as, bs using commonRanges.induct with
  | case1 => rw [commonRanges] at hr; cases hr
  | case2 as hne => rw [commonRanges] at hr; cases hr; exact hne
  | case3 a as b bs common hcommon ih₁ ih₂ | case4 a as b bs common hcommon ih₁ ih₂ =>
    have hrest : r ∈ commonRest a b as bs → r.lo.toNat ≤ r.hi.toNat ∧
        (∃ x ∈ a :: as, r.Within x) ∧ ∃ y ∈ b :: bs, r.Within y := by
      intro hr
      unfold commonRest at hr
      split at hr
      · obtain ⟨hle, ⟨x, hx, hrx⟩, hy⟩ := ih₁ hr
        exact ⟨hle, ⟨x, List.mem_cons_of_mem _ hx, hrx⟩, hy⟩
      · obtain ⟨hle, hx, y, hy, hry⟩ := ih₂ hr
        exact ⟨hle, hx, y, List.mem_cons_of_mem _ hy, hry⟩
    rw [commonRanges_cons] at hr
    split at hr
    · next hle =>
      rcases List.mem_cons.1 hr with rfl | hr
      · refine ⟨?_, ⟨a, List.mem_cons_self, ?_⟩, b, List.mem_cons_self, ?_⟩ <;>
          simp only [CodeRange.Within, toNat_max, toNat_min] <;> omega
      · exact hrest hr
    · exact hrest hr

theorem canonical_commonRanges (ha : Canonical ⟨as⟩) (hb : Canonical ⟨bs⟩) :
    Canonical ⟨commonRanges as bs⟩ := by
  induction as, bs using commonRanges.induct with
  | case1 => rw [commonRanges]; exact canonical_nil
  | case2 as hne => rw [commonRanges]; exact canonical_nil; exact hne
  | case3 a as b bs common hcommon ih₁ ih₂ | case4 a as b bs common hcommon ih₁ ih₂ =>
    obtain ⟨-, hgapa, has⟩ := canonical_cons.1 ha
    obtain ⟨-, hgapb, hbs⟩ := canonical_cons.1 hb
    have hrest : Canonical ⟨commonRest a b as bs⟩ ∧
        ∀ t ∈ commonRest a b as bs, min a.hi.toNat b.hi.toNat + 2 ≤ t.lo.toNat := by
      unfold commonRest
      split
      · refine ⟨ih₁ has hb, fun t ht ↦ ?_⟩
        obtain ⟨-, ⟨x, hx, htx⟩, -⟩ := within_of_mem_commonRanges ht
        have := hgapa x hx
        have := htx.1
        omega
      · refine ⟨ih₂ ha hbs, fun t ht ↦ ?_⟩
        obtain ⟨-, -, y, hy, hty⟩ := within_of_mem_commonRanges ht
        have := hgapb y hy
        have := hty.1
        omega
    rw [commonRanges_cons]
    split
    · next hle =>
      rw [canonical_cons]
      simp only [toNat_max, toNat_min]
      exact ⟨hle, hrest.2, hrest.1⟩
    · exact hrest.1

theorem mem_commonRanges (ha : Canonical ⟨as⟩) (hb : Canonical ⟨bs⟩) :
    c ∈ (⟨commonRanges as bs⟩ : CodePointSet) ↔
      c ∈ (⟨as⟩ : CodePointSet) ∧ c ∈ (⟨bs⟩ : CodePointSet) := by
  have key : ∀ p q ps qs : Prop,
      p ∧ q ∨ ps ∧ (q ∨ qs) ∨ (p ∨ ps) ∧ qs ↔ (p ∨ ps) ∧ (q ∨ qs) := by tauto
  induction as, bs using commonRanges.induct with
  | case1 => simp [commonRanges]
  | case2 as hne => rw [commonRanges]; simp; exact hne
  | case3 a as b bs common hcommon ih₁ ih₂ | case4 a as b bs common hcommon ih₁ ih₂ =>
    obtain ⟨-, hgapa, has⟩ := canonical_cons.1 ha
    obtain ⟨-, hgapb, hbs⟩ := canonical_cons.1 hb
    -- the range that ends first has nothing in common with what comes behind the other
    have hrest : c ∈ (⟨commonRest a b as bs⟩ : CodePointSet) ↔
        (c ∈ (⟨as⟩ : CodePointSet) ∧ c ∈ (⟨b :: bs⟩ : CodePointSet) ∨
          c ∈ (⟨a :: as⟩ : CodePointSet) ∧ c ∈ (⟨bs⟩ : CodePointSet)) := by
      unfold commonRest
      split
      · next hlt =>
        rw [UInt32.lt_iff_toNat_lt] at hlt
        refine (ih₁ has hb).trans ⟨.inl, fun h ↦ h.elim id fun ⟨hca, hcb⟩ ↦ ?_⟩
        have hge := lt_of_mem hgapb hcb
        refine ⟨(mem_cons.1 hca).resolve_left fun hc ↦ ?_, mem_cons.2 (.inr hcb)⟩
        have := (CodeRange.mem_iff_toNat.1 hc).2
        omega
      · next hge =>
        rw [UInt32.lt_iff_toNat_lt] at hge
        refine (ih₂ ha hbs).trans ⟨.inr, fun h ↦ h.elim (fun ⟨hca, hcb⟩ ↦ ?_) id⟩
        have hlt := lt_of_mem hgapa hca
        refine ⟨mem_cons.2 (.inr hca), (mem_cons.1 hcb).resolve_left fun hc ↦ ?_⟩
        have := (CodeRange.mem_iff_toNat.1 hc).2
        omega
    have hhead : c ∈ a ∧ c ∈ b ↔
        max a.lo.toNat b.lo.toNat ≤ c.toNat ∧ c.toNat ≤ min a.hi.toNat b.hi.toNat := by
      rw [CodeRange.mem_iff_toNat, CodeRange.mem_iff_toNat]
      omega
    have hcommon : c ∈ (⟨max a.lo b.lo, min a.hi b.hi⟩ : CodeRange) ↔ c ∈ a ∧ c ∈ b := by
      rw [hhead, CodeRange.mem_iff_toNat, toNat_max, toNat_min]
    have hall : c ∈ (⟨commonRanges (a :: as) (b :: bs)⟩ : CodePointSet) ↔
        c ∈ a ∧ c ∈ b ∨ c ∈ (⟨commonRest a b as bs⟩ : CodePointSet) := by
      rw [commonRanges_cons]
      split
      · rw [mem_cons, hcommon]
      · next hgt => rw [hhead, or_iff_right (by omega)]
    rw [hall, hrest, mem_cons, mem_cons]
    exact key _ _ _ _

theorem Canonical.intersect (hs : s.Canonical) (ht : t.Canonical) : (s.intersect t).Canonical :=
  canonical_commonRanges hs ht

theorem mem_intersect (hs : s.Canonical) (ht : t.Canonical) :
    c ∈ s.intersect t ↔ c ∈ s ∧ c ∈ t :=
  mem_commonRanges hs ht

/-! ## Whether there are common members -/

theorem rangesMeet_eq_false (ha : Canonical ⟨as⟩) (hb : Canonical ⟨bs⟩)
    (h : rangesMeet as bs = false) (hca : c ∈ (⟨as⟩ : CodePointSet)) :
    c ∉ (⟨bs⟩ : CodePointSet) := by
  induction as, bs using rangesMeet.induct with
  | case1 => exact absurd hca not_mem_nil
  | case2 as hne => exact not_mem_nil
  | case3 a as b bs hlt ih =>
    obtain ⟨-, -, has⟩ := canonical_cons.1 ha
    obtain ⟨hleb, hgapb, -⟩ := canonical_cons.1 hb
    rw [rangesMeet, if_pos hlt] at h
    rw [UInt32.lt_iff_toNat_lt] at hlt
    rcases mem_cons.1 hca with hca | hca
    · have hc := (CodeRange.mem_iff_toNat.1 hca).2
      intro hcb
      rcases mem_cons.1 hcb with hcb | hcb
      · have := (CodeRange.mem_iff_toNat.1 hcb).1
        omega
      · have := lt_of_mem hgapb hcb
        omega
    · exact ih has hb h hca
  | case4 a as b bs hge hlt ih =>
    obtain ⟨hlea, hgapa, -⟩ := canonical_cons.1 ha
    obtain ⟨-, -, hbs⟩ := canonical_cons.1 hb
    rw [rangesMeet, if_neg hge, if_pos hlt] at h
    rw [UInt32.lt_iff_toNat_lt] at hlt
    have hc : a.lo.toNat ≤ c.toNat := by
      rcases mem_cons.1 hca with hca | hca
      · exact (CodeRange.mem_iff_toNat.1 hca).1
      · have := lt_of_mem hgapa hca
        omega
    rw [mem_cons, not_or]
    refine ⟨fun hcb ↦ ?_, ih ha hbs h hca⟩
    have := (CodeRange.mem_iff_toNat.1 hcb).2
    omega
  | case5 a as b bs hge hge' =>
    rw [rangesMeet, if_neg hge, if_neg hge'] at h
    cases h

theorem not_mem_of_not_intersects (hs : s.Canonical) (ht : t.Canonical)
    (h : s.intersects t = false) (hc : c ∈ s) : c ∉ t :=
  rangesMeet_eq_false hs ht h hc

/-! ## Cutting out -/

/-- What a cut leaves on its left. -/
def carveLeft (r cut : CodeRange) : List CodeRange :=
  if r.lo < cut.lo then [⟨r.lo, cut.lo - 1⟩] else []

/-- What a cut leaves on its right. -/
def carveRight (r cut : CodeRange) (cuts : List CodeRange) : List CodeRange :=
  if r.hi ≤ cut.hi then [] else carve ⟨cut.hi + 1, r.hi⟩ cuts

theorem carve_cons {cut : CodeRange} {cuts : List CodeRange} : carve r (cut :: cuts) =
    if r.hi < cut.lo then [r] else carveLeft r cut ++ carveRight r cut cuts := by
  rw [carve, carveLeft, carveRight]
  by_cases h : r.hi ≤ cut.hi <;> simp [h]

theorem toNat_pred {x y : CodePoint} (h : x < y) : (y - 1).toNat = y.toNat - 1 := by
  rw [UInt32.lt_iff_toNat_lt] at h
  rw [UInt32.toNat_sub_of_le, UInt32.toNat_one]
  rw [UInt32.le_iff_toNat_le, UInt32.toNat_one]
  omega

theorem toNat_succ {x y : CodePoint} (h : x < y) : (x + 1).toNat = x.toNat + 1 := by
  rw [UInt32.lt_iff_toNat_lt] at h
  have := y.toNat_lt
  rw [UInt32.toNat_add, UInt32.toNat_one]
  omega

theorem carveLeft_spec {cut : CodeRange} (hge : cut.lo.toNat ≤ r.hi.toNat) :
    Canonical ⟨carveLeft r cut⟩ ∧
      (∀ piece ∈ carveLeft r cut, piece.Within r ∧ piece.hi.toNat + 1 ≤ cut.lo.toNat) ∧
      ∀ c : CodePoint, c ∈ (⟨carveLeft r cut⟩ : CodePointSet) ↔
        r.lo.toNat ≤ c.toNat ∧ c.toNat < cut.lo.toNat := by
  unfold carveLeft
  split
  · next hlt =>
    have hpred := toNat_pred hlt
    rw [UInt32.lt_iff_toNat_lt] at hlt
    refine ⟨canonical_cons.2 ⟨?_, nofun, canonical_nil⟩, fun piece hp ↦ ?_, fun c ↦ ?_⟩
    · dsimp only
      omega
    · rw [List.mem_singleton] at hp
      subst hp
      refine ⟨⟨Nat.le_refl _, ?_⟩, ?_⟩ <;> dsimp only <;> omega
    · rw [mem_cons, or_iff_left not_mem_nil, CodeRange.mem_iff_toNat]
      dsimp only
      omega
  · next hlt =>
    rw [UInt32.lt_iff_toNat_lt] at hlt
    refine ⟨canonical_nil, nofun, fun c ↦ ?_⟩
    rw [iff_false_left not_mem_nil]
    omega

theorem canonical_singleton (hr : r.lo.toNat ≤ r.hi.toNat) : Canonical ⟨[r]⟩ :=
  canonical_cons.2 ⟨hr, nofun, canonical_nil⟩

theorem within_of_mem_singleton {piece : CodeRange} (hp : piece ∈ [r]) : piece.Within r := by
  rw [List.mem_singleton] at hp
  subst hp
  exact ⟨Nat.le_refl _, Nat.le_refl _⟩

theorem carveRight_spec {cut : CodeRange} {cuts : List CodeRange}
    (hfirst : r.lo.toNat ≤ cut.hi.toNat)
    (hrest : ∀ rest : CodeRange, rest.lo.toNat = cut.hi.toNat + 1 →
      rest.lo.toNat ≤ rest.hi.toNat → Canonical ⟨carve rest cuts⟩ ∧
        (∀ piece ∈ carve rest cuts, piece.Within rest) ∧
        ∀ c, c ∈ (⟨carve rest cuts⟩ : CodePointSet) ↔ c ∈ rest ∧ c ∉ (⟨cuts⟩ : CodePointSet)) :
    Canonical ⟨carveRight r cut cuts⟩ ∧
      (∀ piece ∈ carveRight r cut cuts, piece.Within r ∧ cut.hi.toNat + 1 ≤ piece.lo.toNat) ∧
      ∀ c : CodePoint, c ∈ (⟨carveRight r cut cuts⟩ : CodePointSet) ↔
        (cut.hi.toNat < c.toNat ∧ c.toNat ≤ r.hi.toNat) ∧ c ∉ (⟨cuts⟩ : CodePointSet) := by
  unfold carveRight
  split
  · next hle =>
    rw [UInt32.le_iff_toNat_le] at hle
    refine ⟨canonical_nil, nofun, fun c ↦ ?_⟩
    rw [iff_false_left not_mem_nil]
    omega
  · next hgt =>
    rw [UInt32.not_le] at hgt
    have hsucc := toNat_succ hgt
    rw [UInt32.lt_iff_toNat_lt] at hgt
    obtain ⟨hc, hw, hm⟩ := hrest ⟨cut.hi + 1, r.hi⟩ hsucc (by dsimp only; omega)
    refine ⟨hc, fun piece hp ↦ ?_, fun c ↦ ?_⟩
    · obtain ⟨hlo, hhi⟩ := hw piece hp
      dsimp only at hlo hhi
      refine ⟨⟨?_, hhi⟩, ?_⟩ <;> omega
    · rw [hm, CodeRange.mem_iff_toNat, hsucc]
      rfl

/-- What tame cuts leave of a range that the first of them does not lie below: pieces of the range
with gaps between them, which hold what is in no cut. -/
theorem carve_spec {cuts : List CodeRange} (hr : r.lo.toNat ≤ r.hi.toNat) (hcuts : Tame ⟨cuts⟩)
    (hfirst : ∀ cut ∈ cuts.head?, r.lo.toNat ≤ cut.hi.toNat) :
    Canonical ⟨carve r cuts⟩ ∧ (∀ piece ∈ carve r cuts, piece.Within r) ∧
      ∀ c, c ∈ (⟨carve r cuts⟩ : CodePointSet) ↔ c ∈ r ∧ c ∉ (⟨cuts⟩ : CodePointSet) := by
  induction cuts generalizing r with
  | nil =>
    rw [carve]
    exact ⟨canonical_singleton hr, fun _ ↦ within_of_mem_singleton, fun c ↦ by simp⟩
  | cons cut cuts ih =>
    obtain ⟨hcut, hlater, htame⟩ := tame_cons.1 hcuts
    have hfirst := hfirst cut rfl
    -- nothing later starts in front of the cut
    have hbehind : ∀ {c : CodePoint}, c ∈ (⟨cuts⟩ : CodePointSet) → cut.lo.toNat ≤ c.toNat := by
      rintro c ⟨t, ht, hct⟩
      exact Nat.le_trans (hlater t ht).1 (CodeRange.mem_iff_toNat.1 hct).1
    rw [carve_cons]
    split
    · next hlt =>
      rw [UInt32.lt_iff_toNat_lt] at hlt
      refine ⟨canonical_singleton hr, fun _ ↦ within_of_mem_singleton, fun c ↦ ?_⟩
      rw [mem_cons, or_iff_left not_mem_nil]
      refine ⟨fun hc ↦ ⟨hc, fun hcut ↦ ?_⟩, And.left⟩
      have hc := (CodeRange.mem_iff_toNat.1 hc).2
      rcases mem_cons.1 hcut with hcut | hcut
      · have := (CodeRange.mem_iff_toNat.1 hcut).1
        omega
      · have := hbehind hcut
        omega
    · next hge =>
      rw [UInt32.lt_iff_toNat_lt, Nat.not_lt] at hge
      obtain ⟨hlc, hlw, hlm⟩ := carveLeft_spec hge
      obtain ⟨hrc, hrw, hrm⟩ := carveRight_spec hfirst fun rest hlo hrest ↦
        ih hrest htame fun t ht ↦ by
          have ht := List.mem_of_mem_head? ht
          have := UInt32.le_iff_toNat_le.1 (htame.1 t ht)
          have := (hlater t ht).2
          have := rest.lo.toNat_lt
          omega
      refine ⟨canonical_append.2 ⟨hlc, hrc, fun a ha b hb ↦ ?_⟩, fun piece hp ↦ ?_, fun c ↦ ?_⟩
      · have := (hlw a ha).2
        have := (hrw b hb).2
        omega
      · rcases List.mem_append.1 hp with hp | hp
        · exact (hlw piece hp).1
        · exact (hrw piece hp).1
      · rw [mem_append, hlm, hrm, mem_cons, CodeRange.mem_iff_toNat, CodeRange.mem_iff_toNat]
        by_cases hc : c ∈ (⟨cuts⟩ : CodePointSet)
        · have := hbehind hc
          simp only [hc, not_true_eq_false, and_false, or_true, or_false, iff_false]
          omega
        · simp only [hc, not_false_eq_true, and_true, or_false]
          omega

theorem dropWhile_spec {cuts : List CodeRange} {n : Nat} (hcuts : Canonical ⟨cuts⟩)
    (p : CodeRange → Bool) (hp : ∀ cut, p cut = true ↔ cut.hi.toNat < n) :
    Canonical ⟨cuts.dropWhile p⟩ ∧ (∀ cut ∈ (cuts.dropWhile p).head?, n ≤ cut.hi.toNat) ∧
      ∀ c : CodePoint, n ≤ c.toNat →
        (c ∈ (⟨cuts.dropWhile p⟩ : CodePointSet) ↔ c ∈ (⟨cuts⟩ : CodePointSet)) := by
  have hsplit := List.takeWhile_append_dropWhile (p := p) (l := cuts)
  refine ⟨?_, fun cut hcut ↦ ?_, fun c hc ↦ ?_⟩
  · rw [← hsplit, canonical_append] at hcuts
    exact hcuts.2.1
  · have hnot := List.head?_dropWhile_not p cuts
    rw [Option.mem_def.1 hcut] at hnot
    exact Nat.not_lt.1 fun hlt ↦ Bool.eq_false_iff.1 hnot ((hp cut).2 hlt)
  · conv_rhs => rw [← hsplit]
    rw [mem_append, or_iff_right]
    rintro ⟨cut, hcut, hmem⟩
    have := (hp cut).1 (List.mem_takeWhile_imp hcut)
    have := (CodeRange.mem_iff_toNat.1 hmem).2
    omega

theorem carveAll_spec {cuts : List CodeRange} (hl : Canonical ⟨l⟩) (hcuts : Canonical ⟨cuts⟩) :
    Canonical ⟨carveAll l cuts⟩ ∧ (∀ piece ∈ carveAll l cuts, ∃ r ∈ l, piece.Within r) ∧
      ∀ c, c ∈ (⟨carveAll l cuts⟩ : CodePointSet) ↔
        c ∈ (⟨l⟩ : CodePointSet) ∧ c ∉ (⟨cuts⟩ : CodePointSet) := by
  induction l generalizing cuts with
  | nil => exact ⟨canonical_nil, nofun, fun c ↦ by simp [carveAll]⟩
  | cons r l ih =>
    obtain ⟨hr, hgap, hl⟩ := canonical_cons.1 hl
    have hdrop := @dropWhile_spec cuts r.lo.toNat hcuts (fun cut ↦ cut.hi < r.lo) fun cut ↦ by
      rw [decide_eq_true_eq, UInt32.lt_iff_toNat_lt]
    rw [carveAll]
    generalize cuts.dropWhile (fun cut ↦ cut.hi < r.lo) = rest at hdrop ⊢
    obtain ⟨hrest, hfirst, hmem⟩ := hdrop
    obtain ⟨hc, hw, hm⟩ := carve_spec hr hrest.tame hfirst
    obtain ⟨hcs, hws, hms⟩ := ih hl hrest
    refine ⟨canonical_append.2 ⟨hc, hcs, fun a ha b hb ↦ ?_⟩, fun piece hp ↦ ?_, fun c ↦ ?_⟩
    · obtain ⟨t, ht, hbt⟩ := hws b hb
      have := (hw a ha).2
      have := hgap t ht
      have := hbt.1
      omega
    · rcases List.mem_append.1 hp with hp | hp
      · exact ⟨r, List.mem_cons_self, hw piece hp⟩
      · obtain ⟨t, ht, hpt⟩ := hws piece hp
        exact ⟨t, List.mem_cons_of_mem _ ht, hpt⟩
    · rw [mem_append, hm, hms, mem_cons, or_and_right]
      refine or_congr (and_congr_right fun hcr ↦ ?_) (and_congr_right fun hcl ↦ ?_)
      · rw [hmem c (CodeRange.mem_iff_toNat.1 hcr).1]
      · have := lt_of_mem hgap hcl
        rw [hmem c (by omega)]

theorem Canonical.subtract (hs : s.Canonical) (ht : t.Canonical) : (s.subtract t).Canonical :=
  (carveAll_spec hs ht).1

theorem mem_subtract (hs : s.Canonical) (ht : t.Canonical) :
    c ∈ s.subtract t ↔ c ∈ s ∧ c ∉ t :=
  (carveAll_spec hs ht).2.2 c

/-! ## Sets of ranges -/

/-- What comes of ranges that are sorted by their lower ends is tame and has the same members. -/
theorem coalesce_spec (hr : r.lo.toNat ≤ r.hi.toNat) (hl : ∀ t ∈ l, t.lo.toNat ≤ t.hi.toNat)
    (hfirst : ∀ t ∈ l, r.lo.toNat ≤ t.lo.toNat)
    (hsorted : l.Pairwise fun a b ↦ a.lo.toNat ≤ b.lo.toNat) :
    Tame ⟨coalesce r l⟩ ∧ (∀ t ∈ coalesce r l, r.lo.toNat ≤ t.lo.toNat) ∧
      ∀ c, c ∈ (⟨coalesce r l⟩ : CodePointSet) ↔ c ∈ r ∨ c ∈ (⟨l⟩ : CodePointSet) := by
  induction l generalizing r with
  | nil =>
    rw [coalesce]
    refine ⟨tame_cons.2 ⟨hr, nofun, nofun, .nil⟩, fun t ht ↦ ?_, fun c ↦ mem_cons⟩
    rw [List.mem_singleton.1 ht]
  | cons next l ih =>
    obtain ⟨hnext, hl⟩ := List.forall_mem_cons.1 hl
    obtain ⟨hrn, hfirst⟩ := List.forall_mem_cons.1 hfirst
    obtain ⟨hnl, hsorted⟩ := List.pairwise_cons.1 hsorted
    have := r.hi.toNat_lt
    have := next.hi.toNat_lt
    have hsucc : (r.hi + 1).toNat = (r.hi.toNat + 1) % 2 ^ 32 := by
      rw [UInt32.toNat_add, UInt32.toNat_one]
    rw [coalesce]
    split
    · next hle =>
      rw [UInt32.le_iff_toNat_le, hsucc] at hle
      have hmax := toNat_max r.hi next.hi
      obtain ⟨htame, hlo, hmem⟩ := ih (r := ⟨r.lo, max r.hi next.hi⟩) (by dsimp only; omega) hl
        hfirst hsorted
      refine ⟨htame, hlo, fun c ↦ ?_⟩
      rw [hmem, mem_cons, ← or_assoc]
      refine or_congr_left ?_
      simp only [CodeRange.mem_iff_toNat, hmax]
      omega
    · next hgt =>
      rw [UInt32.le_iff_toNat_le, hsucc] at hgt
      obtain ⟨htame, hlo, hmem⟩ := ih hnext hl hnl hsorted
      refine ⟨tame_cons.2 ⟨hr, fun t ht ↦ ?_, htame⟩, fun t ht ↦ ?_, fun c ↦ ?_⟩
      · have := hlo t ht
        omega
      · rcases List.mem_cons.1 ht with rfl | ht
        · exact Nat.le_refl _
        · exact Nat.le_trans hrn (hlo t ht)
      · rw [mem_cons, hmem, mem_cons]

/-- Whatever ranges a set is made of, it is tame and has their members. -/
theorem ofRanges_spec (l : List CodeRange) :
    (ofRanges l).Tame ∧ ∀ c, c ∈ ofRanges l ↔ ∃ r ∈ l, c ∈ r := by
  have hmem : ∀ r, r ∈ (l.filter CodeRange.nonempty).mergeSort CodeRange.le ↔
      r ∈ l ∧ r.lo.toNat ≤ r.hi.toNat := by
    intro r
    rw [List.mem_mergeSort, List.mem_filter, CodeRange.nonempty, decide_eq_true_eq,
      UInt32.le_iff_toNat_le]
  have hsorted : ((l.filter CodeRange.nonempty).mergeSort CodeRange.le).Pairwise
      fun a b ↦ a.lo.toNat ≤ b.lo.toNat := by
    refine List.Pairwise.imp (fun {a b} hab ↦ ?_)
      (List.pairwise_mergeSort (fun a b c hab hbc ↦ ?_) (fun a b ↦ ?_) _)
    · have := CodeRange.le_iff.1 hab
      omega
    · rw [CodeRange.le_iff] at *
      omega
    · rw [Bool.or_eq_true, CodeRange.le_iff, CodeRange.le_iff]
      omega
  have hall : ∀ c, (∃ r ∈ l, c ∈ r) ↔
      c ∈ (⟨(l.filter CodeRange.nonempty).mergeSort CodeRange.le⟩ : CodePointSet) := by
    refine fun c ↦ ⟨?_, fun ⟨r, hr, hc⟩ ↦ ⟨r, ((hmem r).1 hr).1, hc⟩⟩
    rintro ⟨r, hr, hc⟩
    have hbounds := CodeRange.mem_iff_toNat.1 hc
    exact ⟨r, (hmem r).2 ⟨hr, by omega⟩, hc⟩
  unfold ofRanges
  generalize (l.filter CodeRange.nonempty).mergeSort CodeRange.le = sorted at hmem hsorted hall ⊢
  cases sorted with
  | nil => exact ⟨⟨nofun, .nil⟩, fun c ↦ (hall c).symm⟩
  | cons first rest =>
    obtain ⟨hfirst, hsorted⟩ := List.pairwise_cons.1 hsorted
    obtain ⟨htame, -, hmem'⟩ := coalesce_spec ((hmem first).1 List.mem_cons_self).2
      (fun t ht ↦ ((hmem t).1 (List.mem_cons_of_mem _ ht)).2) hfirst hsorted
    refine ⟨htame, fun c ↦ ?_⟩
    rw [hall, mem_cons]
    exact hmem' c

/-! ## Up to the largest code point -/

theorem range_zero (max : CodePoint) : range 0 max = ⟨[⟨0, max⟩]⟩ := if_neg (by simp)

theorem canonical_range (lo hi : CodePoint) : (range lo hi).Canonical := by
  unfold range
  split
  · exact canonical_nil
  · next h =>
    rw [UInt32.lt_iff_toNat_lt, Nat.not_lt] at h
    exact canonical_cons.2 ⟨h, nofun, canonical_nil⟩

theorem mem_range {lo hi : CodePoint} : c ∈ range lo hi ↔ lo ≤ c ∧ c ≤ hi := by
  unfold range
  split
  · next h =>
    refine iff_of_false not_mem_nil ?_
    simp only [UInt32.le_iff_toNat_le, UInt32.lt_iff_toNat_lt] at h ⊢
    omega
  · rw [mem_cons, or_iff_left not_mem_nil, CodeRange.mem_iff]

theorem complement_spec {max : CodePoint} (hs : s.Tame) :
    (s.complement max).Canonical ∧ ∀ c, c ∈ s.complement max ↔ c ≤ max ∧ c ∉ s := by
  have hkeep : s.ranges.dropWhile (fun cut ↦ cut.hi < 0) = s.ranges := by
    cases s.ranges with
    | nil => rfl
    | cons r l => rw [List.dropWhile_cons_of_neg (by simp)]
  have heq : s.complement max = ⟨carve ⟨0, max⟩ s.ranges⟩ := by
    rw [complement, subtract, range_zero, carveAll, carveAll, List.append_nil, hkeep]
  obtain ⟨hcanonical, -, hmem⟩ := @carve_spec ⟨0, max⟩ s.ranges (by simp) hs (by simp)
  rw [heq]
  refine ⟨hcanonical, fun c ↦ ?_⟩
  rw [hmem, CodeRange.mem_iff]
  simp

theorem Tame.canonical {max : CodePoint} (hs : s.Tame) (hmax : max.toNat + 1 < 2 ^ 32)
    (hle : ∀ c ∈ s, c ≤ max) : s.Canonical := by
  refine ⟨hs.1, hs.2.imp_of_mem fun {r t} hr _ h ↦ h.2.resolve_left ?_⟩
  have hhi := UInt32.le_iff_toNat_le.1 (hle r.hi ⟨r, hr, hs.1 r hr, UInt32.le_refl _⟩)
  omega

theorem Tame.canonical_intersect {max : CodePoint} (hs : s.Tame) (hmax : max.toNat + 1 < 2 ^ 32) :
    (s.intersect (range 0 max)).Canonical := by
  obtain ⟨l⟩ := s
  rw [intersect, range_zero]
  dsimp only
  induction l with
  | nil => rw [commonRanges]; exact canonical_nil
  | cons r l ih =>
    obtain ⟨hr, hlater, hl⟩ := tame_cons.1 hs
    have hrest : Canonical ⟨commonRest r ⟨0, max⟩ l []⟩ ∧
        ∀ t ∈ commonRest r ⟨0, max⟩ l [], min r.hi.toNat max.toNat + 2 ≤ t.lo.toNat := by
      unfold commonRest
      split
      · next hlt =>
        rw [UInt32.lt_iff_toNat_lt] at hlt
        dsimp only at hlt
        refine ⟨ih hl, fun t ht ↦ ?_⟩
        obtain ⟨-, ⟨x, hx, htx⟩, -⟩ := within_of_mem_commonRanges ht
        have := (hlater x hx).2
        have := htx.1
        omega
      · rw [commonRanges]
        · exact ⟨canonical_nil, List.forall_mem_nil _⟩
        · rintro ⟨⟩
    rw [commonRanges_cons]
    split
    · next hle =>
      rw [canonical_cons]
      simp only [toNat_max, toNat_min]
      exact ⟨hle, hrest.2, hrest.1⟩
    · exact hrest.1

theorem Tame.mem_intersect {max : CodePoint} (hs : s.Tame) :
    c ∈ s.intersect (range 0 max) ↔ c ∈ s ∧ c ≤ max := by
  obtain ⟨l⟩ := s
  rw [intersect, range_zero]
  dsimp only
  induction l with
  | nil =>
    rw [commonRanges]
    simp
  | cons r l ih =>
    obtain ⟨hr, hlater, hl⟩ := tame_cons.1 hs
    have hcommon : c ∈ (⟨Max.max r.lo 0, min r.hi max⟩ : CodeRange) ↔ c ∈ r ∧ c ≤ max := by
      rw [CodeRange.mem_iff_toNat, CodeRange.mem_iff_toNat, UInt32.le_iff_toNat_le, toNat_max,
        toNat_min]
      simp
      omega
    have hall : c ∈ (⟨commonRanges (r :: l) [⟨0, max⟩]⟩ : CodePointSet) ↔
        (c ∈ r ∧ c ≤ max) ∨ c ∈ (⟨commonRest r ⟨0, max⟩ l []⟩ : CodePointSet) := by
      rw [commonRanges_cons]
      split
      · rw [mem_cons, hcommon]
      · next hgt =>
        refine (or_iff_right fun hboth ↦ hgt ?_).symm
        have := CodeRange.mem_iff_toNat.1 hboth.1
        have := UInt32.le_iff_toNat_le.1 hboth.2
        simp only [UInt32.toNat_zero]
        omega
    rw [hall, mem_cons, or_and_right]
    unfold commonRest
    split
    · rw [ih hl]
    · next hge =>
      -- what later ranges have within the limit is in this one as well
      have hin : c ∈ (⟨l⟩ : CodePointSet) ∧ c ≤ max → c ∈ r ∧ c ≤ max := by
        rintro ⟨⟨t, ht, hc⟩, hle⟩
        have hlo := (hlater t ht).1
        have hc := (CodeRange.mem_iff_toNat.1 hc).1
        have hmax := UInt32.le_iff_toNat_le.1 hle
        have hge : max.toNat ≤ r.hi.toNat := UInt32.le_iff_toNat_le.1 (UInt32.not_lt.1 hge)
        exact ⟨CodeRange.mem_iff_toNat.2 ⟨by omega, by omega⟩, hle⟩
      have hnil : commonRanges (r :: l) [] = [] := by
        rw [commonRanges]
        rintro ⟨⟩
      rw [hnil, or_iff_left not_mem_nil, or_iff_left_of_imp hin]

end CodePointSet

theorem Encoding.canonical_fullSet (e : Encoding) : e.fullSet.Canonical :=
  CodePointSet.canonical_range _ _

theorem Encoding.mem_fullSet {e : Encoding} {c : CodePoint} :
    c ∈ e.fullSet ↔ c ≤ e.maxCodePoint := by
  rw [fullSet, CodePointSet.mem_range, and_iff_right (UInt32.zero_le)]

end PatternAutomata
