import PatternAutomata.Proofs.CodePoint.Lookup

/-!
# Sets with all arithmetic checked

The algebra once more, with every sum and every difference of code points checked: where one would
wrap there is no result. A cut is only stepped over towards an end that lies beyond it, so cutting
out never wraps, whatever the lists are. Measuring a range does not as long as its ends are in
order.

With that, all that the operations on canonical sets are meant to do is put together.
-/

namespace PatternAutomata

namespace CodePoint

/-- The code point behind another one, unless it would wrap. -/
def succ? (c : CodePoint) : Option CodePoint :=
  if c.toNat + 1 < 2 ^ 32 then some (c + 1) else none

/-- The code point in front of another one, unless it would wrap. -/
def pred? (c : CodePoint) : Option CodePoint := if 1 ≤ c.toNat then some (c - 1) else none

/-- How far a code point lies behind another one, unless that would wrap. -/
def sub? (c d : CodePoint) : Option CodePoint := if d.toNat ≤ c.toNat then some (c - d) else none

variable {c d : CodePoint}

theorem succ?_eq (h : c < d) : c.succ? = some (c + 1) := by
  have := d.toNat_lt
  rw [UInt32.lt_iff_toNat_lt] at h
  exact if_pos (by omega)

theorem pred?_eq (h : c < d) : d.pred? = some (d - 1) := by
  rw [UInt32.lt_iff_toNat_lt] at h
  exact if_pos (by omega)

end CodePoint

def CodeRange.size? (r : CodeRange) : Option Nat := do
  let last ← r.hi.sub? r.lo
  return last.toNat + 1

theorem CodeRange.size?_eq {r : CodeRange} (h : r.lo ≤ r.hi) : r.size? = some r.size := by
  rw [CodeRange.size?, CodePoint.sub?, if_pos (UInt32.le_iff_toNat_le.1 h)]
  rfl

namespace CodePointSet

/-! ## The checked operations -/

def size? (s : CodePointSet) : Option Nat :=
  s.ranges.foldrM (fun r n ↦ do return (← r.size?) + n) 0

def carveLeft? (r cut : CodeRange) : Option (List CodeRange) :=
  if r.lo < cut.lo then do
    let hi ← cut.lo.pred?
    return [⟨r.lo, hi⟩]
  else some []

def carve? (r : CodeRange) : List CodeRange → Option (List CodeRange)
  | [] => some [r]
  | cut :: cuts =>
    if r.hi < cut.lo then some [r]
    else do
      let left ← carveLeft? r cut
      if r.hi ≤ cut.hi then return left
      else do
        let lo ← cut.hi.succ?
        return left ++ (← carve? ⟨lo, r.hi⟩ cuts)

def carveAll? : List CodeRange → List CodeRange → Option (List CodeRange)
  | [], _ => some []
  | r :: rs, cuts => do
    let cuts := cuts.dropWhile fun cut ↦ cut.hi < r.lo
    return (← carve? r cuts) ++ (← carveAll? rs cuts)

def subtract? (s t : CodePointSet) : Option CodePointSet := do
  return ⟨← carveAll? s.ranges t.ranges⟩

def complement? (s : CodePointSet) (max : CodePoint) : Option CodePointSet :=
  (range 0 max).subtract? s

/-! ## No check fails -/

variable {c : CodePoint} {r cut : CodeRange} {l cuts : List CodeRange} {s t : CodePointSet}

theorem carveLeft?_eq : carveLeft? r cut = some (carveLeft r cut) := by
  unfold carveLeft? carveLeft
  split
  · next hlt =>
    rw [CodePoint.pred?_eq hlt]
    rfl
  · rfl

theorem carve?_eq : carve? r cuts = some (carve r cuts) := by
  induction cuts generalizing r with
  | nil => rfl
  | cons cut cuts ih =>
    rw [carve?, carve_cons, carveLeft?_eq, Option.bind_eq_bind, Option.bind_some]
    unfold carveRight
    split
    · rfl
    · split
      · rw [List.append_nil]
        rfl
      · next hlt =>
        rw [CodePoint.succ?_eq (UInt32.not_le.1 hlt), Option.bind_eq_bind, Option.bind_some, ih]
        rfl

theorem carveAll?_eq : carveAll? l cuts = some (carveAll l cuts) := by
  induction l generalizing cuts with
  | nil => rfl
  | cons r l ih =>
    rw [carveAll?, carveAll, carve?_eq]
    simp only [Option.bind_eq_bind, Option.bind_some, ih]
    rfl

/-- **Cutting out never wraps.** -/
theorem subtract?_eq (s t : CodePointSet) : s.subtract? t = some (s.subtract t) := by
  rw [subtract?, carveAll?_eq]
  rfl

/-- **Measuring wraps nowhere** if no range has its ends in the wrong order. -/
theorem size?_eq (h : ∀ r ∈ s.ranges, r.lo ≤ r.hi) : s.size? = some s.size := by
  obtain ⟨l⟩ := s
  induction l with
  | nil => rfl
  | cons r l ih =>
    obtain ⟨hr, hl⟩ := List.forall_mem_cons.1 h
    have hrest : l.foldrM (fun r n ↦ do return (← r.size?) + n) 0 = some (size ⟨l⟩) := ih hl
    rw [size?, List.foldrM_cons, hrest, Option.bind_eq_bind, Option.bind_some,
      CodeRange.size?_eq hr]
    rfl

/-! ## Exactness -/

/-- The operations on two sets do what their names say, and none of their sums and differences
wraps. -/
structure Exact (s t : CodePointSet) : Prop where
  canonical_intersect : (s.intersect t).Canonical
  canonical_subtract : (s.subtract t).Canonical
  canonical_complement : ∀ max, (s.complement max).Canonical
  contains : ∀ c, s.contains c = true ↔ c ∈ s
  contains_intersect : ∀ c, (s.intersect t).contains c = true ↔ c ∈ s ∧ c ∈ t
  contains_subtract : ∀ c, (s.subtract t).contains c = true ↔ c ∈ s ∧ c ∉ t
  contains_complement : ∀ max c, (s.complement max).contains c = true ↔ c ≤ max ∧ c ∉ s
  intersects : s.intersects t = true ↔ ∃ c, c ∈ s ∧ c ∈ t
  size : {c : CodePoint | c ∈ s}.encard = s.size
  eq_iff : s = t ↔ ∀ c, c ∈ s ↔ c ∈ t
  subtract_checked : s.subtract? t = some (s.subtract t)
  complement_checked : ∀ max, s.complement? max = some (s.complement max)
  size_checked : s.size? = some s.size

/-- **The algebra of canonical sets is exact**, over all 32-bit words. -/
theorem Canonical.algebra_exact (hs : s.Canonical) (ht : t.Canonical) : s.Exact t where
  canonical_intersect := hs.intersect ht
  canonical_subtract := hs.subtract ht
  canonical_complement max := (complement_spec hs.tame).1
  contains c := contains_iff hs
  contains_intersect c := (contains_iff (hs.intersect ht)).trans (mem_intersect hs ht)
  contains_subtract c := (contains_iff (hs.subtract ht)).trans (mem_subtract hs ht)
  contains_complement max c :=
    (contains_iff (complement_spec hs.tame).1).trans ((complement_spec hs.tame).2 c)
  intersects := intersects_iff hs ht
  size := encard_eq_size hs
  eq_iff := ⟨fun heq _ ↦ by rw [heq], hs.ext ht⟩
  subtract_checked := subtract?_eq s t
  complement_checked max := subtract?_eq (range 0 max) s
  size_checked := size?_eq hs.1

/-- Two sets that reach both ends of the words. -/
theorem exact_both_ends :
    let s : CodePointSet := ⟨[⟨0, 0x20⟩, ⟨0x80, 0xffffffff⟩]⟩
    let t : CodePointSet := ⟨[⟨0, 0⟩, ⟨0x22, 0x90⟩, ⟨0xffffffff, 0xffffffff⟩]⟩
    s.Canonical ∧ t.Canonical ∧ s.Exact t ∧
      s.subtract t = ⟨[⟨1, 0x20⟩, ⟨0x91, 0xfffffffe⟩]⟩ := by
  have hs : Canonical ⟨[⟨0, 0x20⟩, ⟨0x80, 0xffffffff⟩]⟩ := by decide
  have ht : Canonical ⟨[⟨0, 0⟩, ⟨0x22, 0x90⟩, ⟨0xffffffff, 0xffffffff⟩]⟩ := by decide
  exact ⟨hs, ht, Canonical.algebra_exact hs ht, by decide⟩

end CodePointSet

end PatternAutomata
