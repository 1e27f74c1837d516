import PatternAutomata.Pattern.Parse
import PatternAutomata.Proofs.CodePoint.Algebra

/-!
# The classes of patterns

Whatever is written in a pattern, the set of a class is canonical and has no code points beyond the
encoding. Sets on the way there need not be canonical, since a range may be written up to any code
point; cutting off what lies beyond the encoding comes last and makes up for that.
-/

namespace PatternAutomata

variable {encoding : Encoding}

/-- A set that a class may have in an encoding. -/
def Encoding.Fits (encoding : Encoding) (set : CodePointSet) : Prop :=
  set.Canonical ∧ ∀ c ∈ set, c ≤ encoding.maxCodePoint

theorem Encoding.fits_fullSet (encoding : Encoding) : encoding.Fits encoding.fullSet :=
  ⟨encoding.canonical_fullSet, fun _ ↦ Encoding.mem_fullSet.1⟩

theorem Encoding.toNat_maxCodePoint (encoding : Encoding) :
    encoding.maxCodePoint.toNat + 1 < 2 ^ 32 := by
  cases encoding <;> decide

theorem Encoding.fits_intersect {s : CodePointSet} (hs : s.Tame) :
    encoding.Fits (s.intersect encoding.fullSet) := by
  refine ⟨hs.canonical_intersect encoding.toNat_maxCodePoint, fun c ⟨r, hr, hc⟩ ↦ ?_⟩
  obtain ⟨-, -, full, hfull, -, hle⟩ := CodePointSet.within_of_mem_commonRanges hr
  rw [Encoding.fullSet, CodePointSet.range_zero, List.mem_singleton] at hfull
  rw [hfull] at hle
  exact UInt32.le_iff_toNat_le.2 (Nat.le_trans (CodeRange.mem_iff_toNat.1 hc).2 hle)

theorem CharKind.tame_set (k : CharKind) : k.set.Tame := by
  cases k with
  | digit => exact (CodePointSet.canonical_range _ _).tame
  | word => exact (CodePointSet.ofRanges_spec _).1
  | space => exact (CodePointSet.ofRanges_spec _).1

theorem ClassEscape.fits_set (e : ClassEscape) : encoding.Fits (e.set encoding) := by
  refine Encoding.fits_intersect ?_
  split
  · exact (CodePointSet.complement_spec e.kind.tame_set).1.tame
  · exact e.kind.tame_set

theorem CharClass.fits_set (c : CharClass) : encoding.Fits (c.set encoding) := by
  refine Encoding.fits_intersect ?_
  split
  · exact (CodePointSet.complement_spec (CodePointSet.ofRanges_spec _).1).1.tame
  · exact (CodePointSet.ofRanges_spec _).1

/-- **The classes of a pattern fit the encoding.** -/
theorem Atom.fits_kind {a : Atom} {set : CodePointSet} {claim : Option Nat}
    (h : a.kind encoding = .chars set claim) : encoding.Fits set := by
  cases a with
  | any =>
    cases h
    exact Encoding.fits_intersect
      (CodePointSet.complement_spec (CodePointSet.ofRanges_spec _).1).1.tame
  | literal c =>
    cases h
    refine Encoding.fits_intersect (CodePointSet.Canonical.tame ?_)
    exact CodePointSet.canonical_cons.2 ⟨Nat.le_refl _, nofun, CodePointSet.canonical_nil⟩
  | escape e =>
    cases h
    exact e.fits_set
  | bracket c =>
    cases h
    exact c.fits_set
  | caret => cases h
  | dollar => cases h

end PatternAutomata
