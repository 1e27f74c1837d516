/-!
# Code points and their ranges

A code point is a 32-bit word. Words rather than naturals are used because a set may reach up to
the largest word, where the successor of a code point wraps to zero; every rule that speaks of "the
next code point" is a rule about words.

A range holds both of its ends. Its two ends may stand in the wrong order, in which case it holds
nothing; sets never store such a range, but a caller may hand one in.
-/

namespace PatternAutomata

/-- A character code, as a 32-bit word. -/
abbrev CodePoint := UInt32

/-- The code points from `lo` up to `hi`, both included. -/
structure CodeRange where
  /-- The least code point of the range. -/
  lo : CodePoint
  /-- The greatest code point of the range. -/
  hi : CodePoint
deriving DecidableEq, Repr, Inhabited

namespace CodeRange

/-- A code point lies in a range when it lies between the two ends. -/
instance : Membership CodePoint CodeRange where
  mem r c := r.lo ≤ c ∧ c ≤ r.hi

theorem mem_iff {c : CodePoint} {r : CodeRange} : c ∈ r ↔ r.lo ≤ c ∧ c ≤ r.hi := Iff.rfl

instance (c : CodePoint) (r : CodeRange) : Decidable (c ∈ r) :=
  inferInstanceAs (Decidable (_ ∧ _))

def single (c : CodePoint) : CodeRange := ⟨c, c⟩

def nonempty (r : CodeRange) : Bool := r.lo ≤ r.hi

def size (r : CodeRange) : Nat := (r.hi - r.lo).toNat + 1

/-- The order in which a set is built: by lower end, and by upper end where the lower ends agree. -/
def le (r s : CodeRange) : Bool := r.lo < s.lo || (r.lo == s.lo && r.hi ≤ s.hi)

end CodeRange

end PatternAutomata
