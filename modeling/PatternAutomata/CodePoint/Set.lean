import PatternAutomata.CodePoint.Range

/-!
# Sets of code points

A set is stored as a list of ranges. The lists that `ofRanges` makes from ranges below the largest
word are *canonical*: ascending, and with a gap between any two neighbours, so that equal sets have
equal lists. All operations keep canonical lists canonical, and they are single passes over the two
lists.

The operations are defined on every list, canonical or not. The one source of other lists is a
range that ends at the largest word, behind which no later range is absorbed, since the successor
of its end wraps to zero. Membership is therefore stated for the search that is made, and only
agrees with lying in some range when the list is canonical.
-/

namespace PatternAutomata

/-- A set of code points, as the ranges that make it up. -/
structure CodePointSet where
  /-- The ranges, in stored order. -/
  ranges : List CodeRange
deriving DecidableEq, Repr, Inhabited

namespace CodePointSet

/-- A code point is a member when it lies in one of the stored ranges. -/
instance : Membership CodePoint CodePointSet where
  mem s c := ∃ r ∈ s.ranges, c ∈ r

theorem mem_iff {c : CodePoint} {s : CodePointSet} : c ∈ s ↔ ∃ r ∈ s.ranges, c ∈ r := Iff.rfl

/-- The ranges are nonempty, ascending, and any two of them leave out a code point between them.
The gap is stated on naturals, so nothing wraps in it. -/
def Canonical (s : CodePointSet) : Prop :=
  (∀ r ∈ s.ranges, r.lo ≤ r.hi) ∧ s.ranges.Pairwise fun r t ↦ r.hi.toNat + 2 ≤ t.lo.toNat

/-! ## Making sets -/

def empty : CodePointSet := ⟨[]⟩

def single (c : CodePoint) : CodePointSet := ⟨[.single c]⟩

/-- The code points from `lo` up to `hi`; empty when the ends are in the wrong order. -/
def range (lo hi : CodePoint) : CodePointSet := if hi < lo then empty else ⟨[⟨lo, hi⟩]⟩

/-- Runs through ascending ranges with the range made so far, which absorbs every range that
overlaps it or starts at the code point right behind it. -/
def coalesce (current : CodeRange) : List CodeRange → List CodeRange
  | [] => [current]
  | next :: rest =>
    if next.lo ≤ current.hi + 1 then coalesce ⟨current.lo, max current.hi next.hi⟩ rest
    else current :: coalesce next rest

/-- The set of the code points that lie in some of the given ranges, which may be empty, overlap,
touch and come in any order. -/
def ofRanges (ranges : List CodeRange) : CodePointSet :=
  match (ranges.filter CodeRange.nonempty).mergeSort CodeRange.le with
  | [] => empty
  | first :: rest => ⟨coalesce first rest⟩

/-! ## Questions -/

/-- Whether the set stores no range. -/
def isEmpty (s : CodePointSet) : Bool := s.ranges.isEmpty

/-- How many code points the stored ranges hold together. -/
def size (s : CodePointSet) : Nat := s.ranges.foldr (fun r n ↦ r.size + n) 0

/-- Halving search for the last range that starts at or below `c`; `before` is the range that
stands right in front of those still searched. -/
def lastStartingBelow (c : CodePoint) (before : Option CodeRange) (ranges : List CodeRange) :
    Option CodeRange :=
  match h : ranges.drop (ranges.length / 2) with
  | [] => before
  | middle :: after =>
    if c < middle.lo then lastStartingBelow c before (ranges.take (ranges.length / 2))
    else lastStartingBelow c (some middle) after
termination_by ranges.length
decreasing_by
  · have := congrArg List.length h
    simp only [List.length_drop, List.length_cons] at this
    simp only [List.length_take]
    omega
  · have := congrArg List.length h
    simp only [List.length_drop, List.length_cons] at this
    omega

/-- Whether `c` is in the set, decided by the one range that can hold it in a canonical list. -/
def contains (s : CodePointSet) (c : CodePoint) : Bool :=
  match lastStartingBelow c none s.ranges with
  | none => false
  | some r => c ≤ r.hi

/-- Whether two ascending lists of ranges share a code point. Of two ranges that do not, the one
that ends first is passed over. -/
def rangesMeet : List CodeRange → List CodeRange → Bool
  | [], _ => false
  | _, [] => false
  | a :: as, b :: bs =>
    if a.hi < b.lo then rangesMeet as (b :: bs)
    else if b.hi < a.lo then rangesMeet (a :: as) bs
    else true
termination_by as bs => as.length + bs.length

def intersects (s t : CodePointSet) : Bool := rangesMeet s.ranges t.ranges

/-! ## Algebra -/

/-- The common parts of two ascending lists of ranges. Once a pair has been compared, the range
that ends first can have no further part, and the second list gives way on a tie. -/
def commonRanges : List CodeRange → List CodeRange → List CodeRange
  | [], _ => []
  | _, [] => []
  | a :: as, b :: bs =>
    let common : CodeRange := ⟨max a.lo b.lo, min a.hi b.hi⟩
    let rest := if a.hi < b.hi then commonRanges as (b :: bs) else commonRanges (a :: as) bs
    if common.nonempty then common :: rest else rest
termination_by as bs => as.length + bs.length

def intersect (s t : CodePointSet) : CodePointSet := ⟨commonRanges s.ranges t.ranges⟩

def union (s t : CodePointSet) : CodePointSet := ofRanges (s.ranges ++ t.ranges)

/-- What the ascending cuts leave of one range. -/
def carve (r : CodeRange) : List CodeRange → List CodeRange
  | [] => [r]
  | cut :: cuts =>
    if r.hi < cut.lo then [r]
    else
      let left := if r.lo < cut.lo then [⟨r.lo, cut.lo - 1⟩] else []
      if r.hi ≤ cut.hi then left else left ++ carve ⟨cut.hi + 1, r.hi⟩ cuts

/-- What the cuts leave of ascending ranges. A cut that ends below a range ends below all later
ones too, so it is dropped for good. -/
def carveAll : List CodeRange → List CodeRange → List CodeRange
  | [], _ => []
  | r :: rs, cuts =>
    let cuts := cuts.dropWhile fun cut ↦ cut.hi < r.lo
    carve r cuts ++ carveAll rs cuts

def subtract (s t : CodePointSet) : CodePointSet := ⟨carveAll s.ranges t.ranges⟩

/-- The code points up to `max` that are not in the set. -/
def complement (s : CodePointSet) (max : CodePoint) : CodePointSet := (range 0 max).subtract s

end CodePointSet

end PatternAutomata
