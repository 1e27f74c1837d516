import PatternAutomata.CodePoint.Set

/-!
# The written form of a set of code points

A set is written as a bracket class, as it could stand in a pattern. Graphic ASCII characters stand
for themselves, unless they mean something between brackets; everything else is a braced escape.
Two neighbours are written side by side and only longer ranges get a dash.
-/

namespace PatternAutomata

namespace CodePoint

/-- Whether a code point is written as the character itself: it is a graphic ASCII character
that has no meaning of its own between brackets. -/
def isPlain (c : CodePoint) : Bool :=
  0x20 < c && c < 0x7f && c != 0x2d && c != 0x5b && c != 0x5d && c != 0x5c

/-- The characters of `\u{…}` with the code in hexadecimal digits, lower case, no leading zero. -/
def escaped (c : CodePoint) : List Char :=
  '\\' :: 'u' :: '\x7b' :: (Nat.toDigits 16 c.toNat ++ ['\x7d'])

def written (c : CodePoint) : List Char :=
  if c.isPlain then [Char.ofNat c.toNat] else c.escaped

end CodePoint

/-- The written form of a range: one end if there is no other, both side by side if nothing lies
between them, and else both with a dash. -/
def CodeRange.written (r : CodeRange) : List Char :=
  if r.hi = r.lo then r.lo.written
  else if r.hi = r.lo + 1 then r.lo.written ++ r.hi.written
  else r.lo.written ++ '-' :: r.hi.written

namespace CodePointSet

/-- The characters of the written form. -/
def written (s : CodePointSet) : List Char :=
  '[' :: (s.ranges.flatMap CodeRange.written ++ [']'])

def toString (s : CodePointSet) : String := String.ofList s.written

instance : ToString CodePointSet := ⟨CodePointSet.toString⟩

end CodePointSet

end PatternAutomata
