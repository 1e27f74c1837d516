import PatternAutomata.Bytes
import PatternAutomata.CodePoint.Range

/-!
# Lenient UTF-8

Characters of a pattern are read as UTF-8, but no byte string is refused. The first byte says how
many continuation bytes may follow, and as many are taken as are there. What comes of bytes that
are not UTF-8 is whatever number their bits make, which may even be an ASCII code.
-/

namespace PatternAutomata

namespace Utf8

/-- Whether a byte continues a character. -/
def isContinuation (b : UInt8) : Bool := b &&& 0xc0 == 0x80

/-- How many continuation bytes may follow a first byte. -/
def continuations (b : UInt8) : Nat :=
  if 0xf0 ≤ b then 3 else if 0xe0 ≤ b then 2 else if 0xc0 ≤ b then 1 else 0

/-- The bits that a first byte beyond ASCII gives to its character. -/
def leadBits (b : UInt8) : UInt8 := b &&& (0x3f >>> UInt8.ofNat (continuations b))

/-- Takes up to `n` continuation bytes, each of which adds six bits. -/
def takeContinuations : Nat → CodePoint → Bytes → CodePoint × Bytes
  | n + 1, c, b :: rest =>
    if isContinuation b then
      takeContinuations n (c <<< 6 ||| (b &&& 0x3f).toUInt32) rest
    else (c, b :: rest)
  | _, c, rest => (c, rest)

/-- Reads the character that starts with `b`. -/
def decode (b : UInt8) (rest : Bytes) : CodePoint × Bytes :=
  if b < 0x80 then (b.toUInt32, rest)
  else takeContinuations (continuations b) (leadBits b).toUInt32 rest

theorem takeContinuations_suffix (n : Nat) (c : CodePoint) (s : Bytes) :
    (takeContinuations n c s).2 <:+ s := by
  fun_induction takeContinuations n c s with
  | case1 n c b rest _ ih => exact ih.trans (List.suffix_cons _ _)
  | case2 => exact List.suffix_refl _
  | case3 => exact List.suffix_refl _

theorem decode_suffix (b : UInt8) (rest : Bytes) : (decode b rest).2 <:+ rest := by
  unfold decode
  split
  · exact List.suffix_refl _
  · exact takeContinuations_suffix _ _ _

end Utf8

end PatternAutomata
