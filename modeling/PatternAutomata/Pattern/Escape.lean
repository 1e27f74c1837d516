import PatternAutomata.Pattern.Error
import PatternAutomata.Pattern.Utf8

/-!
# Escaped characters

Everything here starts right behind a backslash. An escape that is cut short falls back to the
letter itself, except for Unicode escapes, which must be complete. A backslash at the very end of a
pattern stands for itself.
-/

namespace PatternAutomata

def isLetter (b : UInt8) : Bool := (0x41 ≤ b && b ≤ 0x5a) || (0x61 ≤ b && b ≤ 0x7a)

def isHexDigit (b : UInt8) : Bool :=
  isDigit b || (0x41 ≤ b && b ≤ 0x46) || (0x61 ≤ b && b ≤ 0x66)

def hexValue (b : UInt8) : CodePoint :=
  if isDigit b then (b - 0x30).toUInt32 else ((b ||| 0x20) - 0x61 + 10).toUInt32

def isOctalDigit (b : UInt8) : Bool := 0x30 ≤ b && b ≤ 0x37

namespace Escape

/-- The escapes of one letter that stand for control characters. -/
def control? (b : UInt8) : Option CodePoint :=
  if b = 0x66 then some 0x0c
  else if b = 0x6e then some 0x0a
  else if b = 0x72 then some 0x0d
  else if b = 0x74 then some 0x09
  else if b = 0x76 then some 0x0b
  else none

/-- What follows `\c`: a letter, which gives its place in the alphabet. -/
def readControlLetter : Bytes → CodePoint × Bytes
  | b :: rest => if isLetter b then ((b &&& 0x1f).toUInt32, rest) else (0x63, b :: rest)
  | [] => (0x63, [])

/-- What follows `\x`: two hexadecimal digits. -/
def readHexPair : Bytes → CodePoint × Bytes
  | a :: b :: rest =>
    if isHexDigit a && isHexDigit b then (hexValue a <<< 4 ||| hexValue b, rest)
    else (0x78, a :: b :: rest)
  | rest => (0x78, rest)

/-- Takes hexadecimal digits for as long as the value is within Unicode. -/
def takeHexDigits : CodePoint → Bytes → CodePoint × Bytes
  | value, b :: rest =>
    if isHexDigit b && value ≤ 0x10ffff then takeHexDigits (value <<< 4 ||| hexValue b) rest
    else (value, b :: rest)
  | value, [] => (value, [])

/-- What follows `\u`: four hexadecimal digits, or any number of them between braces. -/
def readUnicode : Bytes → Except ReadError (CodePoint × Bytes)
  | 0x7b :: digits =>
    match takeHexDigits 0 digits with
    | (value, 0x7d :: rest) =>
      if digits.head? = some 0x7d then throw .badUnicodeEscape else return (value, rest)
    | _ => throw .badUnicodeEscape
  | a :: b :: c :: d :: rest =>
    if [a, b, c, d].all isHexDigit then
      return ([a, b, c, d].foldl (fun value digit ↦ value <<< 4 ||| hexValue digit) 0, rest)
    else throw .badUnicodeEscape
  | _ => throw .badUnicodeEscape

/-- Takes octal digits for as long as the value with one more stays within a byte. -/
def takeOctalDigits : CodePoint → Bytes → CodePoint × Bytes
  | value, b :: rest =>
    if isOctalDigit b && value < 0x20 then
      takeOctalDigits (value <<< 3 ||| (b - 0x30).toUInt32) rest
    else (value, b :: rest)
  | value, [] => (value, [])

/-- Reads the character that an escape stands for. What has no meaning of its own stands for
itself, also characters of several bytes. -/
def read : Bytes → Except ReadError (CodePoint × Bytes)
  | [] => return (0x5c, [])
  | b :: rest =>
    match control? b with
    | some c => return (c, rest)
    | none =>
      if b = 0x63 then return readControlLetter rest
      else if b = 0x78 then return readHexPair rest
      else if b = 0x75 then readUnicode rest
      else if b = 0x30 then return takeOctalDigits 0 rest
      else return Utf8.decode b rest

/-! ## What is left is a rest of what was there -/

theorem readControlLetter_suffix (s : Bytes) : (readControlLetter s).2 <:+ s := by
  unfold readControlLetter
  split
  · split
    · exact List.suffix_cons _ _
    · exact List.suffix_refl _
  · exact List.suffix_refl _

theorem readHexPair_suffix (s : Bytes) : (readHexPair s).2 <:+ s := by
  unfold readHexPair
  split
  · split
    · exact (List.suffix_cons _ _).trans (List.suffix_cons _ _)
    · exact List.suffix_refl _
  · exact List.suffix_refl _

theorem takeHexDigits_suffix (value : CodePoint) (s : Bytes) :
    (takeHexDigits value s).2 <:+ s := by
  fun_induction takeHexDigits value s with
  | case1 value b rest _ ih => exact ih.trans (List.suffix_cons _ _)
  | case2 => exact List.suffix_refl _
  | case3 => exact List.suffix_refl _

theorem takeOctalDigits_suffix (value : CodePoint) (s : Bytes) :
    (takeOctalDigits value s).2 <:+ s := by
  fun_induction takeOctalDigits value s with
  | case1 value b rest _ ih => exact ih.trans (List.suffix_cons _ _)
  | case2 => exact List.suffix_refl _
  | case3 => exact List.suffix_refl _

theorem readUnicode_suffix {s r : Bytes} {c : CodePoint} (h : readUnicode s = .ok (c, r)) :
    r <:+ s := by
  unfold readUnicode at h
  split at h
  · next digits =>
    split at h
    · next value rest heq =>
      split at h
      · cases h
      · cases h
        have := takeHexDigits_suffix 0 digits
        rw [heq] at this
        exact (List.suffix_cons _ _).trans (this.trans (List.suffix_cons _ _))
    · cases h
  · split at h
    · cases h
      exact ((List.suffix_cons _ _).trans (List.suffix_cons _ _)).trans
        ((List.suffix_cons _ _).trans (List.suffix_cons _ _))
    · cases h
  · cases h

theorem read_suffix {s r : Bytes} {c : CodePoint} (h : read s = .ok (c, r)) : r <:+ s := by
  unfold read at h
  split at h
  · cases h; exact List.suffix_refl _
  · next b rest =>
    refine List.IsSuffix.trans ?_ (List.suffix_cons b rest)
    split at h
    · cases h; exact List.suffix_refl _
    · split at h
      · injection h with h; have := readControlLetter_suffix rest; rwa [h] at this
      split at h
      · injection h with h; have := readHexPair_suffix rest; rwa [h] at this
      split at h
      · exact readUnicode_suffix h
      split at h
      · injection h with h; have := takeOctalDigits_suffix 0 rest; rwa [h] at this
      · injection h with h; have := Utf8.decode_suffix b rest; rwa [h] at this

end Escape

end PatternAutomata
