import PatternAutomata.Bytes
import PatternAutomata.CodePoint.Set

/-!
# Encodings

An encoding only matters by the largest code point a subject text can hold. Three of them reach
the whole of Unicode and differ by name alone.
-/

namespace PatternAutomata

inductive Encoding
  | latin1
  | utf8
  | utf16
  | utf32
deriving DecidableEq, Repr, Inhabited

namespace Encoding

def name : Encoding → String
  | latin1 => "LATIN-1"
  | utf8 => "UTF-8"
  | utf16 => "UTF-16"
  | utf32 => "UTF-32"

def maxCodePoint : Encoding → CodePoint
  | latin1 => 0xff
  | utf8 | utf16 | utf32 => 0x10ffff

def fullSet (e : Encoding) : CodePointSet := .range 0 e.maxCodePoint

def all : List Encoding := [latin1, utf8, utf16, utf32]

/-- The encoding of a name. `BYTES` is a second name of the one-byte encoding. -/
def ofName? (name : Bytes) : Option Encoding :=
  if name = .ofString "BYTES" then some latin1
  else all.find? fun e ↦ name = .ofString e.name

end Encoding

end PatternAutomata
