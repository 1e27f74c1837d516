/-!
# Byte text

Patterns, settings and names arrive as raw bytes, which need not be valid UTF-8, and messages that
quote them must give the same bytes back. Such text is a list of bytes. Text of the library's own
is an ordinary string, and becomes byte text by its UTF-8 encoding.
-/

namespace PatternAutomata

/-- Text of any bytes. -/
abbrev Bytes := List UInt8

namespace Bytes

def ofString (s : String) : Bytes := s.toList.flatMap String.utf8EncodeChar

/-- The part in front of the first zero byte, which is where terminated text ends. -/
def untilZero (b : Bytes) : Bytes := b.takeWhile (· != 0)

end Bytes

def isDigit (b : UInt8) : Bool := 0x30 ≤ b && b ≤ 0x39

def digitValue (b : UInt8) : Nat := b.toNat - 0x30

end PatternAutomata
