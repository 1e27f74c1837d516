import PatternAutomata.Bytes

/-!
# What can be wrong with a pattern

Most faults are reported with the place where they were found, which is the number of bytes read by
then. While a pattern is being read the place is known by the bytes that are left, and it becomes a
number when the fault is reported; so the type of places is a parameter.

Apart from faults there is one failure that lies in the options as much as in the pattern: counted
quantifiers are unrolled, and the tree may become too large.
-/

namespace PatternAutomata

/-- The faults that are reported with a place. -/
inductive Fault
  | wordBoundary
  | backReference
  | nothingToRepeat
  | unsupportedGroup
  | missingClose
  | unmatchedClose
  | lookBehindAlternatives
  | lookBehindTerms
  | unterminatedClass
  | classRangeEnd
  | classRangeOrder
  | incompleteQuantifier
  | quantifierOrder
deriving DecidableEq, Repr

/-- What is said of a fault. -/
def Fault.text : Fault → String
  | wordBoundary => "word boundary assertions are not supported"
  | backReference => "back-references are not supported"
  | nothingToRepeat => "nothing to repeat"
  | unsupportedGroup => "unsupported group type"
  | missingClose => "missing ')'"
  | unmatchedClose => "unmatched ')'"
  | lookBehindAlternatives => "look-behind with alternatives is not supported"
  | lookBehindTerms => "look-behind bodies may only contain characters"
  | unterminatedClass => "unterminated character class"
  | classRangeEnd => "invalid character class range"
  | classRangeOrder => "range out of order in character class"
  | incompleteQuantifier => "incomplete quantifier"
  | quantifierOrder => "numbers out of order in \x7b\x7d quantifier"

inductive PatternError (Place : Type)
  /-- There is a fault at a place. -/
  | located (fault : Fault) (place : Place)
  /-- A Unicode escape is malformed. -/
  | badUnicodeEscape
  /-- Unrolled quantifiers would bring the tree to more than `limit` nodes. -/
  | treeExplosion (limit : Nat)
deriving DecidableEq, Repr

namespace PatternError

/-- The same failure with its place known in another way. -/
def map {P Q : Type} (f : P → Q) : PatternError P → PatternError Q
  | .located fault place => .located fault (f place)
  | .badUnicodeEscape => .badUnicodeEscape
  | .treeExplosion limit => .treeExplosion limit

def message : PatternError Nat → String
  | .located fault place => fault.text ++ " at index " ++ toString place
  | .badUnicodeEscape => "invalid unicode escape"
  | .treeExplosion limit => "parse tree explosion (more than " ++ toString limit ++ " nodes)"

end PatternError

/-- A failure while reading, placed by the bytes that were left to read. -/
abbrev ReadError := PatternError Bytes

end PatternAutomata
