import PatternAutomata.Bytes

/-!
# Flags

Flags are single letters. The only one that has to do with automata is `y`, under which a match is
looked for at one place only.
-/

namespace PatternAutomata

structure Flags where
  /-- Whether a match may only be looked for at the place where the search starts. -/
  sticky : Bool := false
deriving DecidableEq, Repr, Inhabited

/-- A flag that is not understood, by its byte. -/
structure FlagError where
  /-- The byte that stands for no flag. -/
  flag : UInt8
deriving DecidableEq, Repr

/-- The message that reports the flag. Where a flag takes several bytes only the first is seen. -/
def FlagError.message (e : FlagError) : Bytes :=
  .ofString "unsupported flag '" ++ [e.flag] ++ .ofString "'"

namespace Flags

/-- The flags after one more letter. -/
def apply (f : Flags) (letter : UInt8) : Except FlagError Flags :=
  if letter = 0x79 then return { f with sticky := true } else throw ⟨letter⟩

/-- Reads a string of flags, in which letters may be repeated. -/
def read (letters : Bytes) : Except FlagError Flags := letters.foldlM apply {}

end Flags

end PatternAutomata
