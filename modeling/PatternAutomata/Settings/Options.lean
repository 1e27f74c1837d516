import PatternAutomata.Encoding

/-!
# Options

Options are written as a comma separated list of `Name=value` items. A later item of a name
replaces an earlier one, and the first item that cannot be read is the one that is reported. One
comma at the very end of the list is allowed and adds no item.

Three of the options are bounds. The two bounds on the automaton are stored as signed 32-bit
numbers and the bound on the tree as an unsigned 64-bit number, which shows in what can be written:
a minus sign is only understood in front of the former, where it is of no use except before zero.
-/

namespace PatternAutomata

/-- What a pattern is read for and how large its tree and automaton may grow. -/
structure Options where
  /-- The encoding of the subject text. -/
  encoding : Encoding := .utf16
  /-- Whether a match must take in at least one character, or else be looked for further on. -/
  mustAdvance : Bool := false
  /-- The highest number a state may get. -/
  maxState : Nat := 3500
  /-- The highest number a transition may get; transitions are numbered by signed 16-bit words. -/
  maxTransition : Nat := 32767
  /-- The largest number of nodes that unrolled quantifiers may bring a tree to. -/
  maxTreeSize : Nat := 1000000
deriving DecidableEq, Repr, Inhabited

inductive OptionError
  /-- The item has no `=`. -/
  | noValue (item : Bytes)
  /-- There is no option of this name. -/
  | unknownName (name : Bytes)
  /-- The option does not take this value. -/
  | badValue (name value : Bytes)
deriving DecidableEq, Repr

namespace OptionError

/-- The message that reports the error; it quotes the bytes of the option as they came. -/
def message : OptionError → Bytes
  | noValue item => .ofString "expected Name=value in option '" ++ item ++ .ofString "'"
  | unknownName name => .ofString "unknown option '" ++ name ++ .ofString "'"
  | badValue name value =>
    .ofString "invalid value '" ++ value ++ .ofString "' for option " ++ name

end OptionError

namespace Options

/-! ## Values -/

def readDigits (value : Bytes) : Option Nat :=
  if !value.isEmpty && value.all isDigit then
    some (value.foldl (fun n d ↦ 10 * n + digitValue d) 0)
  else none

/-- An unsigned number of at most `max`. -/
def readUnsigned (max : Nat) (value : Bytes) : Option Nat :=
  (readDigits value).filter (· ≤ max)

/-- A number from zero to `max` in signed notation: behind a minus sign only zero is in range. -/
def readSigned (max : Nat) (value : Bytes) : Option Nat :=
  match value with
  | 0x2d :: digits => readUnsigned 0 digits
  | _ => readUnsigned max value

/-- A truth value, spelled out. -/
def readBool (value : Bytes) : Option Bool :=
  if value = .ofString "true" then some true
  else if value = .ofString "false" then some false
  else none

/-! ## Items -/

inductive Name
  | encoding
  | mustAdvance
  | maxState
  | maxTransition
  | maxTreeSize
deriving DecidableEq, Repr

/-- How the name of an option is written. -/
def Name.spelling : Name → String
  | encoding => "Encoding"
  | mustAdvance => "MustAdvance"
  | maxState => "MaxNFASize"
  | maxTransition => "MaxNFATransitions"
  | maxTreeSize => "MaxParseTreeSize"

def Name.all : List Name := [encoding, mustAdvance, maxState, maxTransition, maxTreeSize]

def Name.ofSpelling? (name : Bytes) : Option Name :=
  all.find? fun n ↦ name = .ofString n.spelling

/-- The largest signed 32-bit number. -/
def maxSigned : Nat := 2147483647

/-- The largest unsigned 64-bit number. -/
def maxUnsigned : Nat := 18446744073709551615

/-- The options with one of them set to a written value, if it takes that value. -/
def set? (o : Options) (name : Name) (value : Bytes) : Option Options :=
  match name with
  | .encoding => (Encoding.ofName? value).map fun e ↦ { o with encoding := e }
  | .mustAdvance => (readBool value).map fun b ↦ { o with mustAdvance := b }
  | .maxState => (readSigned maxSigned value).map fun n ↦ { o with maxState := n }
  | .maxTransition => (readSigned maxSigned value).map fun n ↦ { o with maxTransition := n }
  | .maxTreeSize => (readUnsigned maxUnsigned value).map fun n ↦ { o with maxTreeSize := n }

/-- The name and the value of an item, which the first `=` parts. -/
def splitItem (item : Bytes) : Option (Bytes × Bytes) :=
  match item.dropWhile (· != 0x3d) with
  | [] => none
  | _ :: value => some (item.takeWhile (· != 0x3d), value)

/-- The options after one more item. -/
def apply (o : Options) (item : Bytes) : Except OptionError Options :=
  match splitItem item with
  | none => throw (.noValue item)
  | some (written, value) =>
    match Name.ofSpelling? written with
    | none => throw (.unknownName written)
    | some name =>
      match o.set? name value with
      | none => throw (.badValue written value)
      | some o => return o

/-! ## Lists of items -/

/-- The items of a list. Every comma ends an item, and so does the end of the list unless nothing
has come since the last comma. -/
def splitItems : Bytes → List Bytes
  | [] => []
  | b :: rest =>
    if b = 0x2c then [] :: splitItems rest
    else match splitItems rest with
      | [] => [[b]]
      | item :: items => (b :: item) :: items

/-- Reads a list of options; what it does not mention keeps its default. -/
def read (list : Bytes) : Except OptionError Options := (splitItems list).foldlM apply {}

end Options

end PatternAutomata
