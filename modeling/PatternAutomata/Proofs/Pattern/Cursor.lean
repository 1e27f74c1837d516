import PatternAutomata.Pattern.Parse

/-!
# Readers in memory

A pattern lies in memory with a zero byte behind it, and what comes behind that byte is not known.
The readers of this file are those of patterns once more, but they do not see where the text ends.
All they can do is look at a byte some places ahead and move on. To look beyond a zero byte or to
move over one is not possible; a reader that would have to is stuck, and so is one that would go
round in circles.
-/

namespace PatternAutomata

/-- A reader in memory. Without a result it is stuck. -/
abbrev Cursor := StateT Bytes (ExceptT ReadError Option)

namespace Cursor

variable {α β : Type}

/-! ## Memory -/

/-- The byte some places ahead, if no zero byte is before it. -/
def ahead : Nat → Bytes → Option UInt8
  | _, [] => none
  | 0, b :: _ => some b
  | n + 1, b :: m => if b = 0 then none else ahead n m

/-- The memory some places on, if no zero byte is before it. -/
def onward : Nat → Bytes → Option Bytes
  | 0, m => some m
  | _ + 1, [] => none
  | n + 1, b :: m => if b = 0 then none else onward n m

/-- Looks at the byte some places ahead. -/
def byte (n : Nat) : Cursor UInt8 := fun m ↦ (ahead n m).map fun b ↦ .ok (b, m)

def skip (n : Nat) : Cursor Unit := fun m ↦ (onward n m).map fun m ↦ .ok ((), m)

/-- Fails with a fault at this place. -/
def fail (fault : Fault) : Cursor α := fun m ↦ some (.error (.located fault m))

/-- Fails without a place. -/
def refuse : Cursor α := fun _ ↦ some (.error .badUnicodeEscape)

/-- Takes in bytes for as long as that is possible. -/
def loop (step : β → UInt8 → Option β) : β → Cursor β
  | _, [] => none
  | value, b :: m =>
    match step value b with
    | none => some (.ok (value, b :: m))
    | some value => if b = 0 then none else loop step value m

/-- A reader that is stuck if it does not move on. -/
def moving (f : Cursor α) : Cursor α := fun m ↦
  match f m with
  | some (.ok (a, rest)) => if rest.length < m.length then some (.ok (a, rest)) else none
  | result => result

/-! ## Characters -/

/-- One more continuation byte of a character. -/
def continuationStep : Nat × CodePoint → UInt8 → Option (Nat × CodePoint)
  | (n + 1, c), b =>
    if Utf8.isContinuation b then some (n, c <<< 6 ||| (b &&& 0x3f).toUInt32) else none
  | (0, _), _ => none

/-- Decodes a character. It steps over the first byte, whatever that is. -/
def decode : Cursor CodePoint := do
  let b ← byte 0
  skip 1
  if b < 0x80 then return b.toUInt32
  else
    let (_, c) ← loop continuationStep (Utf8.continuations b, (Utf8.leadBits b).toUInt32)
    return c

def hexStep (value : CodePoint) (b : UInt8) : Option CodePoint :=
  if isHexDigit b && value ≤ 0x10ffff then some (value <<< 4 ||| hexValue b) else none

def octalStep (value : CodePoint) (b : UInt8) : Option CodePoint :=
  if isOctalDigit b && value < 0x20 then some (value <<< 3 ||| (b - 0x30).toUInt32) else none

def controlLetter : Cursor CodePoint := do
  let b ← byte 0
  if isLetter b then
    skip 1
    return (b &&& 0x1f).toUInt32
  else return 0x63

/-- The second digit is looked at only behind a first one. -/
def hexPair : Cursor CodePoint := do
  let a ← byte 0
  if isHexDigit a then
    let b ← byte 1
    if isHexDigit b then
      skip 2
      return hexValue a <<< 4 ||| hexValue b
    else return 0x78
  else return 0x78

/-- Looks for a number of digits, one after the other, and moves over all of them. -/
def hexDigits : Nat → Nat → CodePoint → Cursor CodePoint
  | 0, found, value => do
    skip found
    return value
  | n + 1, found, value => do
    let b ← byte found
    if isHexDigit b then hexDigits n (found + 1) (value <<< 4 ||| hexValue b) else refuse

/-- There must be a digit between braces. -/
def unicode : Cursor CodePoint := do
  let b ← byte 0
  if b = 0x7b then
    skip 1
    let first ← byte 0
    let value ← loop hexStep 0
    let b ← byte 0
    if b = 0x7d then
      if first = 0x7d then refuse
      else
        skip 1
        return value
    else refuse
  else hexDigits 4 0 0

def escaped : Cursor CodePoint := do
  let b ← byte 0
  if b = 0 then return 0x5c
  else
    match Escape.control? b with
    | some c =>
      skip 1
      return c
    | none =>
      if b = 0x63 then
        skip 1
        controlLetter
      else if b = 0x78 then
        skip 1
        hexPair
      else if b = 0x75 then
        skip 1
        unicode
      else if b = 0x30 then
        skip 1
        loop octalStep 0
      else decode

/-! ## Classes -/

/-- Looks for a class escape. The letter is looked at only behind a backslash. -/
def classEscape? : Cursor (Option ClassEscape) := do
  let b ← byte 0
  if b = 0x5c then
    let letter ← byte 1
    return ClassEscape.ofLetter? letter
  else return none

def classChar : Cursor CodePoint := do
  let b ← byte 0
  if b = 0x5c then
    let b ← byte 1
    if b = 0x62 then
      skip 2
      return 0x08
    else if 0x31 ≤ b && b ≤ 0x39 then fail .backReference
    else
      skip 1
      escaped
  else decode

/-- Whether there is a dash that makes a range. What is behind it must be there and not end the
class. -/
def rangeDash : Cursor Bool := do
  let b ← byte 0
  if b = 0x2d then
    let next ← byte 1
    return next ≠ 0x5d && next ≠ 0
  else return false

def rangeItem : Cursor ClassItem := do
  let lo ← classChar
  if ← rangeDash then
    skip 1
    match ← classEscape? with
    | some _ => fail .classRangeEnd
    | none =>
      let hi ← classChar
      if hi < lo then fail .classRangeOrder else return .range lo hi
  else return .range lo lo

def classItem : Cursor ClassItem := do
  match ← classEscape? with
  | some e =>
    skip 2
    return .escape e
  | none => rangeItem

/-- One round of reading a class: another item, or the end. -/
def classRound : Cursor (Option ClassItem) := do
  let b ← byte 0
  if b = 0 then fail .unterminatedClass
  else if b = 0x5d then
    skip 1
    return none
  else return some (← moving classItem)

def classItems (m : Bytes) : ExceptT ReadError Option (List ClassItem × Bytes) :=
  match classRound m with
  | none => none
  | some (.error e) => some (.error e)
  | some (.ok (none, rest)) => some (.ok ([], rest))
  | some (.ok (some item, rest)) =>
    if rest.length < m.length then do
      let (items, rest) ← classItems rest
      return (item :: items, rest)
    else none
termination_by m.length

def charClass : Cursor CharClass := do
  let b ← byte 0
  if b = 0x5e then
    skip 1
    return ⟨true, ← classItems⟩
  else return ⟨false, ← classItems⟩

/-! ## Tokens -/

def token : Cursor Token := do
  let b ← byte 0
  if b = 0x5c then
    match ← classEscape? with
    | some e =>
      skip 2
      return .escape e
    | none =>
      let next ← byte 1
      if next = 0x62 || next = 0x42 then fail .wordBoundary
      else if 0x31 ≤ next && next ≤ 0x39 then fail .backReference
      else
        skip 1
        return .literal (← escaped)
  else return .ofCodePoint (← decode)

/-- Reads the next token, unless the text has ended. -/
def advance : Cursor (Option Token) := do
  let b ← byte 0
  if b = 0 then return none else return some (← moving token)

/-- The next token, which stays where it is. -/
def lookahead : Cursor (Option Token) := fun m ↦
  match advance m with
  | some (.ok (token, _)) => some (.ok (token, m))
  | result => result

/-! ## Quantifiers -/

def digitStep (value : Nat) (b : UInt8) : Option Nat :=
  if isDigit b then some (min (10 * value + digitValue b) Quantifier.maxCount) else none

def count? : Cursor (Option Nat) := do
  let b ← byte 0
  if isDigit b then return some (← loop digitStep 0) else return none

/-- The greatest number of times, behind the least. -/
def greatest (least : Nat) : Cursor (Option Nat) := do
  let b ← byte 0
  if b = 0x2c then
    skip 1
    count?
  else return some least

def counts : Cursor (Nat × Option Nat) := do
  match ← count? with
  | none => fail .incompleteQuantifier
  | some least =>
    let greatest ← greatest least
    let b ← byte 0
    if b = 0x7d then
      skip 1
      if greatest.any (· < least) then fail .quantifierOrder else return (least, greatest)
    else fail .incompleteQuantifier

/-- Completes a quantifier. The token behind it is looked at in any case. -/
def complete (make : Bool → Quantifier) : Cursor Quantifier := do
  match ← lookahead with
  | some .question =>
    let _ ← advance
    let _ ← lookahead
    return make true
  | _ => return make false

def quantifier : Cursor Quantifier := do
  match ← lookahead with
  | some .star =>
    let _ ← advance
    complete .star
  | some .plus =>
    let _ ← advance
    complete .plus
  | some .question =>
    let _ ← advance
    complete .optional
  | some .brace =>
    let _ ← advance
    let (least, greatest) ← counts
    complete (.counted least greatest)
  | _ => return .once

/-! ## Parts and events -/

/-- Looks at one byte after the other, each only if the one before fits. -/
def groupKind : Cursor GroupKind := do
  let b ← byte 0
  if b = 0x3f then
    let b ← byte 1
    if b = 0x3a then
      skip 2
      return .plain
    else if b = 0x3c then
      let b ← byte 2
      if b = 0x3d then
        skip 3
        return .lookBehind
      else fail .unsupportedGroup
    else fail .unsupportedGroup
  else return .capture

def partOfToken : Token → Cursor Part
  | .literal c => return .atom (.literal c)
  | .escape e => return .atom (.escape e)
  | .dot => return .atom .any
  | .caret => return .atom .caret
  | .dollar => return .atom .dollar
  | .openGroup => return .openGroup (← groupKind)
  | .closeGroup => return .closeGroup
  | .openClass => return .atom (.bracket (← charClass))
  | .bar => return .bar
  | .star | .plus | .question | .brace => fail .nothingToRepeat

def part : Cursor (Option Part) := do
  match ← advance with
  | none => return none
  | some token => return some (← partOfToken token)

/-- The quantifier of what may have one: an atom, or a group that has just ended. -/
def quantifierOf : Part → Cursor Quantifier
  | .atom _ | .closeGroup => quantifier
  | .openGroup _ | .bar => return .once

/-- The event that a part makes, in front of what is left behind it. -/
def eventOf (part : Part) (left : Bytes) (q : Quantifier) : Event :=
  match part with
  | .atom a => .atom a q
  | .openGroup kind => .openGroup kind
  | .bar => .bar
  | .closeGroup => .closeGroup left q

/-- The events of the pattern in front, and the memory that they end in front of. Every part has to
move on. -/
def events (m : Bytes) : Option (List Event × Bytes) :=
  match part m with
  | none => none
  | some (.error e) => some ([.failure e], m)
  | some (.ok (none, rest)) => some ([], rest)
  | some (.ok (some part, left)) =>
    match quantifierOf part left with
    | none => none
    | some (.error e) => some ([eventOf part left .once, .failure e], left)
    | some (.ok (q, rest)) =>
      if rest.length < m.length then
        (events rest).map fun (found, last) ↦ (eventOf part left q :: found, last)
      else none
termination_by m.length

end Cursor

/-- The tree of the pattern in front. A fault is placed where its reader stands, as a difference of
addresses, and what is found to be wrong in the end is placed there. -/
def Tree.ofMemory (o : Options) (m : Bytes) : Option (Except (PatternError Int) Tree) :=
  match Cursor.events m with
  | none => none
  | some (events, last) =>
    match events.foldlM (TreeBuilder.take o) .start with
    | .error e => some (.error (e.map fun left ↦ (m.length : Int) - left.length))
    | .ok b =>
      some ((b.finish o).mapError (·.map fun left ↦ (m.length : Int) - (left ++ last).length))

end PatternAutomata
