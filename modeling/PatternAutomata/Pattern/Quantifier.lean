import PatternAutomata.Pattern.CharClass

/-!
# Tokens and quantifiers

Outside brackets a pattern is a string of tokens. A token is told by the character it decodes to,
so bytes that are not UTF-8 may well be operators; only the backslash is looked for as a byte.

A quantifier is followed by one token that is looked at before the quantifier takes effect, since it
may be the question mark that makes it lazy. If that token cannot be read, the quantifier never
takes effect.
-/

namespace PatternAutomata

/-! ## Tokens -/

inductive Token
  | literal (c : CodePoint)
  | escape (escape : ClassEscape)
  | dot
  | caret
  | dollar
  | openGroup
  | closeGroup
  | openClass
  | bar
  | star
  | plus
  | question
  | brace
deriving DecidableEq, Repr

namespace Token

/-- The token that an unescaped character stands for. Closing brackets and braces and the dash
are literals outside a class. -/
def ofCodePoint (c : CodePoint) : Token :=
  if c = 0x2e then dot
  else if c = 0x5e then caret
  else if c = 0x24 then dollar
  else if c = 0x28 then openGroup
  else if c = 0x29 then closeGroup
  else if c = 0x5b then openClass
  else if c = 0x7c then bar
  else if c = 0x2a then star
  else if c = 0x2b then plus
  else if c = 0x3f then question
  else if c = 0x7b then brace
  else literal c

/-- Reads what follows a backslash: a class escape or a character. Word boundaries and numbers
that refer back are refused in front of the backslash. -/
def readEscaped (rest : Bytes) : Except ReadError (Token × Bytes) :=
  match ClassEscape.read? (0x5c :: rest) with
  | some (e, rest) => return (.escape e, rest)
  | none =>
    if rest.head?.any (fun b ↦ b = 0x62 || b = 0x42) then
      throw (.located .wordBoundary (0x5c :: rest))
    else if rest.head?.any (fun b ↦ 0x31 ≤ b && b ≤ 0x39) then
      throw (.located .backReference (0x5c :: rest))
    else match Escape.read rest with
      | .error e => throw e
      | .ok (c, rest) => return (.literal c, rest)

def read : Bytes → Except ReadError (Option (Token × Bytes))
  | [] => return none
  | b :: rest =>
    if b = 0x5c then
      match readEscaped rest with
      | .error e => throw e
      | .ok next => return some next
    else
      let (c, rest) := Utf8.decode b rest
      return some (ofCodePoint c, rest)

theorem readEscaped_suffix {rest r : Bytes} {t : Token} (h : readEscaped rest = .ok (t, r)) :
    r <:+ 0x5c :: rest ∧ r.length < rest.length + 1 := by
  unfold readEscaped at h
  split at h
  · next he => cases h; exact ClassEscape.read?_suffix he
  · split at h
    · cases h
    · split at h
      · cases h
      · split at h
        · cases h
        · next hc =>
          cases h
          have hs := Escape.read_suffix hc
          exact ⟨hs.trans (List.suffix_cons _ _), Nat.lt_succ_of_le hs.length_le⟩

theorem read_suffix {s r : Bytes} {t : Token} (h : read s = .ok (some (t, r))) :
    r <:+ s ∧ r.length < s.length := by
  unfold read at h
  split at h
  · cases h
  · next b rest =>
    split at h
    · next hb =>
      split at h
      · cases h
      · next hnext => cases h; subst hb; exact readEscaped_suffix hnext
    · have hs := Utf8.decode_suffix b rest
      cases h
      exact ⟨hs.trans (List.suffix_cons _ _), Nat.lt_succ_of_le hs.length_le⟩

end Token

/-! ## Quantifiers -/

/-- How often an atom is matched. A lazy quantifier tries fewer times first. -/
inductive Quantifier
  /-- No quantifier at all. -/
  | once
  /-- Any number of times. -/
  | star (isLazy : Bool)
  /-- At least once. -/
  | plus (isLazy : Bool)
  /-- At most once. -/
  | optional (isLazy : Bool)
  /-- At least `min` times and, if there is a `max`, at most that often. -/
  | counted (min : Nat) (max : Option Nat) (isLazy : Bool)
deriving DecidableEq, Repr

namespace Quantifier

/-- The largest number of times a quantifier can count to; anything larger is read as this. -/
def maxCount : Nat := 2147483647

def takeDigits : Nat → Bytes → Nat × Bytes
  | value, b :: rest =>
    if isDigit b then takeDigits (min (10 * value + digitValue b) maxCount) rest
    else (value, b :: rest)
  | value, [] => (value, [])

def readCount? (s : Bytes) : Option (Nat × Bytes) :=
  if s.head?.any isDigit then some (takeDigits 0 s) else none

/-- Reads what follows the least number of times: a comma and a greatest number, a comma alone for
no such number, or nothing for the same number again. -/
def readMax (least : Nat) : Bytes → Option Nat × Bytes
  | 0x2c :: rest =>
    match readCount? rest with
    | some (greatest, rest) => (some greatest, rest)
    | none => (none, rest)
  | s => (some least, s)

/-- Reads a counted quantifier from behind its opening brace. -/
def readCounts (s : Bytes) : Except ReadError (Nat × Option Nat × Bytes) :=
  match readCount? s with
  | none => throw (.located .incompleteQuantifier s)
  | some (least, rest) =>
    match readMax least rest with
    | (greatest, 0x7d :: rest) =>
      if greatest.any (· < least) then throw (.located .quantifierOrder rest)
      else return (least, greatest, rest)
    | (_, rest) => throw (.located .incompleteQuantifier rest)

/-- Reads the question mark that makes a quantifier lazy. In either case the next token behind
the quantifier has to be readable. -/
def readLazy (s : Bytes) : Except ReadError (Bool × Bytes) :=
  match Token.read s with
  | .error e => throw e
  | .ok (some (.question, rest)) =>
    match Token.read rest with
    | .error e => throw e
    | .ok _ => return (true, rest)
  | .ok _ => return (false, s)

def complete (make : Bool → Quantifier) (s : Bytes) : Except ReadError (Quantifier × Bytes) :=
  match readLazy s with
  | .error e => throw e
  | .ok (isLazy, rest) => return (make isLazy, rest)

def read (s : Bytes) : Except ReadError (Quantifier × Bytes) :=
  match Token.read s with
  | .error e => throw e
  | .ok (some (.star, rest)) => complete star rest
  | .ok (some (.plus, rest)) => complete plus rest
  | .ok (some (.question, rest)) => complete optional rest
  | .ok (some (.brace, rest)) =>
    match readCounts rest with
    | .error e => throw e
    | .ok (least, greatest, rest) => complete (counted least greatest) rest
  | .ok _ => return (once, s)

/-! ### What is left is a rest of what was there -/

theorem takeDigits_suffix (value : Nat) (s : Bytes) : (takeDigits value s).2 <:+ s := by
  fun_induction takeDigits value s with
  | case1 value b rest _ ih => exact ih.trans (List.suffix_cons _ _)
  | case2 => exact List.suffix_refl _
  | case3 => exact List.suffix_refl _

theorem readCount?_suffix {s r : Bytes} {n : Nat} (h : readCount? s = some (n, r)) : r <:+ s := by
  unfold readCount? at h
  split at h
  · have := takeDigits_suffix 0 s
    rw [Option.some.inj h] at this
    exact this
  · cases h

theorem readMax_suffix (least : Nat) (s : Bytes) : (readMax least s).2 <:+ s := by
  unfold readMax
  split
  · split
    · next h => exact (readCount?_suffix h).trans (List.suffix_cons _ _)
    · exact List.suffix_cons _ _
  · exact List.suffix_refl _

theorem readCounts_suffix {s r : Bytes} {least : Nat} {greatest : Option Nat}
    (h : readCounts s = .ok (least, greatest, r)) : r <:+ s := by
  unfold readCounts at h
  split at h
  · cases h
  · next least' rest hleast =>
    have h₁ := readCount?_suffix hleast
    have h₂ := readMax_suffix least' rest
    split at h
    · next hmax =>
      rw [hmax] at h₂
      split at h
      · cases h
      · cases h; exact (List.suffix_cons _ _).trans (h₂.trans h₁)
    · cases h

theorem readLazy_suffix {s r : Bytes} {isLazy : Bool} (h : readLazy s = .ok (isLazy, r)) :
    r <:+ s := by
  unfold readLazy at h
  split at h
  · cases h
  · next htoken =>
    split at h
    · cases h
    · cases h; exact (Token.read_suffix htoken).1
  · cases h; exact List.suffix_refl _

theorem complete_suffix {make : Bool → Quantifier} {s r : Bytes} {q : Quantifier}
    (h : complete make s = .ok (q, r)) : r <:+ s := by
  unfold complete at h
  split at h
  · cases h
  · next hlazy => cases h; exact readLazy_suffix hlazy

theorem read_suffix {s r : Bytes} {q : Quantifier} (h : read s = .ok (q, r)) : r <:+ s := by
  unfold read at h
  split at h
  · cases h
  · next htoken => exact (complete_suffix h).trans (Token.read_suffix htoken).1
  · next htoken => exact (complete_suffix h).trans (Token.read_suffix htoken).1
  · next htoken => exact (complete_suffix h).trans (Token.read_suffix htoken).1
  · next htoken =>
    split at h
    · cases h
    · next hcounts =>
      exact (complete_suffix h).trans ((readCounts_suffix hcounts).trans
        (Token.read_suffix htoken).1)
  · cases h; exact List.suffix_refl _

end Quantifier

end PatternAutomata
