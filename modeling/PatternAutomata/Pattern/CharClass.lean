import PatternAutomata.Encoding
import PatternAutomata.Pattern.Escape

/-!
# Character classes

A class is written between brackets as a list of characters, ranges and class escapes, in any order
and with overlaps. Reading a class only gives its items; which set they make depends on the
encoding, because a complement reaches up to the largest code point, and whatever lies beyond that
is cut off in the end.

Between brackets `\b` is a backspace, and the numbers that elsewhere refer back are refused.
-/

namespace PatternAutomata

/-! ## Class escapes -/

/-- The kinds of characters that have an escape of their own. -/
inductive CharKind
  | digit
  | word
  | space
deriving DecidableEq, Repr

/-- The members of a kind, in every encoding that has them. -/
def CharKind.set : CharKind → CodePointSet
  | digit => .range 0x30 0x39
  | word => .ofRanges [⟨0x30, 0x39⟩, ⟨0x41, 0x5a⟩, ⟨0x5f, 0x5f⟩, ⟨0x61, 0x7a⟩]
  | space =>
    .ofRanges [⟨0x09, 0x0d⟩, ⟨0x20, 0x20⟩, ⟨0xa0, 0xa0⟩, ⟨0x1680, 0x1680⟩, ⟨0x2000, 0x200a⟩,
      ⟨0x2028, 0x2029⟩, ⟨0x202f, 0x202f⟩, ⟨0x205f, 0x205f⟩, ⟨0x3000, 0x3000⟩, ⟨0xfeff, 0xfeff⟩]

/-- A class escape: a kind of characters, or all others. -/
structure ClassEscape where
  /-- The kind that the escape names. -/
  kind : CharKind
  /-- Whether the escape stands for all other characters. -/
  negated : Bool
deriving DecidableEq, Repr

namespace ClassEscape

def ofLetter? (b : UInt8) : Option ClassEscape :=
  if b = 0x64 then some ⟨.digit, false⟩
  else if b = 0x44 then some ⟨.digit, true⟩
  else if b = 0x77 then some ⟨.word, false⟩
  else if b = 0x57 then some ⟨.word, true⟩
  else if b = 0x73 then some ⟨.space, false⟩
  else if b = 0x53 then some ⟨.space, true⟩
  else none

/-- The class escape that some text starts with, and the text behind it. -/
def read? : Bytes → Option (ClassEscape × Bytes)
  | 0x5c :: b :: rest => (ofLetter? b).map (·, rest)
  | _ => none

def set (e : ClassEscape) (encoding : Encoding) : CodePointSet :=
  let members := if e.negated then e.kind.set.complement encoding.maxCodePoint else e.kind.set
  members.intersect encoding.fullSet

theorem read?_suffix {s r : Bytes} {e : ClassEscape} (h : read? s = some (e, r)) :
    r <:+ s ∧ r.length < s.length := by
  unfold read? at h
  split at h
  · next b rest =>
    obtain ⟨e', _, he⟩ := Option.map_eq_some_iff.1 h
    cases he
    exact ⟨(List.suffix_cons _ _).trans (List.suffix_cons _ _),
      Nat.lt_succ_of_lt (Nat.lt_succ_self _)⟩
  · cases h

end ClassEscape

/-! ## Items of a class -/

inductive ClassItem
  /-- The characters from `lo` up to `hi`; a single character is a range of its own. -/
  | range (lo hi : CodePoint)
  /-- A class escape. -/
  | escape (escape : ClassEscape)
deriving DecidableEq, Repr

structure CharClass where
  /-- Whether the class stands for the characters that are in none of its items. -/
  negated : Bool
  /-- The items, in written order. -/
  items : List ClassItem
deriving DecidableEq, Repr

namespace CharClass

def ranges (c : CharClass) : List CodeRange :=
  c.items.filterMap fun
    | .range lo hi => some ⟨lo, hi⟩
    | .escape _ => none

def escapes (c : CharClass) : List ClassEscape :=
  c.items.filterMap fun
    | .range _ _ => none
    | .escape e => some e

def set (c : CharClass) (encoding : Encoding) : CodePointSet :=
  let escaped := c.escapes.foldl (fun s e ↦ s.union (e.set encoding)) .empty
  let listed := (CodePointSet.ofRanges c.ranges).union escaped
  let members := if c.negated then listed.complement encoding.maxCodePoint else listed
  members.intersect encoding.fullSet

/-! ## Reading a class -/

def readChar : Bytes → Except ReadError (CodePoint × Bytes)
  | [] => throw (.located .unterminatedClass [])
  | 0x5c :: rest =>
    match rest with
    | [] => Escape.read []
    | b :: after =>
      if b = 0x62 then return (0x08, after)
      else if 0x31 ≤ b && b ≤ 0x39 then throw (.located .backReference (0x5c :: rest))
      else Escape.read rest
  | b :: rest => return Utf8.decode b rest

theorem readChar_suffix {s r : Bytes} {c : CodePoint} (h : readChar s = .ok (c, r)) :
    r <:+ s ∧ r.length < s.length := by
  have key : ∀ {b : UInt8} {t u : Bytes}, u <:+ t → u <:+ b :: t ∧ u.length < (b :: t).length :=
    fun hu ↦ ⟨hu.trans (List.suffix_cons _ _), Nat.lt_succ_of_le hu.length_le⟩
  unfold readChar at h
  split at h
  · cases h
  · next rest =>
    refine key ?_
    split at h
    · exact Escape.read_suffix h
    · next b after =>
      split at h
      · cases h; exact List.suffix_cons _ _
      · split at h
        · cases h
        · exact Escape.read_suffix h
  · next b rest _ =>
    injection h with h
    have := Utf8.decode_suffix b rest
    rw [h] at this
    exact key this

/-- The text behind a dash that makes a range of what stands around it: something must follow the
dash, and it must not be the end of the class. -/
def rangeEnd? : Bytes → Option Bytes
  | 0x2d :: b :: rest => if b = 0x5d then none else some (b :: rest)
  | _ => none

theorem rangeEnd?_suffix {s r : Bytes} (h : rangeEnd? s = some r) : r <:+ s := by
  unfold rangeEnd? at h
  split at h
  · split at h
    · cases h
    · cases h; exact List.suffix_cons _ _
  · cases h

/-- Reads one item that is no class escape: a character, or a range whose upper end is not below
its lower one. -/
def readRange (s : Bytes) : Except ReadError (ClassItem × Bytes) :=
  match readChar s with
  | .error e => throw e
  | .ok (lo, rest) =>
    match rangeEnd? rest with
    | none => return (.range lo lo, rest)
    | some rest =>
      if (ClassEscape.read? rest).isSome then throw (.located .classRangeEnd rest)
      else match readChar rest with
        | .error e => throw e
        | .ok (hi, rest) =>
          if hi < lo then throw (.located .classRangeOrder rest) else return (.range lo hi, rest)

theorem readRange_suffix {s r : Bytes} {i : ClassItem} (h : readRange s = .ok (i, r)) :
    r <:+ s ∧ r.length < s.length := by
  unfold readRange at h
  split at h
  · cases h
  · next lo rest hlo =>
    have ⟨h₁, hlt⟩ := readChar_suffix hlo
    split at h
    · cases h; exact ⟨h₁, hlt⟩
    · next rest' hend =>
      have h₂ := rangeEnd?_suffix hend
      split at h
      · cases h
      · split at h
        · cases h
        · next hi rest'' hhi =>
          split at h
          · cases h
          · cases h
            have h₃ := (readChar_suffix hhi).1.trans h₂
            exact ⟨h₃.trans h₁, Nat.lt_of_le_of_lt h₃.length_le hlt⟩

def readItem (s : Bytes) : Except ReadError (ClassItem × Bytes) :=
  match ClassEscape.read? s with
  | some (e, rest) => return (.escape e, rest)
  | none => readRange s

theorem readItem_suffix {s r : Bytes} {i : ClassItem} (h : readItem s = .ok (i, r)) :
    r <:+ s ∧ r.length < s.length := by
  unfold readItem at h
  split at h
  · next he => cases h; exact ClassEscape.read?_suffix he
  · exact readRange_suffix h

/-- Reads items up to the bracket that ends the class, which must come. -/
def readItems (s : Bytes) : Except ReadError (List ClassItem × Bytes) :=
  match s with
  | [] => throw (.located .unterminatedClass [])
  | 0x5d :: rest => return ([], rest)
  | s =>
    match _hitem : readItem s with
    | .error e => throw e
    | .ok (item, rest) =>
      match readItems rest with
      | .error e => throw e
      | .ok (items, rest) => return (item :: items, rest)
termination_by s.length
decreasing_by exact (readItem_suffix _hitem).2

theorem readItems_suffix {s r : Bytes} {items : List ClassItem}
    (h : readItems s = .ok (items, r)) : r <:+ s := by
  fun_induction readItems s generalizing items r with
  | case1 => cases h
  | case2 rest => cases h; exact List.suffix_cons _ _
  | case3 => cases h
  | case4 => cases h
  | case5 s _ _ item rest hitem items' rest' hrest ih =>
    cases h
    exact (ih hrest).trans (readItem_suffix hitem).1

/-- Reads a class, from right behind the bracket that starts it. -/
def read (s : Bytes) : Except ReadError (CharClass × Bytes) :=
  let (negated, body) := match s with
    | 0x5e :: rest => (true, rest)
    | s => (false, s)
  match readItems body with
  | .error e => throw e
  | .ok (items, rest) => return (⟨negated, items⟩, rest)

theorem read_caret (s : Bytes) :
    read (0x5e :: s) = (readItems s).map fun p ↦ (⟨true, p.1⟩, p.2) := by
  rw [read]
  cases readItems s <;> rfl

theorem read_of_head_ne {s : Bytes} (h : s.head? ≠ some 0x5e) :
    read s = (readItems s).map fun p ↦ (⟨false, p.1⟩, p.2) := by
  unfold read
  split
  next negated body heq =>
  split at heq
  · exact absurd rfl h
  · cases heq
    cases readItems s <;> rfl

theorem read_suffix {s r : Bytes} {c : CharClass} (h : read s = .ok (c, r)) : r <:+ s := by
  unfold read at h
  split at h
  · next negated body heq =>
    have hbody : body <:+ s := by
      split at heq <;> cases heq
      · exact List.suffix_cons _ _
      · exact List.suffix_refl _
    split at h
    · cases h
    · next hitems => cases h; exact (readItems_suffix hitems).trans hbody

end CharClass

end PatternAutomata
