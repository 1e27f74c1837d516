import PatternAutomata.Pattern.Quantifier

/-!
# Patterns as events

A pattern is read from left to right into a list of events: an atom with its quantifier, the start
and the end of a group, a bar between alternatives, and the failure that reading ends with, if it
does. Events say nothing about which groups match up; that is found out when a tree is made of
them, and so the list as a whole is in the order in which faults come to light.

A quantifier that cannot be read completely never takes effect. Its atom does, and the failure is
the next event.
-/

namespace PatternAutomata

/-- The atoms of a pattern that are no groups. -/
inductive Atom
  /-- Any character but a line end. -/
  | any
  /-- One character. -/
  | literal (c : CodePoint)
  /-- A class escape. -/
  | escape (escape : ClassEscape)
  /-- A class between brackets. -/
  | bracket (charClass : CharClass)
  /-- The start of the text. -/
  | caret
  /-- The end of the text. -/
  | dollar
deriving DecidableEq, Repr

inductive GroupKind
  /-- A capture group. -/
  | capture
  /-- A group that only holds things together. -/
  | plain
  /-- A look-behind assertion. -/
  | lookBehind
deriving DecidableEq, Repr

/-- What is read of a pattern between one quantifier and the next. -/
inductive Part
  | atom (atom : Atom)
  | openGroup (kind : GroupKind)
  | bar
  | closeGroup
deriving DecidableEq, Repr

/-- What happens while a pattern is read. -/
inductive Event
  /-- An atom with its quantifier. -/
  | atom (atom : Atom) (quantifier : Quantifier)
  /-- The start of a group. -/
  | openGroup (kind : GroupKind)
  /-- The start of another alternative. -/
  | bar
  /-- The end of a group, which the group's quantifier follows. Faults of the group are placed
  between the two, where `left` is left to read. -/
  | closeGroup (left : Bytes) (quantifier : Quantifier)
  /-- The pattern cannot be read any further. -/
  | failure (error : ReadError)
deriving DecidableEq, Repr

/-- Reads the kind of a group from behind its parenthesis. -/
def GroupKind.read : Bytes → Except ReadError (GroupKind × Bytes)
  | 0x3f :: 0x3a :: rest => return (plain, rest)
  | 0x3f :: 0x3c :: 0x3d :: rest => return (lookBehind, rest)
  | 0x3f :: rest => throw (.located .unsupportedGroup (0x3f :: rest))
  | rest => return (capture, rest)

/-- Reads the part that starts with a token. A quantifier is no part: it has nothing to repeat. -/
def Part.ofToken (token : Token) (rest : Bytes) : Except ReadError (Part × Bytes) :=
  match token with
  | .literal c => return (atom (.literal c), rest)
  | .escape e => return (atom (.escape e), rest)
  | .dot => return (atom .any, rest)
  | .caret => return (atom .caret, rest)
  | .dollar => return (atom .dollar, rest)
  | .openGroup =>
    match GroupKind.read rest with
    | .error e => throw e
    | .ok (kind, rest) => return (openGroup kind, rest)
  | .closeGroup => return (closeGroup, rest)
  | .openClass =>
    match CharClass.read rest with
    | .error e => throw e
    | .ok (c, rest) => return (atom (.bracket c), rest)
  | .bar => return (bar, rest)
  | .star | .plus | .question | .brace => throw (.located .nothingToRepeat rest)

/-- Reads the next part, if there is one. -/
def Part.read (s : Bytes) : Except ReadError (Option (Part × Bytes)) :=
  match Token.read s with
  | .error e => throw e
  | .ok none => return none
  | .ok (some (token, rest)) =>
    match ofToken token rest with
    | .error e => throw e
    | .ok next => return some next

theorem GroupKind.read_suffix {s r : Bytes} {k : GroupKind} (h : read s = .ok (k, r)) :
    r <:+ s := by
  unfold read at h
  split at h
  · cases h; exact (List.suffix_cons _ _).trans (List.suffix_cons _ _)
  · cases h
    exact ((List.suffix_cons _ _).trans (List.suffix_cons _ _)).trans (List.suffix_cons _ _)
  · cases h
  · cases h; exact List.suffix_refl _

theorem Part.ofToken_suffix {token : Token} {s r : Bytes} {p : Part}
    (h : ofToken token s = .ok (p, r)) : r <:+ s := by
  unfold ofToken at h
  split at h
  case h_6 =>
    split at h
    · cases h
    · next hkind => cases h; exact GroupKind.read_suffix hkind
  case h_8 =>
    split at h
    · cases h
    · next hclass => cases h; exact CharClass.read_suffix hclass
  all_goals first
    | (cases h; done)
    | (cases h; exact List.suffix_refl _)

theorem Part.read_suffix {s r : Bytes} {p : Part} (h : read s = .ok (some (p, r))) :
    r <:+ s ∧ r.length < s.length := by
  unfold read at h
  split at h
  · cases h
  · cases h
  · next token rest htoken =>
    split at h
    · cases h
    · next hpart =>
      cases h
      have hs := ofToken_suffix hpart
      have ⟨ht, hlt⟩ := Token.read_suffix htoken
      exact ⟨hs.trans ht, Nat.lt_of_le_of_lt hs.length_le hlt⟩

def Event.read (s : Bytes) : List Event :=
  match _hpart : Part.read s with
  | .error e => [failure e]
  | .ok none => []
  | .ok (some (.openGroup kind, rest)) => openGroup kind :: Event.read rest
  | .ok (some (.bar, rest)) => bar :: Event.read rest
  | .ok (some (.atom a, rest)) =>
    match _hquantifier : Quantifier.read rest with
    | .error e => [atom a .once, failure e]
    | .ok (q, rest') => atom a q :: Event.read rest'
  | .ok (some (.closeGroup, rest)) =>
    match _hquantifier : Quantifier.read rest with
    | .error e => [closeGroup rest .once, failure e]
    | .ok (q, rest') => closeGroup rest q :: Event.read rest'
termination_by s.length
decreasing_by
  · exact (Part.read_suffix _hpart).2
  · exact (Part.read_suffix _hpart).2
  · exact Nat.lt_of_le_of_lt (Quantifier.read_suffix _hquantifier).length_le
      (Part.read_suffix _hpart).2
  · exact Nat.lt_of_le_of_lt (Quantifier.read_suffix _hquantifier).length_le
      (Part.read_suffix _hpart).2

end PatternAutomata
