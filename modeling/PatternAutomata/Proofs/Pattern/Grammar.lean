import PatternAutomata.Pattern.Event

/-!
# The grammar of patterns

The patterns that can be read, told without reading them from left to right:

```text
alternatives = sequence ('|' sequence)*
sequence     = (atom quantified)*
quantified   = (sign '?'?)?
sign         = '*' | '+' | '?' | '{' count '}' | '{' count ',' '}' | '{' count ',' count '}'
atom         = '.' | '^' | '$' | class escape | literal | '[' '^'? items ']'
             | '(' alternatives ')' | '(?:' alternatives ')' | '(?<=' sequence ')'
items        = (class escape | character | character '-' character)*
```

What a symbol derives is told by the text that it starts in front of and the text behind it. So
`s` is a pattern if `alternatives` lead from `s` to the end.

Outside brackets an unescaped character counts as what it decodes to, as valid UTF-8 is decoded into
the characters that it encodes. Two places say more than the picture above. A circumflex right
behind the opening bracket always makes a complement. And a dash behind a character between brackets
always makes a range, unless it ends the class or the text.
-/

namespace PatternAutomata

/-- Whether nothing but classes is placed by a quantifier, of an atom that is a class or not. -/
def Quantifier.placesChars (isChars : Bool) : Quantifier → Bool
  | once => isChars
  | star _ | plus _ | optional _ | counted _ none _ => false
  | counted least (some greatest) _ =>
    greatest == 0 || (decide (greatest ≤ least) && isChars)

def Atom.isChars : Atom → Bool
  | any | literal _ | escape _ | bracket _ => true
  | caret | dollar => false

namespace Grammar

/-! ## Characters -/

/-- The unescaped character `c`. -/
def Sign (c : CodePoint) (s rest : Bytes) : Prop :=
  ∃ b t, s = b :: t ∧ b ≠ 0x5c ∧ Utf8.decode b t = (c, rest)

/-- The characters that stand for more than themselves outside brackets: `( ) * + ? { | [ . ^ $`. -/
def signs : List CodePoint :=
  [0x28, 0x29, 0x2a, 0x2b, 0x3f, 0x7b, 0x7c, 0x5b, 0x2e, 0x5e, 0x24]

/-- The letters of class escapes: `d D w W s S`. -/
def classLetters : Bytes := [0x64, 0x44, 0x77, 0x57, 0x73, 0x53]

/-- The digits that refer back to a group. -/
def IsReference (b : UInt8) : Prop := 0x31 ≤ b ∧ b ≤ 0x39

/-- A character outside brackets: one that stands for itself, or an escaped one, where word
boundaries and back-references are no characters. -/
inductive Literal : Bytes → Bytes → Prop
  | plain {c : CodePoint} {s rest : Bytes} : Sign c s rest → c ∉ signs → Literal s rest
  | escaped {c : CodePoint} {s rest : Bytes} :
      (∀ b, s.head? = some b → b ∉ classLetters ∧ b ≠ 0x62 ∧ b ≠ 0x42 ∧ ¬IsReference b) →
      Escape.read s = .ok (c, rest) → Literal (0x5c :: s) rest

/-! ## Classes -/

/-- A character between brackets, where `\b` is a backspace. -/
inductive ClassChar : Bytes → CodePoint → Bytes → Prop
  | plain {b : UInt8} {c : CodePoint} {s rest : Bytes} : b ≠ 0x5c → b ≠ 0x5d →
      Utf8.decode b s = (c, rest) → ClassChar (b :: s) c rest
  | backspace {s : Bytes} : ClassChar (0x5c :: 0x62 :: s) 0x08 s
  | escaped {c : CodePoint} {s rest : Bytes} :
      (∀ b, s.head? = some b → b ∉ classLetters ∧ b ≠ 0x62 ∧ ¬IsReference b) →
      Escape.read s = .ok (c, rest) → ClassChar (0x5c :: s) c rest

/-- A dash that makes a range: something follows that does not end the class. -/
def Dash (s rest : Bytes) : Prop := s = 0x2d :: rest ∧ ∃ b t, rest = b :: t ∧ b ≠ 0x5d

/-- The items of a class, and the bracket behind them. -/
inductive Items : Bytes → Bytes → Prop
  | done {rest : Bytes} : Items (0x5d :: rest) rest
  | escape {b : UInt8} {s rest : Bytes} : b ∈ classLetters → Items s rest →
      Items (0x5c :: b :: s) rest
  | char {c : CodePoint} {s t rest : Bytes} : ClassChar s c t → (∀ u, ¬Dash t u) → Items t rest →
      Items s rest
  | range {lo hi : CodePoint} {s t u v rest : Bytes} : ClassChar s lo t → Dash t u →
      ClassChar u hi v → lo ≤ hi → Items v rest → Items s rest

def letter : ClassEscape → UInt8
  | ⟨.digit, false⟩ => 0x64
  | ⟨.digit, true⟩ => 0x44
  | ⟨.word, false⟩ => 0x77
  | ⟨.word, true⟩ => 0x57
  | ⟨.space, false⟩ => 0x73
  | ⟨.space, true⟩ => 0x53

/-- The items of a class with what they are, and the bracket behind them. -/
inductive Spells : Bytes → List ClassItem → Bytes → Prop
  | done {rest : Bytes} : Spells (0x5d :: rest) [] rest
  | escape {e : ClassEscape} {items : List ClassItem} {s rest : Bytes} : Spells s items rest →
      Spells (0x5c :: letter e :: s) (.escape e :: items) rest
  | char {c : CodePoint} {items : List ClassItem} {s t rest : Bytes} : ClassChar s c t →
      (∀ u, ¬Dash t u) → Spells t items rest → Spells s (.range c c :: items) rest
  | range {lo hi : CodePoint} {items : List ClassItem} {s t u v rest : Bytes} : ClassChar s lo t →
      Dash t u → ClassChar u hi v → lo ≤ hi → Spells v items rest →
      Spells s (.range lo hi :: items) rest

/-- A class with its items, from behind the bracket that starts it. -/
inductive SpellsClass : Bytes → CharClass → Bytes → Prop
  | negated {items : List ClassItem} {s rest : Bytes} : Spells s items rest →
      SpellsClass (0x5e :: s) ⟨true, items⟩ rest
  | listed {items : List ClassItem} {s rest : Bytes} : s.head? ≠ some 0x5e →
      Spells s items rest → SpellsClass s ⟨false, items⟩ rest

/-- A class, from behind the bracket that starts it. -/
inductive Class : Bytes → Bytes → Prop
  | negated {s rest : Bytes} : Items s rest → Class (0x5e :: s) rest
  | listed {s rest : Bytes} : s.head? ≠ some 0x5e → Items s rest → Class s rest

/-! ## Quantifiers -/

def decimal (digits : Bytes) : Nat := digits.foldl (fun n d ↦ 10 * n + digitValue d) 0

/-- A number of times, which counts as the largest one that can be counted to if it is larger. -/
def Count (s : Bytes) (n : Nat) (rest : Bytes) : Prop :=
  ∃ digits : Bytes, digits ≠ [] ∧ (∀ d ∈ digits, isDigit d = true) ∧ s = digits ++ rest ∧
    n = min (decimal digits) Quantifier.maxCount

/-- The numbers between braces, and the brace behind them. -/
inductive Counts : Bytes → Nat → Option Nat → Bytes → Prop
  | exactly {n : Nat} {s rest : Bytes} : Count s n (0x7d :: rest) → Counts s n (some n) rest
  | atLeast {n : Nat} {s rest : Bytes} : Count s n (0x2c :: 0x7d :: rest) → Counts s n none rest
  | between {least greatest : Nat} {s t rest : Bytes} : Count s least (0x2c :: t) →
      Count t greatest (0x7d :: rest) → least ≤ greatest → Counts s least (some greatest) rest

inductive QuantifierSign : Bytes → (Bool → Quantifier) → Bytes → Prop
  | star {s rest : Bytes} : Sign 0x2a s rest → QuantifierSign s .star rest
  | plus {s rest : Bytes} : Sign 0x2b s rest → QuantifierSign s .plus rest
  | optional {s rest : Bytes} : Sign 0x3f s rest → QuantifierSign s .optional rest
  | counted {least : Nat} {greatest : Option Nat} {s t rest : Bytes} : Sign 0x7b s t →
      Counts t least greatest rest → QuantifierSign s (.counted least greatest) rest

/-- The quantifier of an atom, which may have none. -/
inductive Quantified : Bytes → Quantifier → Bytes → Prop
  | once {s : Bytes} : Quantified s .once s
  | greedy {make : Bool → Quantifier} {s rest : Bytes} : QuantifierSign s make rest →
      Quantified s (make false) rest
  | reluctant {make : Bool → Quantifier} {s t rest : Bytes} : QuantifierSign s make t →
      Sign 0x3f t rest → Quantified s (make true) rest

/-! ## Patterns -/

/-- An atom that is no group: a class, which counts as `true`, or an assertion. -/
inductive Single : Bool → Bytes → Bytes → Prop
  | any {s rest : Bytes} : Sign 0x2e s rest → Single true s rest
  | caret {s rest : Bytes} : Sign 0x5e s rest → Single false s rest
  | dollar {s rest : Bytes} : Sign 0x24 s rest → Single false s rest
  | escape {b : UInt8} {rest : Bytes} : b ∈ classLetters → Single true (0x5c :: b :: rest) rest
  | char {s rest : Bytes} : Literal s rest → Single true s rest
  | bracket {s t rest : Bytes} : Sign 0x5b s t → Class t rest → Single true s rest

/-- The start of a group. -/
inductive Opens : GroupKind → Bytes → Bytes → Prop
  | capture {s rest : Bytes} : Sign 0x28 s rest → rest.head? ≠ some 0x3f → Opens .capture s rest
  | plain {s rest : Bytes} : Sign 0x28 s (0x3f :: 0x3a :: rest) → Opens .plain s rest
  | lookBehind {s rest : Bytes} : Sign 0x28 s (0x3f :: 0x3c :: 0x3d :: rest) →
      Opens .lookBehind s rest

/-- The symbols that depend on each other. Of a sequence and of an atom it matters whether nothing
but classes comes of them. -/
inductive Symbol
  | alternatives
  | sequence (ofChars : Bool)
  | atom (isChars : Bool)

inductive Derives : Symbol → Bytes → Bytes → Prop
  | last {ofChars : Bool} {s rest : Bytes} : Derives (.sequence ofChars) s rest →
      Derives .alternatives s rest
  | more {ofChars : Bool} {s t u rest : Bytes} : Derives (.sequence ofChars) s t →
      Sign 0x7c t u → Derives .alternatives u rest → Derives .alternatives s rest
  | nil {s : Bytes} : Derives (.sequence true) s s
  | cons {isChars ofChars : Bool} {q : Quantifier} {s t u rest : Bytes} :
      Derives (.atom isChars) s t → Quantified t q u → Derives (.sequence ofChars) u rest →
      Derives (.sequence (q.placesChars isChars && ofChars)) s rest
  | single {isChars : Bool} {s rest : Bytes} : Single isChars s rest →
      Derives (.atom isChars) s rest
  | group {kind : GroupKind} {s t u rest : Bytes} : kind ≠ .lookBehind → Opens kind s t →
      Derives .alternatives t u → Sign 0x29 u rest → Derives (.atom false) s rest
  | lookBehind {s t u rest : Bytes} : Opens .lookBehind s t → Derives (.sequence true) t u →
      Sign 0x29 u rest → Derives (.atom false) s rest

end Grammar

end PatternAutomata
