import Mathlib.Logic.Basic
import PatternAutomata.Proofs.CodePoint.Normal
import PatternAutomata.Proofs.Pattern.Classes
import PatternAutomata.Proofs.Pattern.Positions

/-!
# What classes denote

A class between brackets stands for the characters that are in one of its items, or for those that
are in none. On the way to its set the ranges and the class escapes are gathered apart from each
other, the ranges perhaps with ends beyond the encoding, and the sets so far need not be canonical.
Of the members within the encoding nothing is lost by that.
-/

namespace PatternAutomata

variable {encoding : Encoding} {c : CodePoint}

/-! ## What is meant -/

/-- The characters of a kind. -/
def CharKind.Has : CharKind → CodePoint → Prop
  | digit, c => 0x30 ≤ c ∧ c ≤ 0x39
  | word, c => (0x30 ≤ c ∧ c ≤ 0x39) ∨ (0x41 ≤ c ∧ c ≤ 0x5a) ∨ c = 0x5f ∨ (0x61 ≤ c ∧ c ≤ 0x7a)
  | space, c => (0x09 ≤ c ∧ c ≤ 0x0d) ∨ c = 0x20 ∨ c = 0xa0 ∨ c = 0x1680 ∨
      (0x2000 ≤ c ∧ c ≤ 0x200a) ∨ (0x2028 ≤ c ∧ c ≤ 0x2029) ∨ c = 0x202f ∨ c = 0x205f ∨
      c = 0x3000 ∨ c = 0xfeff

/-- The characters up to `max` that a class escape stands for. -/
def ClassEscape.Has (e : ClassEscape) (max c : CodePoint) : Prop :=
  c ≤ max ∧ if e.negated then ¬e.kind.Has c else e.kind.Has c

/-- The characters that an item of a class stands for, of class escapes only those up to `max`. -/
def ClassItem.Has (max : CodePoint) : ClassItem → CodePoint → Prop
  | .range lo hi, c => lo ≤ c ∧ c ≤ hi
  | .escape e, c => e.Has max c

def CharClass.Has (max : CodePoint) (charClass : CharClass) (c : CodePoint) : Prop :=
  Xor (∃ i ∈ charClass.items, i.Has max c) (charClass.negated = true)

/-- The characters that an atom stands for. -/
def Atom.Has (max : CodePoint) : Atom → CodePoint → Prop
  | any, c => ¬(c = 0x0a ∨ c = 0x0d ∨ 0x2028 ≤ c ∧ c ≤ 0x2029)
  | literal d, c => c = d
  | escape e, c => e.Has max c
  | bracket charClass, c => charClass.Has max c
  | caret, _ | dollar, _ => False

/-! ## Sets within an encoding -/

namespace Encoding

variable {s : CodePointSet}

theorem mem_intersect_fullSet (hs : s.Tame) :
    c ∈ s.intersect encoding.fullSet ↔ c ≤ encoding.maxCodePoint ∧ c ∈ s := by
  rw [fullSet, hs.mem_intersect, and_comm]

theorem mem_complement_intersect (hs : s.Tame) :
    c ∈ (s.complement encoding.maxCodePoint).intersect encoding.fullSet ↔
      c ≤ encoding.maxCodePoint ∧ c ∉ s := by
  have hcomplement : (s.complement encoding.maxCodePoint).Canonical ∧ _ :=
    CodePointSet.complement_spec hs
  rw [mem_intersect_fullSet hcomplement.1.tame, hcomplement.2, and_self_left]

end Encoding

/-! ## Sets of class escapes -/

theorem le_and_le_iff {d : CodePoint} : d ≤ c ∧ c ≤ d ↔ c = d :=
  ⟨fun ⟨hle, hge⟩ ↦ UInt32.le_antisymm hge hle,
    fun heq ↦ heq ▸ ⟨UInt32.le_refl _, UInt32.le_refl _⟩⟩

theorem CharKind.mem_set {k : CharKind} : c ∈ k.set ↔ k.Has c := by
  cases k with
  | digit => exact CodePointSet.mem_range
  | word | space =>
    rw [set, (CodePointSet.ofRanges_spec _).2]
    simp only [List.exists_mem_cons_iff, List.not_mem_nil, false_and, exists_false, or_false,
      CodeRange.mem_iff, le_and_le_iff, Has]

theorem ClassEscape.mem_set {e : ClassEscape} :
    c ∈ e.set encoding ↔ e.Has encoding.maxCodePoint c := by
  rw [set, Has]
  cases e.negated with
  | true =>
    rw [if_pos rfl, if_pos rfl, Encoding.mem_complement_intersect e.kind.tame_set,
      CharKind.mem_set]
  | false =>
    rw [if_neg nofun, if_neg nofun, Encoding.mem_intersect_fullSet e.kind.tame_set,
      CharKind.mem_set]

/-! ## Sets of classes -/

theorem mem_foldl_union {escapes : List ClassEscape} {s : CodePointSet} :
    c ∈ escapes.foldl (fun s e ↦ s.union (e.set encoding)) s ↔
      c ∈ s ∨ ∃ e ∈ escapes, c ∈ e.set encoding := by
  induction escapes generalizing s with
  | nil => simp
  | cons e escapes ih =>
    rw [List.foldl_cons, ih, CodePointSet.mem_union, or_assoc, List.exists_mem_cons_iff]

namespace CharClass

variable {charClass : CharClass}

theorem exists_has_iff : (∃ i ∈ charClass.items, i.Has encoding.maxCodePoint c) ↔
    (∃ r ∈ charClass.ranges, c ∈ r) ∨ ∃ e ∈ charClass.escapes, c ∈ e.set encoding := by
  unfold ranges escapes
  induction charClass.items with
  | nil => simp
  | cons i items ih =>
    rw [List.exists_mem_cons_iff, ih]
    cases i with
    | range lo hi =>
      simp only [List.filterMap_cons, List.exists_mem_cons_iff, or_assoc]
      exact Iff.rfl
    | escape e =>
      simp only [List.filterMap_cons, List.exists_mem_cons_iff, ClassEscape.mem_set]
      exact or_left_comm

/-- **Classes denote what their items say.** A class has the characters of the encoding that are in
one of its items, or if it is negated those that are in none. -/
theorem mem_set : c ∈ charClass.set encoding ↔
    c ≤ encoding.maxCodePoint ∧ charClass.Has encoding.maxCodePoint c := by
  have hlisted : c ∈ (CodePointSet.ofRanges charClass.ranges).union
      (charClass.escapes.foldl (fun s e ↦ s.union (e.set encoding)) .empty) ↔
        ∃ i ∈ charClass.items, i.Has encoding.maxCodePoint c := by
    rw [CodePointSet.mem_union, (CodePointSet.ofRanges_spec _).2, mem_foldl_union,
      or_iff_right (a := c ∈ CodePointSet.empty) CodePointSet.not_mem_nil, exists_has_iff]
  have htame : ((CodePointSet.ofRanges charClass.ranges).union
      (charClass.escapes.foldl (fun s e ↦ s.union (e.set encoding)) .empty)).Tame :=
    (CodePointSet.ofRanges_spec _).1
  rw [set, Has]
  cases charClass.negated with
  | true =>
    rw [if_pos rfl, Encoding.mem_complement_intersect htame, hlisted]
    simp [Xor]
  | false =>
    rw [if_neg nofun, Encoding.mem_intersect_fullSet htame, hlisted]
    simp [Xor]

end CharClass

theorem Atom.mem_kind {atom : Atom} {set : CodePointSet} {claim : Option Nat}
    (h : atom.kind encoding = .chars set claim) :
    c ∈ set ↔ c ≤ encoding.maxCodePoint ∧ atom.Has encoding.maxCodePoint c := by
  cases atom with
  | any =>
    cases h
    rw [CodePointSet.notLineEnd, Encoding.mem_complement_intersect (CodePointSet.ofRanges_spec _).1,
      (CodePointSet.ofRanges_spec _).2]
    simp only [List.exists_mem_cons_iff, List.not_mem_nil, false_and, exists_false, or_false,
      CodeRange.mem_iff, CodeRange.single, le_and_le_iff, Has]
  | literal d =>
    cases h
    have htame : (CodePointSet.single d).Tame := CodePointSet.Canonical.tame
      (CodePointSet.canonical_cons.2 ⟨Nat.le_refl _, nofun, CodePointSet.canonical_nil⟩)
    have hsingle : c ∈ CodePointSet.single d ↔ c = d := by
      rw [CodePointSet.single, CodePointSet.mem_cons, or_iff_left CodePointSet.not_mem_nil]
      exact le_and_le_iff
    rw [Encoding.mem_intersect_fullSet htame, hsingle]
    exact Iff.rfl
  | escape e =>
    cases h
    exact ClassEscape.mem_set.trans (iff_and_self.2 And.left)
  | bracket charClass =>
    cases h
    exact CharClass.mem_set
  | caret => cases h
  | dollar => cases h

open Grammar

/-- A class between brackets is read as it is spelled, wherever it stands. -/
theorem event_read_of_spellsClass {s t body rest : Bytes} {charClass : CharClass}
    (hleads : ComesTo s t) (hsign : Sign 0x5b t body) (hspells : SpellsClass body charClass rest) :
    ∃ before q after, Event.read s = before ++ Event.read t ∧
      Event.read t = .atom (.bracket charClass) q :: after := by
  have htoken : Token.read t = .ok (some (.openClass, body)) := (read_iff_sign rfl).2 hsign
  have hpart : Part.read t = .ok (some (.atom (.bracket charClass), rest)) :=
    read_of_ofToken htoken (by rw [Part.ofToken, read_class_eq_iff.2 hspells]; rfl)
  obtain ⟨before, hbefore⟩ := hleads.event_read fun sign u heq ↦ by
    cases htoken.symm.trans heq
    exact id
  cases hquantifier : Quantifier.read rest with
  | error e => exact ⟨before, _, _, hbefore, event_read_atom_error hpart hquantifier⟩
  | ok next => exact ⟨before, _, _, hbefore, event_read_atom hpart hquantifier⟩

/-- **Classes denote what they spell.** All classes of a tree are canonical and have only characters
of the encoding. Of these they have the ones that an atom of the pattern stands for, or they are in
front of the pattern and have them all. And the class between brackets that is spelled somewhere in
a pattern has a node with the characters that it stands for, which is the next node once all events
in front of it have been taken. -/
theorem Tree.classes_denote {o : Options} {pattern : Bytes} {t : Tree}
    (ht : Tree.ofPattern o pattern = .ok t) :
    (∀ id set claim, (t.node id).kind = .chars set claim →
      (set.Canonical ∧ ∀ c ∈ set, c ≤ o.encoding.maxCodePoint) ∧
        (set = o.encoding.fullSet ∨ ∃ atom q, .atom atom q ∈ Event.read pattern.untilZero ∧
          ∀ c ≤ o.encoding.maxCodePoint, c ∈ set ↔ atom.Has o.encoding.maxCodePoint c)) ∧
    ∀ s body rest charClass, ComesTo pattern.untilZero s → Sign 0x5b s body →
      SpellsClass body charClass rest → ∃ before q after b set claim,
        Event.read pattern.untilZero = before ++ Event.read s ∧
        Event.read s = .atom (.bracket charClass) q :: after ∧
        before.foldlM (TreeBuilder.take o) .start = .ok b ∧
        (t.node b.arena.size).kind = .chars set claim ∧
        ∀ c ≤ o.encoding.maxCodePoint, c ∈ set ↔
          Xor (∃ i ∈ charClass.items, i.Has o.encoding.maxCodePoint c)
            (charClass.negated = true) := by
  constructor
  · intro id set claim hkind
    obtain ⟨hencoding, hregular⟩ := regular_of_ofPattern ht
    refine ⟨hencoding ▸ hregular.fits_chars hkind, ?_⟩
    have hplain : ∀ atom q, .atom atom q ∈ Event.read pattern.untilZero →
        (atom.kind o.encoding).Plain fun set ↦ ∃ atom q,
          .atom atom q ∈ Event.read pattern.untilZero ∧
            ∀ c ≤ o.encoding.maxCodePoint, c ∈ set ↔ atom.Has o.encoding.maxCodePoint c :=
      fun atom q hmem ↦ Atom.plain_of_chars fun set claim hset ↦
        ⟨atom, q, hmem, fun c hc ↦ (Atom.mem_kind hset).trans (and_iff_right hc)⟩
    obtain ⟨a, root, captures, hready, rfl⟩ := ready_of_ofPattern hplain ht
    exact (((hready.finishedFrom o.encoding captures).regular hready).chars hkind).symm
  · intro s body rest charClass hleads hsign hspells
    obtain ⟨before, q, after, hbefore, hclass⟩ :=
      event_read_of_spellsClass hleads hsign hspells
    obtain ⟨b, claim, hb, hkind⟩ := exists_chars_of_event ht
      (hbefore.trans (congrArg (before ++ ·) hclass)) rfl
    exact ⟨before, q, after, b, _, claim, hbefore, hclass, hb, hkind, fun c hc ↦
      CharClass.mem_set.trans (and_iff_right hc)⟩

/-- A class without the characters that are no digits, and without a range that goes beyond the
encoding. -/
theorem Tree.classes_denote_beyond :
    ∃ t, Tree.ofPattern { encoding := .latin1 }
        (.ofString "x[^\\D\\u\x7b35\x7d-\\u\x7b200\x7d]+") = .ok t ∧
      ∃ id set claim, (t.node id).kind = .chars set claim ∧
        0x34 ∈ set ∧ 0x35 ∉ set ∧ 0xff ∉ set := by
  obtain ⟨t, ht, -⟩ := Tree.exists_ofPattern (fun _ ↦ true)
    (show (Tree.ofPattern { encoding := .latin1 }
      (.ofString "x[^\\D\\u\x7b35\x7d-\\u\x7b200\x7d]+")).toOption.any _ = true by decide +kernel)
  have hread : CharClass.read (.ofString "^\\D\\u\x7b35\x7d-\\u\x7b200\x7d]+") =
      .ok (⟨true, [.escape ⟨.digit, true⟩, .range 0x35 0x200]⟩, .ofString "+") := by decide +kernel
  have hx : Sign 0x78 (.ofString "x[^\\D\\u\x7b35\x7d-\\u\x7b200\x7d]+")
      (.ofString "[^\\D\\u\x7b35\x7d-\\u\x7b200\x7d]+") :=
    ⟨0x78, Bytes.ofString "[^\\D\\u\x7b35\x7d-\\u\x7b200\x7d]+", by decide +kernel⟩
  have hsign : Sign 0x5b (.ofString "[^\\D\\u\x7b35\x7d-\\u\x7b200\x7d]+")
      (.ofString "^\\D\\u\x7b35\x7d-\\u\x7b200\x7d]+") :=
    ⟨0x5b, Bytes.ofString "^\\D\\u\x7b35\x7d-\\u\x7b200\x7d]+", by decide +kernel⟩
  have hleads : ComesTo (Bytes.ofString "x[^\\D\\u\x7b35\x7d-\\u\x7b200\x7d]+").untilZero
      (.ofString "[^\\D\\u\x7b35\x7d-\\u\x7b200\x7d]+") := by
    rw [Bytes.untilZero_eq_self (by decide +kernel)]
    exact .single (.char (.plain hx (by decide))) .once .here
  obtain ⟨-, -, -, b, set, claim, -, -, -, hkind, hmem⟩ :=
    (Tree.classes_denote ht).2 _ _ _ _ hleads hsign (read_class_eq_iff.1 hread)
  refine ⟨t, ht, _, set, claim, hkind, (hmem _ (by decide)).2 ?_, fun hin ↦ ?_, fun hin ↦ ?_⟩
  · simp [ClassItem.Has, ClassEscape.Has, CharKind.Has, Xor, Encoding.maxCodePoint]
  · have := (hmem _ (by decide)).1 hin
    simp [ClassItem.Has, ClassEscape.Has, CharKind.Has, Xor, Encoding.maxCodePoint] at this
  · have := (hmem _ (by decide)).1 hin
    simp [ClassItem.Has, ClassEscape.Has, CharKind.Has, Xor, Encoding.maxCodePoint] at this

end PatternAutomata
