import PatternAutomata.Proofs.Pattern.ReadBack
import PatternAutomata.Proofs.Pattern.Spelling

/-!
# Unicode escapes between braces

Between the braces of a Unicode escape may stand any number of digits. They are taken for as long as
the number so far is within Unicode, which is looked at only before one more digit is taken. So the
last digit may bring the number out of Unicode: what counts is the number without it, and numbers up
to `0x10fffff` are accepted. The escape still stands for that very number, which no encoding has.
-/

namespace PatternAutomata

open Grammar

variable {digits s t rest : Bytes} {n : Nat}

/-- A number with one more hexadecimal digit. -/
def appendHex (n : Nat) (d : UInt8) : Nat := 16 * n + (hexValue d).toNat

def hexNumber (digits : Bytes) : Nat := digits.foldl appendHex 0

def braced (digits : Bytes) : Bytes := 0x5c :: 0x75 :: 0x7b :: (digits ++ [0x7d])

/-! ## Taking digits -/

theorem le_foldl_appendHex (digits : Bytes) (n : Nat) : n ≤ digits.foldl appendHex n := by
  induction digits generalizing n with
  | nil => exact Nat.le_refl _
  | cons d digits ih =>
    have hle : n ≤ appendHex n d := by
      unfold appendHex
      omega
    exact Nat.le_trans hle (ih _)

namespace Escape

theorem takeHexDigits_of_lt (hlt : 0x10ffff < n) (hn : n < 0x1100000) :
    takeHexDigits (.ofNat n) t = (.ofNat n, t) := by
  have hgt : ¬UInt32.ofNat n ≤ 0x10ffff := by
    rw [UInt32.le_iff_toNat_le, UInt32.toNat_ofNat_of_lt' (by show n < 2 ^ 32; omega)]
    exact Nat.not_le.2 hlt
  cases t with
  | nil => rfl
  | cons b t => rw [takeHexDigits, if_neg (by simp [hgt])]

/-- **Digits are taken up to the brace, or until there are too many.** -/
theorem takeHexDigits_append (hn : n ≤ 0x10ffff) (hdigits : ∀ d ∈ digits, isHexDigit d = true)
    (rest : Bytes) :
    (digits.foldl appendHex n < 0x1100000 →
      takeHexDigits (.ofNat n) (digits ++ 0x7d :: rest) =
        (.ofNat (digits.foldl appendHex n), 0x7d :: rest)) ∧
    (0x1100000 ≤ digits.foldl appendHex n → ∃ code d t,
      takeHexDigits (.ofNat n) (digits ++ 0x7d :: rest) = (code, d :: t) ∧ d ≠ 0x7d) := by
  induction digits generalizing n with
  | nil =>
    refine ⟨fun _ ↦ ?_, fun hle ↦ absurd hle (by show ¬0x1100000 ≤ n; omega)⟩
    have hbrace : isHexDigit 0x7d = false := rfl
    rw [List.nil_append, takeHexDigits, if_neg (by simp [hbrace])]
    rfl
  | cons d digits ih =>
    obtain ⟨hd, hdigits⟩ := List.forall_mem_cons.1 hdigits
    have hlt : appendHex n d < 0x1100000 := by
      have := hexValue_lt hd
      unfold appendHex
      omega
    rw [List.foldl_cons, List.cons_append, takeHexDigits_cons hn hd]
    by_cases hin : appendHex n d ≤ 0x10ffff
    · exact ih hin hdigits
    · have htake := takeHexDigits_of_lt (t := digits ++ 0x7d :: rest) (Nat.not_le.1 hin) hlt
      cases digits with
      | nil => exact ⟨fun _ ↦ htake, fun hle ↦ absurd hle (Nat.not_le.2 hlt)⟩
      | cons d' digits =>
        -- with one more digit the number is too large, whatever the rest
        have hle := le_foldl_appendHex digits (appendHex (appendHex n d) d')
        have hlarge : 0x1100000 ≤ appendHex (appendHex n d) d' := by
          unfold appendHex at hin ⊢
          omega
        refine ⟨fun hvalue ↦ absurd hvalue (Nat.not_lt.2 (Nat.le_trans hlarge hle)),
          fun _ ↦ ⟨_, d', _, htake, ?_⟩⟩
        rintro rfl
        cases (List.forall_mem_cons.1 hdigits).1

/-- **Which escapes between braces are accepted**, and what they stand for. -/
theorem read_braced (hne : digits ≠ []) (hdigits : ∀ d ∈ digits, isHexDigit d = true) :
    read (0x75 :: 0x7b :: (digits ++ 0x7d :: rest)) =
      if hexNumber digits < 0x1100000 then .ok (.ofNat (hexNumber digits), rest)
      else .error .badUnicodeEscape := by
  have hread : read (0x75 :: 0x7b :: (digits ++ 0x7d :: rest)) =
      readUnicode (0x7b :: (digits ++ 0x7d :: rest)) := rfl
  have hhead : (digits ++ 0x7d :: rest).head? ≠ some 0x7d := by
    obtain ⟨d, digits, rfl⟩ := List.exists_cons_of_ne_nil hne
    intro heq
    obtain rfl : d = 0x7d := Option.some.inj heq
    cases hdigits _ List.mem_cons_self
  obtain ⟨haccepts, hrejects⟩ := takeHexDigits_append (n := 0) (by decide) hdigits rest
  rw [hread, readUnicode]
  by_cases hlt : hexNumber digits < 0x1100000
  · have htake : takeHexDigits 0 (digits ++ 0x7d :: rest) = _ := haccepts hlt
    rw [htake, if_pos hlt]
    exact if_neg hhead
  · obtain ⟨code, d, t, htake, hd⟩ := hrejects (Nat.not_lt.1 hlt)
    have htake : takeHexDigits 0 (digits ++ 0x7d :: rest) = _ := htake
    rw [htake, if_neg hlt]
    split
    · next heq =>
      cases heq
      exact absurd rfl hd
    · rfl

end Escape

/-! ## Characters of patterns and of classes -/

theorem braced_append (digits rest : Bytes) :
    braced digits ++ rest = 0x5c :: 0x75 :: 0x7b :: (digits ++ 0x7d :: rest) := by
  simp [braced]

theorem readToken_braced (hne : digits ≠ []) (hdigits : ∀ d ∈ digits, isHexDigit d = true)
    (rest : Bytes) :
    Token.read (braced digits ++ rest) =
      if hexNumber digits < 0x1100000 then
        .ok (some (.literal (.ofNat (hexNumber digits)), rest))
      else .error .badUnicodeEscape := by
  have hnone : ClassEscape.read? (0x5c :: 0x75 :: 0x7b :: (digits ++ 0x7d :: rest)) = none := rfl
  rw [braced_append, Token.read, if_pos rfl, Token.readEscaped, hnone]
  dsimp only
  rw [if_neg (by simp), if_neg (by simp), Escape.read_braced hne hdigits]
  by_cases hlt : hexNumber digits < 0x1100000
  · rw [if_pos hlt, if_pos hlt]
    rfl
  · rw [if_neg hlt, if_neg hlt]
    rfl

theorem readChar_braced (hne : digits ≠ []) (hdigits : ∀ d ∈ digits, isHexDigit d = true)
    (rest : Bytes) :
    CharClass.readChar (braced digits ++ rest) =
      if hexNumber digits < 0x1100000 then .ok (.ofNat (hexNumber digits), rest)
      else .error .badUnicodeEscape := by
  rw [← Escape.read_braced hne hdigits, braced_append]
  rfl

/-- What an escape starts with ends no class, and it is no class escape. -/
theorem braced_start (digits rest : Bytes) : (braced digits ++ rest).head? ≠ some 0x5d ∧
    ClassEscape.read? (braced digits ++ rest) = none := by
  rw [braced_append]
  exact ⟨nofun, rfl⟩

/-! ## Places in a class -/

/-- Items lead from a place in a class to one where a character may stand. -/
inductive InClass : Bytes → Bytes → Prop
  | here {s : Bytes} : InClass s s
  | upper {lo : CodePoint} {s t rest : Bytes} : ClassChar s lo t → Dash t rest → InClass s rest
  | escape {b : UInt8} {s rest : Bytes} : b ∈ classLetters → InClass s rest →
      InClass (0x5c :: b :: s) rest
  | char {c : CodePoint} {s t rest : Bytes} : ClassChar s c t → (∀ u, ¬Dash t u) →
      InClass t rest → InClass s rest
  | range {lo hi : CodePoint} {s t u v rest : Bytes} : ClassChar s lo t → Dash t u →
      ClassChar u hi v → lo ≤ hi → InClass v rest → InClass s rest

/-- A character may stand at a place in a pattern, outside brackets or in a class. -/
inductive Awaits : Bytes → Bytes → Prop
  | outside {s rest : Bytes} : ComesTo s rest → Awaits s rest
  | listed {s t body rest : Bytes} : ComesTo s t → Sign 0x5b t body → body.head? ≠ some 0x5e →
      InClass body rest → Awaits s rest
  | negated {s t body rest : Bytes} : ComesTo s t → Sign 0x5b t (0x5e :: body) →
      InClass body rest → Awaits s rest

section Failure

variable {e : ReadError} {item : ClassItem}

theorem readItems_of_readItem_error (hne : s ≠ []) (hend : s.head? ≠ some 0x5d)
    (hitem : CharClass.readItem s = .error e) : CharClass.readItems s = .error e := by
  rw [CharClass.readItems.eq_def]
  split
  · exact absurd rfl hne
  · exact absurd rfl hend
  · split
    · next heq =>
      cases heq.symm.trans hitem
      rfl
    · next heq => cases heq.symm.trans hitem

theorem readItems_of_rest_error (hne : s ≠ []) (hend : s.head? ≠ some 0x5d)
    (hitem : CharClass.readItem s = .ok (item, t)) (hrest : CharClass.readItems t = .error e) :
    CharClass.readItems s = .error e := by
  rw [CharClass.readItems.eq_def]
  split
  · exact absurd rfl hne
  · exact absurd rfl hend
  · split
    · next heq => cases heq.symm.trans hitem
    · next heq =>
      cases heq.symm.trans hitem
      rw [hrest]
      rfl

/-- **A character that cannot be read fails the class it stands in.** -/
theorem InClass.readItems_error (h : InClass s rest) (hne : rest ≠ [])
    (hstart : rest.head? ≠ some 0x5d ∧ ClassEscape.read? rest = none)
    (hrest : CharClass.readChar rest = .error e) : CharClass.readItems s = .error e := by
  induction h with
  | here =>
    refine readItems_of_readItem_error hne hstart.1 ?_
    rw [CharClass.readItem, hstart.2, CharClass.readRange, hrest]
    rfl
  | upper hlo hdash =>
    obtain ⟨hsne, hend, hescape⟩ := hlo.start
    refine readItems_of_readItem_error hsne hend ?_
    rw [CharClass.readItem, hescape, CharClass.readRange, (readChar_iff hend hescape).2 hlo]
    dsimp only
    rw [rangeEnd?_eq_some_iff.2 hdash]
    dsimp only
    rw [hstart.2, if_neg (by simp), hrest]
    rfl
  | escape hb _ ih =>
    obtain ⟨e, he⟩ := read?_classEscape.2 ⟨_, hb, rfl⟩
    exact readItems_of_rest_error (List.cons_ne_nil _ _) (by simp)
      (by rw [CharClass.readItem, he]; rfl)
      (ih hne hstart hrest)
  | char hchar hdash _ ih =>
    obtain ⟨hsne, hend, hescape⟩ := hchar.start
    exact readItems_of_rest_error hsne hend
      (by rw [CharClass.readItem, hescape, readRange_of_char hchar hdash]) (ih hne hstart hrest)
  | range hlo hdash hhi hle _ ih =>
    obtain ⟨hsne, hend, hescape⟩ := hlo.start
    exact readItems_of_rest_error hsne hend
      (by rw [CharClass.readItem, hescape, readRange_of_range hlo hdash hhi hle])
      (ih hne hstart hrest)

/-- **A character that cannot be read is where reading ends.** -/
theorem Awaits.event_read (h : Awaits s rest) (hne : rest ≠ [])
    (hstart : rest.head? ≠ some 0x5d ∧ ClassEscape.read? rest = none)
    (htoken : Token.read rest = .error e) (hchar : CharClass.readChar rest = .error e) :
    ∃ before, Event.read s = before ++ [.failure e] := by
  have hclass : ∀ {t body}, ComesTo s t → Sign 0x5b t body → CharClass.read body = .error e →
      ∃ before, Event.read s = before ++ [.failure e] := by
    intro t body hleads hsign hbody
    have hopen : Token.read t = .ok (some (.openClass, body)) := (read_iff_sign rfl).2 hsign
    have hpart : Part.read t = .error e := by
      rw [Part.read, hopen]
      dsimp only
      rw [Part.ofToken, hbody]
      rfl
    obtain ⟨before, heq⟩ := hleads.event_read fun sign u hu ↦ by
      cases hopen.symm.trans hu
      exact id
    exact ⟨before, by rw [heq, event_read_error hpart]⟩
  cases h with
  | outside hleads =>
    have hpart : Part.read rest = .error e := by
      rw [Part.read, htoken]
      rfl
    obtain ⟨before, heq⟩ := hleads.event_read fun sign u hu ↦ by cases htoken.symm.trans hu
    exact ⟨before, by rw [heq, event_read_error hpart]⟩
  | listed hleads hsign hcaret hin =>
    refine hclass hleads hsign ?_
    rw [CharClass.read_of_head_ne hcaret, hin.readItems_error hne hstart hchar]
    rfl
  | negated hleads hsign hin =>
    refine hclass hleads hsign ?_
    rw [CharClass.read_caret, hin.readItems_error hne hstart hchar]
    rfl

end Failure

/-! ## Patterns -/

theorem event_read_of_literal {c : CodePoint} (hleads : ComesTo s t)
    (htoken : Token.read t = .ok (some (.literal c, rest))) :
    ∃ before q after, Event.read s = before ++ .atom (.literal c) q :: after := by
  have hpart : Part.read t = .ok (some (.atom (.literal c), rest)) := read_of_ofToken htoken rfl
  obtain ⟨before, heq⟩ := hleads.event_read fun sign u hu ↦ by
    cases htoken.symm.trans hu
    exact id
  rw [heq]
  cases hquantifier : Quantifier.read rest with
  | error e => exact ⟨before, _, _, by rw [event_read_atom_error hpart hquantifier]⟩
  | ok next => exact ⟨before, _, _, by rw [event_read_atom hpart hquantifier]⟩

theorem zero_notMem_braced (hdigits : ∀ d ∈ digits, isHexDigit d = true) :
    0 ∉ braced digits := by
  intro hmem
  simp only [braced, List.mem_cons, List.mem_append, List.not_mem_nil, or_false] at hmem
  rcases hmem with h | h | h | h | h
  case inr.inr.inr.inl => cases hdigits 0 h
  all_goals cases h

theorem classChar_braced (hne : digits ≠ []) (hdigits : ∀ d ∈ digits, isHexDigit d = true)
    (hlt : hexNumber digits < 0x1100000) :
    ClassChar (braced digits ++ rest) (.ofNat (hexNumber digits)) rest := by
  obtain ⟨hend, hescape⟩ := braced_start digits rest
  rw [← readChar_iff hend hescape, readChar_braced hne hdigits, if_pos hlt]

theorem event_read_braced (hne : digits ≠ []) (hdigits : ∀ d ∈ digits, isHexDigit d = true)
    (hlt : hexNumber digits < 0x1100000) :
    Event.read (braced digits) = [.atom (.literal (.ofNat (hexNumber digits))) .once] := by
  have htoken := readToken_braced hne hdigits []
  rw [if_pos hlt, List.append_nil] at htoken
  rw [event_read_atom (read_of_ofToken htoken rfl) rfl, event_read_nil rfl]

theorem event_read_bracket_braced (hne : digits ≠ [])
    (hdigits : ∀ d ∈ digits, isHexDigit d = true) (hlt : hexNumber digits < 0x1100000) :
    Event.read (0x5b :: (braced digits ++ [0x5d])) =
      [.atom (.bracket ⟨false, [.range (.ofNat (hexNumber digits)) (.ofNat (hexNumber digits))]⟩)
        .once] := by
  have hsign : Sign 0x5b (0x5b :: (braced digits ++ [0x5d])) (braced digits ++ [0x5d]) :=
    ⟨0x5b, _, rfl, by decide, rfl⟩
  have hspells : SpellsClass (braced digits ++ [0x5d])
      ⟨false, [.range (.ofNat (hexNumber digits)) (.ofNat (hexNumber digits))]⟩ [] := by
    refine .listed ?_ (.char (classChar_braced hne hdigits hlt) (fun u hdash ↦ ?_) .done)
    · rw [braced_append]
      exact nofun
    · cases hdash.1
  have htoken : Token.read (0x5b :: (braced digits ++ [0x5d])) =
      .ok (some (.openClass, braced digits ++ [0x5d])) := (read_iff_sign rfl).2 hsign
  have hpart := read_of_ofToken htoken (by rw [Part.ofToken, read_class_eq_iff.2 hspells]; rfl)
  rw [event_read_atom hpart rfl, event_read_nil rfl]

theorem exists_isClass {o : Options} {pattern : Bytes} {atom : Atom}
    (hevents : Event.read pattern.untilZero = [.atom atom .once]) (hchars : atom.isChars = true) :
    ∃ t set, Tree.ofPattern o pattern = .ok t ∧ t.IsClass set ∧
      ∀ c, c ∈ set ↔ c ≤ o.encoding.maxCodePoint ∧ atom.Has o.encoding.maxCodePoint c := by
  obtain ⟨set, hset⟩ : ∃ set, atom.kind o.encoding = .chars set none := by
    cases atom <;> first | exact ⟨_, rfl⟩ | cases hchars
  have htree : Tree.ofEvents o [.atom atom .once] =
      .ok ((Arena.ofClass set).finish o.encoding 0 1) := by
    cases atom <;> cases hset <;> rfl
  exact ⟨_, set, by rw [Tree.ofPattern, hevents, htree]; rfl, isClass_finish set o.encoding,
    fun c ↦ Atom.mem_kind hset⟩

/-- **Unicode escapes between braces.** Where a character may stand, an escape of any number of
digits is read as the character that they stand for, if that is less than `0x1100000`; on its own,
or on its own between brackets, it is a class of that character, which has no members if the
encoding does not have the character. From `0x1100000` on reading ends at the escape, and if nothing
in front of it has failed then what is reported is an invalid escape. -/
theorem braced_escape (hne : digits ≠ []) (hdigits : ∀ d ∈ digits, isHexDigit d = true) :
    (hexNumber digits < 0x1100000 →
      (∀ pattern rest : Bytes, ComesTo pattern.untilZero (braced digits ++ rest) → ∃ before q after,
        Event.read pattern.untilZero =
          before ++ .atom (.literal (.ofNat (hexNumber digits))) q :: after) ∧
      (∀ rest, ClassChar (braced digits ++ rest) (.ofNat (hexNumber digits)) rest) ∧
      ∀ o : Options, ∀ pattern ∈ [braced digits, 0x5b :: (braced digits ++ [0x5d])], ∃ t set,
        Tree.ofPattern o pattern = .ok t ∧ t.IsClass set ∧
          ∀ c, c ∈ set ↔ c ≤ o.encoding.maxCodePoint ∧ c.toNat = hexNumber digits) ∧
    (0x1100000 ≤ hexNumber digits → ∀ pattern rest : Bytes,
      Awaits pattern.untilZero (braced digits ++ rest) → ∃ before,
        Event.read pattern.untilZero = before ++ [.failure .badUnicodeEscape] ∧
        ∀ o : Options, (∃ e, Tree.ofPattern o pattern = .error e) ∧
          ∀ b, before.foldlM (TreeBuilder.take o) .start = .ok b →
            ∃ e, Tree.ofPattern o pattern = .error e ∧ e.message = "invalid unicode escape") := by
  refine ⟨fun hlt ↦ ⟨fun pattern rest hleads ↦ ?_, fun rest ↦ classChar_braced hne hdigits hlt,
    fun o pattern hpattern ↦ ?_⟩, fun hge pattern rest hawaits ↦ ?_⟩
  · exact event_read_of_literal hleads (by rw [readToken_braced hne hdigits, if_pos hlt])
  · have hcode : ∀ c : CodePoint, c = .ofNat (hexNumber digits) ↔ c.toNat = hexNumber digits := by
      intro c
      rw [← UInt32.toNat_inj, UInt32.toNat_ofNat_of_lt' (Nat.lt_trans hlt (by decide))]
    have hzero := zero_notMem_braced hdigits
    simp only [← hcode]
    rcases List.mem_cons.1 hpattern with rfl | hpattern
    · exact exists_isClass ((congrArg Event.read (Bytes.untilZero_eq_self hzero)).trans
        (event_read_braced hne hdigits hlt)) rfl
    · obtain rfl := List.mem_singleton.1 hpattern
      have hbracket : 0 ∉ 0x5b :: (braced digits ++ [0x5d]) := by simpa using hzero
      obtain ⟨t, set, ht, hclass, hmem⟩ := exists_isClass (o := o)
        ((congrArg Event.read (Bytes.untilZero_eq_self hbracket)).trans
          (event_read_bracket_braced hne hdigits hlt)) rfl
      refine ⟨t, set, ht, hclass, fun c ↦ (hmem c).trans ?_⟩
      simp [Atom.Has, CharClass.Has, ClassItem.Has, Xor, le_and_le_iff]
  · have hnot : ¬hexNumber digits < 0x1100000 := Nat.not_lt.2 hge
    obtain ⟨before, hevents⟩ :=
      hawaits.event_read (braced_append digits rest ▸ List.cons_ne_nil _ _)
      (braced_start digits rest) (by rw [readToken_braced hne hdigits, if_neg hnot])
      (by rw [readChar_braced hne hdigits, if_neg hnot])
    refine ⟨before, hevents, fun o ↦ ?_⟩
    obtain ⟨herror, hreport⟩ := Tree.ofPattern_of_failure (o := o) hevents
    exact ⟨herror, fun b hb ↦ ⟨_, hreport b hb, rfl⟩⟩

/-- The least number beyond Unicode is accepted, also with zeros in front of it, and sixteen times
that number is refused. -/
theorem braced_escape_limits :
    (∃ t set, Tree.ofPattern {} (.ofString "\\u\x7b000110000\x7d") = .ok t ∧ t.IsClass set ∧
      ∀ c, c ∉ set) ∧
    ∃ e, Tree.ofPattern {} (.ofString "[a-\\u\x7b1100000\x7d]") = .error e ∧
      e.message = "invalid unicode escape" := by
  constructor
  · have haccepted := (braced_escape (show Bytes.ofString "000110000" ≠ [] by decide +kernel)
      (by decide +kernel)).1 (by decide +kernel)
    obtain ⟨t, set, ht, hclass, hset⟩ := haccepted.2.2 {} _ List.mem_cons_self
    refine ⟨t, set, by rw [← ht]; rfl, hclass, fun c hc ↦ ?_⟩
    obtain ⟨hle, hcode⟩ := (hset c).1 hc
    have hvalue : hexNumber (.ofString "000110000") = 0x110000 := by decide +kernel
    have hmax := UInt32.le_iff_toNat_le.1 hle
    rw [hcode, hvalue] at hmax
    exact absurd hmax (by decide)
  · have hrefused := (braced_escape (show Bytes.ofString "1100000" ≠ [] by decide +kernel)
      (by decide +kernel)).2 (by decide +kernel)
    have hsign : Sign 0x5b (.ofString "[a-\\u\x7b1100000\x7d]")
        (.ofString "a-\\u\x7b1100000\x7d]") :=
      ⟨0x5b, Bytes.ofString "a-\\u\x7b1100000\x7d]", by decide +kernel⟩
    have hlower : ClassChar (.ofString "a-\\u\x7b1100000\x7d]") 0x61
        (.ofString "-\\u\x7b1100000\x7d]") :=
      .plain (by decide) (by decide) (by decide +kernel)
    have hawaits : Awaits (Bytes.ofString "[a-\\u\x7b1100000\x7d]").untilZero
        (braced (.ofString "1100000") ++ [0x5d]) := by
      rw [Bytes.untilZero_eq_self (by decide +kernel)]
      exact .listed .here hsign (by decide +kernel)
        (.upper hlower ⟨by decide +kernel, 0x5c, _, by rw [braced_append], by decide⟩)
    obtain ⟨before, hevents, hreport⟩ := hrefused _ _ hawaits
    have hbefore : before = [] := by
      have hlength :
          (Event.read (Bytes.ofString "[a-\\u\x7b1100000\x7d]").untilZero).length = 1 := by
        decide +kernel
      rw [hevents, List.length_append] at hlength
      exact List.eq_nil_of_length_eq_zero (Nat.add_right_cancel hlength)
    subst hbefore
    exact (hreport {}).2 _ rfl

/-- A number beyond Unicode that is accepted. -/
theorem exists_ofPattern_beyond_unicode : 0x10ffff < hexNumber (.ofString "110000") ∧
    ∃ t, Tree.ofPattern {} (.ofString "\\u\x7b110000\x7d") = .ok t := by
  refine ⟨by decide +kernel, ?_⟩
  obtain ⟨t, ht, -⟩ := Tree.exists_ofPattern (fun _ ↦ true)
    (show (Tree.ofPattern {} (.ofString "\\u\x7b110000\x7d")).toOption.any _ = true by
      decide +kernel)
  exact ⟨t, ht⟩

end PatternAutomata
