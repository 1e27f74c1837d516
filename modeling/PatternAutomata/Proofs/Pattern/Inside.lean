import PatternAutomata.Proofs.Pattern.Agreement
import PatternAutomata.Proofs.Pattern.Reading

/-!
# Readers stay inside the text

Every reader in memory agrees with the reader of text that it stands for, from characters to the
parts of a pattern. Where one of them looks ahead, it has seen that there is a text up to there.
-/

namespace PatternAutomata

namespace Cursor

variable {s t : Bytes} {e : ReadError}

/-! ## Characters -/

theorem taken_continuation (n : Nat) (c : CodePoint) (s : Bytes) :
    ((taken continuationStep (n, c) s).1.2, (taken continuationStep (n, c) s).2) =
      Utf8.takeContinuations n c s := by
  induction s generalizing n c with
  | nil => cases n <;> rfl
  | cons b s ih =>
    cases n with
    | zero => rfl
    | succ n =>
      rw [taken, continuationStep, Utf8.takeContinuations]
      by_cases hb : Utf8.isContinuation b = true
      · rw [if_pos hb, if_pos hb]
        exact ih n _
      · rw [if_neg hb, if_neg hb]

theorem taken_hex (value : CodePoint) (s : Bytes) :
    taken hexStep value s = Escape.takeHexDigits value s :=
  taken_eq hexStep Escape.takeHexDigits (fun _ ↦ rfl)
    (fun value b s ↦ by rw [hexStep, Escape.takeHexDigits]; split <;> rfl) value s

theorem taken_octal (value : CodePoint) (s : Bytes) :
    taken octalStep value s = Escape.takeOctalDigits value s :=
  taken_eq octalStep Escape.takeOctalDigits (fun _ ↦ rfl)
    (fun value b s ↦ by rw [octalStep, Escape.takeOctalDigits]; split <;> rfl) value s

theorem agrees_decode (b : UInt8) (t : Bytes) : Agrees decode (b :: t) (.ok (Utf8.decode b t)) := by
  refine .bind .byte_first (.bind .skip_one ?_)
  unfold Utf8.decode
  by_cases hb : b < 0x80
  · rw [if_pos hb, if_pos hb]
    exact .pure _
  · rw [if_neg hb, if_neg hb, ← taken_continuation]
    refine .bind (.loop (fun p ↦ ?_) _) (.pure _)
    obtain ⟨n, c⟩ := p
    cases n <;> rfl

theorem agrees_controlLetter : Agrees controlLetter s (.ok (Escape.readControlLetter s)) := by
  cases s with
  | nil => exact .bind .byte_end (.pure _)
  | cons b t =>
    refine .bind .byte_first ?_
    rw [Escape.readControlLetter]
    split
    · exact .bind .skip_one (.pure _)
    · exact .pure _

theorem agrees_hexPair : Agrees hexPair s (.ok (Escape.readHexPair s)) := by
  cases s with
  | nil => exact .bind .byte_end (.pure _)
  | cons a t =>
    refine .bind .byte_first ?_
    by_cases ha : isHexDigit a = true
    · rw [if_pos ha]
      refine .bind .byte_second ?_
      cases t with
      | nil => exact .pure _
      | cons b u =>
        rw [Escape.readHexPair, ha, Bool.true_and, List.headD_cons]
        split
        · exact .bind .skip_two (.pure _)
        · exact .pure _
    · rw [if_neg ha]
      cases t with
      | nil => exact .pure _
      | cons b u =>
        rw [Escape.readHexPair, Bool.eq_false_iff.2 ha]
        exact .pure _

/-- What digits that are all looked for in advance come to. -/
def hexAhead (n : Nat) (value : CodePoint) (s : Bytes) : Except ReadError (CodePoint × Bytes) :=
  if n ≤ s.length ∧ (s.take n).all isHexDigit = true then
    .ok ((s.take n).foldl (fun value digit ↦ value <<< 4 ||| hexValue digit) value, s.drop n)
  else .error .badUnicodeEscape

/-- As long as all bytes so far have been digits, there is one more to look at. -/
theorem agrees_hexDigits (n : Nat) (digits : Bytes) (value : CodePoint) :
    Agrees (hexDigits n digits.length value) (digits ++ s) (hexAhead n value s) := by
  induction n generalizing s digits value with
  | zero =>
    have hskip : Agrees (skip digits.length) (digits ++ s) (.ok ((), s)) := by
      have h := Agrees.skip (n := digits.length) (s := digits ++ s) (by simp)
      rwa [List.drop_left] at h
    rw [hexAhead, if_pos ⟨Nat.zero_le _, rfl⟩]
    exact .bind hskip (.pure _)
  | succ n ih =>
    have hbyte : Agrees (byte digits.length) (digits ++ s) (.ok (s.headD 0, digits ++ s)) := by
      have h := Agrees.byte (n := digits.length) (s := digits ++ s) (by simp)
      have hget : (digits ++ s).getD digits.length 0 = s.headD 0 := by cases s <;> simp
      rwa [hget] at h
    refine .bind hbyte ?_
    cases s with
    | nil =>
      have hnone : hexAhead (n + 1) value [] = .error .badUnicodeEscape := if_neg (by simp)
      rw [hnone]
      exact .refuse
    | cons b t =>
      rw [List.headD_cons]
      by_cases hb : isHexDigit b = true
      · have hnext : hexAhead (n + 1) value (b :: t) =
            hexAhead n (value <<< 4 ||| hexValue b) t := by simp [hexAhead, hb]
        have h := ih (s := t) (digits ++ [b]) (value <<< 4 ||| hexValue b)
        rw [List.length_append, List.length_singleton, List.append_assoc, ← hnext] at h
        rw [if_pos hb]
        exact h
      · have hnone : hexAhead (n + 1) value (b :: t) = .error .badUnicodeEscape :=
          if_neg (by simp [hb])
        rw [if_neg hb, hnone]
        exact .refuse

theorem readUnicode_of_ne (h : s.head? ≠ some 0x7b) : Escape.readUnicode s = hexAhead 4 0 s := by
  unfold Escape.readUnicode
  split
  · exact absurd rfl h
  · next a b c d rest _ =>
    have hlen : 4 ≤ (a :: b :: c :: d :: rest).length := Nat.le_add_left 4 _
    unfold hexAhead
    by_cases hall : [a, b, c, d].all isHexDigit = true
    · rw [if_pos hall, if_pos ⟨hlen, hall⟩]
      rfl
    · rw [if_neg hall, if_neg fun hboth ↦ hall hboth.2]
      rfl
  · next hshort =>
    have hnone : hexAhead 4 0 s = .error .badUnicodeEscape := by
      refine if_neg ?_
      rintro ⟨hlen, -⟩
      match s, hlen with
      | a :: b :: c :: d :: rest, _ => exact hshort a b c d rest rfl
    rw [hnone]
    rfl

theorem agrees_unicode : Agrees unicode s (Escape.readUnicode s) := by
  cases s with
  | nil => exact .bind .byte_end (agrees_hexDigits 4 [] 0)
  | cons b digits =>
    refine .bind .byte_first ?_
    by_cases hb : b = 0x7b
    · subst hb
      rw [if_pos rfl]
      have hfirst : Agrees (byte 0) digits (.ok (digits.headD 0, digits)) := by
        cases digits with
        | nil => exact .byte_end
        | cons d digits => exact .byte_first
      have hloop : Agrees (loop hexStep 0) digits (.ok (Escape.takeHexDigits 0 digits)) := by
        rw [← taken_hex]
        exact .loop (fun _ ↦ rfl) 0
      refine .bind .skip_one (.bind hfirst (.bind hloop ?_))
      rw [Escape.readUnicode]
      obtain ⟨value, u⟩ := Escape.takeHexDigits 0 digits
      cases u with
      | nil => exact .bind .byte_end .refuse
      | cons c u =>
        refine .bind .byte_first ?_
        by_cases hc : c = 0x7d
        · subst hc
          have hhead : digits.headD 0 = 0x7d ↔ digits.head? = some 0x7d := by cases digits <;> simp
          rw [if_pos rfl]
          change Agrees _ (0x7d :: u) (if digits.head? = some 0x7d then .error .badUnicodeEscape
            else .ok (value, u))
          by_cases hnone : digits.head? = some 0x7d
          · rw [if_pos hnone, if_pos (hhead.2 hnone)]
            exact .refuse
          · rw [if_neg hnone, if_neg (mt hhead.1 hnone)]
            exact .bind .skip_one (.pure value)
        · rw [if_neg hc]
          split
          · next heq =>
            cases heq
            exact absurd rfl hc
          · exact .refuse
    · have hread := readUnicode_of_ne (s := b :: digits) (fun heq ↦ hb (Option.some.inj heq))
      rw [if_neg hb, hread]
      exact agrees_hexDigits 4 [] 0

theorem agrees_escaped : Agrees escaped s (Escape.read s) := by
  cases s with
  | nil => exact .bind .byte_end (.pure _)
  | cons b t =>
    refine .of_text fun hs ↦ .bind .byte_first ?_
    have hb : b ≠ 0 := fun heq ↦ hs (heq ▸ List.mem_cons_self)
    rw [if_neg hb, Escape.read]
    cases Escape.control? b with
    | some c => exact .bind .skip_one (.pure c)
    | none =>
      dsimp only
      by_cases hc : b = 0x63
      · rw [if_pos hc, if_pos hc]
        exact .bind .skip_one agrees_controlLetter
      rw [if_neg hc, if_neg hc]
      by_cases hx : b = 0x78
      · rw [if_pos hx, if_pos hx]
        exact .bind .skip_one agrees_hexPair
      rw [if_neg hx, if_neg hx]
      by_cases hu : b = 0x75
      · rw [if_pos hu, if_pos hu]
        exact .bind .skip_one agrees_unicode
      rw [if_neg hu, if_neg hu]
      by_cases hzero : b = 0x30
      · rw [if_pos hzero, if_pos hzero, ← taken_octal]
        exact .bind .skip_one (.loop (fun _ ↦ rfl) _)
      rw [if_neg hzero, if_neg hzero]
      exact agrees_decode b t

/-! ## Classes -/

theorem agrees_classEscape? : Agrees classEscape? s
    (.ok ((ClassEscape.read? s).map Prod.fst, s)) := by
  cases s with
  | nil => exact .bind .byte_end (.pure _)
  | cons b t =>
    refine .bind .byte_first ?_
    by_cases hb : b = 0x5c
    · subst hb
      rw [if_pos rfl]
      refine .bind .byte_second ?_
      cases t with
      | nil => exact .pure _
      | cons c u =>
        rw [ClassEscape.read?, Option.map_map, List.headD_cons]
        cases ClassEscape.ofLetter? c <;> exact .pure _
    · have hnone : ClassEscape.read? (b :: t) = none := by
        unfold ClassEscape.read?
        split
        · next heq =>
          cases heq
          exact absurd rfl hb
        · rfl
      rw [if_neg hb, hnone]
      exact .pure none

theorem agrees_skip_classEscape {e : ClassEscape} (h : ClassEscape.read? s = some (e, t)) :
    Agrees (skip 2) s (.ok ((), t)) := by
  unfold ClassEscape.read? at h
  split at h
  · obtain ⟨e', -, heq⟩ := Option.map_eq_some_iff.1 h
    cases heq
    exact .skip_two
  · cases h

theorem agrees_classChar (hne : s ≠ []) : Agrees classChar s (CharClass.readChar s) := by
  cases s with
  | nil => exact absurd rfl hne
  | cons b t =>
    refine .bind .byte_first ?_
    by_cases hb : b = 0x5c
    · subst hb
      rw [if_pos rfl]
      refine .bind .byte_second ?_
      cases t with
      | nil => exact .bind .skip_one agrees_escaped
      | cons c u =>
        rw [CharClass.readChar, List.headD_cons]
        by_cases hc : c = 0x62
        · rw [if_pos hc, if_pos hc]
          exact .bind .skip_two (.pure _)
        rw [if_neg hc, if_neg hc]
        by_cases hdigit : (0x31 ≤ c && c ≤ 0x39) = true
        · rw [if_pos hdigit, if_pos hdigit]
          exact .fail _
        rw [if_neg hdigit, if_neg hdigit]
        exact .bind .skip_one agrees_escaped
    · have hread : CharClass.readChar (b :: t) = .ok (Utf8.decode b t) := by
        unfold CharClass.readChar
        split
        · next heq => cases heq
        · next heq =>
          cases heq
          exact absurd rfl hb
        · next heq =>
          cases heq
          rfl
      rw [if_neg hb, hread]
      exact agrees_decode b t

theorem agrees_rangeDash :
    Agrees rangeDash s (.ok ((CharClass.rangeEnd? s).isSome, s)) := by
  cases s with
  | nil => exact .bind .byte_end (.pure _)
  | cons b t =>
    refine .of_text fun hs ↦ .bind .byte_first ?_
    by_cases hb : b = 0x2d
    · subst hb
      rw [if_pos rfl]
      refine .bind .byte_second ?_
      cases t with
      | nil => exact .pure _
      | cons c u =>
        have hc : c ≠ 0 := fun heq ↦ hs (heq ▸ List.mem_cons_of_mem _ List.mem_cons_self)
        rw [CharClass.rangeEnd?, List.headD_cons]
        by_cases hend : c = 0x5d
        · rw [if_pos hend, hend]
          exact .pure _
        · rw [if_neg hend]
          simp only [hend, hc, ne_eq, not_false_eq_true, decide_true, Bool.and_self]
          exact .pure _
    · have hnone : CharClass.rangeEnd? (b :: t) = none := by
        unfold CharClass.rangeEnd?
        split
        · next heq =>
          cases heq
          exact absurd rfl hb
        · rfl
      rw [if_neg hb, hnone]
      exact .pure _

theorem rangeEnd?_eq_tail (h : CharClass.rangeEnd? s = some t) : ∃ b, s = b :: t ∧ t ≠ [] := by
  unfold CharClass.rangeEnd? at h
  split at h
  · split at h
    · cases h
    · cases h
      exact ⟨_, rfl, nofun⟩
  · cases h

theorem agrees_rangeItem (hne : s ≠ []) : Agrees rangeItem s (CharClass.readRange s) := by
  rw [CharClass.readRange]
  cases hread : CharClass.readChar s with
  | error e => exact .bind_error ((agrees_classChar hne).of_eq hread)
  | ok p =>
    obtain ⟨lo, t⟩ := p
    refine .bind ((agrees_classChar hne).of_eq hread) (.bind agrees_rangeDash ?_)
    dsimp only
    cases hdash : CharClass.rangeEnd? t with
    | none => exact .pure _
    | some u =>
      obtain ⟨b, rfl, hne'⟩ := rangeEnd?_eq_tail hdash
      refine .bind .skip_one (.bind agrees_classEscape? ?_)
      dsimp only
      cases ClassEscape.read? u with
      | some e => exact .fail _
      | none =>
        rw [Option.isSome_none, if_neg Bool.false_ne_true]
        cases hread' : CharClass.readChar u with
        | error e => exact .bind_error ((agrees_classChar hne').of_eq hread')
        | ok p =>
          obtain ⟨hi, v⟩ := p
          refine .bind ((agrees_classChar hne').of_eq hread') ?_
          dsimp only
          by_cases horder : hi < lo
          · rw [if_pos horder, if_pos horder]
            exact .fail _
          · rw [if_neg horder, if_neg horder]
            exact .pure _

theorem agrees_classItem (hne : s ≠ []) : Agrees classItem s (CharClass.readItem s) := by
  refine .bind agrees_classEscape? ?_
  rw [CharClass.readItem]
  cases hread : ClassEscape.read? s with
  | none => exact agrees_rangeItem hne
  | some p =>
    exact .bind (agrees_skip_classEscape hread) (.pure _)

theorem agrees_classRound_item (hne : s ≠ []) (hend : ∀ rest, s ≠ 0x5d :: rest) :
    Agrees classRound s ((CharClass.readItem s).map fun p ↦ (some p.1, p.2)) := by
  cases s with
  | nil => exact absurd rfl hne
  | cons b t =>
    refine .of_text fun hs ↦ .bind .byte_first ?_
    have hb : b ≠ 0 := fun heq ↦ hs (heq ▸ List.mem_cons_self)
    rw [if_neg hb, if_neg fun heq ↦ hend t (congrArg (· :: t) heq)]
    exact ((agrees_classItem hne).moving fun _ _ h ↦ (CharClass.readItem_suffix h).2).map some

/-! Rounds are put together. -/

theorem Agrees.classItems_error (h : Agrees classRound s (.error e)) :
    Agrees classItems s (.error e) := by
  intro hs
  obtain ⟨hrun, hinside⟩ := h hs
  exact ⟨fun junk ↦ by rw [classItems, hrun junk]; rfl, hinside⟩

theorem Agrees.classItems_done (h : Agrees classRound s (.ok (none, t))) :
    Agrees classItems s (.ok ([], t)) := by
  intro hs
  obtain ⟨hrun, hinside⟩ := h hs
  exact ⟨fun junk ↦ by rw [classItems, hrun junk]; rfl, hinside⟩

theorem Agrees.classItems_more {item : ClassItem}
    {y : Except ReadError (List ClassItem × Bytes)} (h : Agrees classRound s (.ok (some item, t)))
    (hlt : t.length < s.length) (hrest : Agrees classItems t y) :
    Agrees classItems s (y.map fun p ↦ (item :: p.1, p.2)) := by
  intro hs
  obtain ⟨hrun, hts⟩ := h hs
  obtain ⟨hrun', hinside⟩ := hrest (hts.not_mem hs)
  refine ⟨fun junk ↦ ?_, ?_⟩
  · rw [classItems, hrun junk]
    dsimp only [extend]
    rw [if_pos (length_append_lt hlt _), hrun' junk]
    cases y <;> rfl
  · have hinside := hinside.mono hts
    cases y <;> exact hinside

/-- **Every round of reading a class moves on**, and no round is stuck. -/
theorem agrees_classItems : Agrees classItems s (CharClass.readItems s) := by
  fun_induction CharClass.readItems s with
  | case1 => exact .classItems_error (.bind .byte_end (.fail _))
  | case2 t =>
    refine .classItems_done (.bind .byte_first ?_)
    exact .bind .skip_one (.pure _)
  | case3 s hne hend e hitem =>
    have hround := agrees_classRound_item hne hend
    rw [hitem] at hround
    exact .classItems_error hround
  | case4 s hne hend item t hitem e hitems ih =>
    have hround := agrees_classRound_item hne hend
    rw [hitem] at hround
    exact .classItems_more hround (CharClass.readItem_suffix hitem).2 (ih.of_eq hitems)
  | case5 s hne hend item t hitem items' t' hitems ih =>
    have hround := agrees_classRound_item hne hend
    rw [hitem] at hround
    exact .classItems_more hround (CharClass.readItem_suffix hitem).2 (ih.of_eq hitems)

theorem agrees_charClass : Agrees charClass s (CharClass.read s) := by
  have hbody : ∀ {negated : Bool} {body : Bytes},
      Agrees (do return ⟨negated, ← classItems⟩) body
        ((CharClass.readItems body).map fun p ↦ ((⟨negated, p.1⟩ : CharClass), p.2)) :=
    agrees_classItems.map _
  cases s with
  | nil =>
    rw [CharClass.read_of_head_ne (s := []) (Option.some_ne_none _).symm]
    exact .bind .byte_end hbody
  | cons b t =>
    refine .bind .byte_first ?_
    by_cases hb : b = 0x5e
    · subst hb
      rw [if_pos rfl, CharClass.read_caret]
      exact .bind .skip_one hbody
    · rw [if_neg hb, CharClass.read_of_head_ne (s := b :: t) fun heq ↦ hb (Option.some.inj heq)]
      exact hbody

/-! ## Tokens -/

theorem agrees_token (hne : s ≠ []) : ∃ x : Except ReadError (Token × Bytes),
    Token.read s = x.map some ∧ Agrees token s x := by
  cases s with
  | nil => exact absurd rfl hne
  | cons b t =>
    by_cases hb : b = 0x5c
    · subst hb
      refine ⟨Token.readEscaped t, ?_, .bind .byte_first ?_⟩
      · rw [Token.read, if_pos rfl]
        cases Token.readEscaped t <;> rfl
      · rw [if_pos rfl]
        refine .bind agrees_classEscape? ?_
        rw [Token.readEscaped]
        cases hread : ClassEscape.read? (0x5c :: t) with
        | some p => exact .bind (agrees_skip_classEscape hread) (.pure _)
        | none =>
          refine .bind .byte_second ?_
          -- the zero byte behind the text passes neither test
          have hany : ∀ p : UInt8 → Bool, p 0 = false → t.head?.any p = p (t.headD 0) := by
            intro p hp
            cases t with
            | nil => exact hp.symm
            | cons c u => rfl
          dsimp only
          rw [hany _ rfl, hany _ rfl]
          by_cases hword : (t.headD 0 = 0x62 || t.headD 0 = 0x42) = true
          · rw [if_pos hword, if_pos hword]
            exact .fail _
          rw [if_neg hword, if_neg hword]
          by_cases hdigit : (0x31 ≤ t.headD 0 && t.headD 0 ≤ 0x39) = true
          · rw [if_pos hdigit, if_pos hdigit]
            exact .fail _
          rw [if_neg hdigit, if_neg hdigit]
          refine .bind .skip_one ?_
          cases hread' : Escape.read t with
          | error e => exact .bind_error (agrees_escaped.of_eq hread')
          | ok p => exact .bind (agrees_escaped.of_eq hread') (.pure _)
    · refine ⟨.ok (.ofCodePoint (Utf8.decode b t).1, (Utf8.decode b t).2), ?_, .bind .byte_first ?_⟩
      · rw [Token.read, if_neg hb]
        rfl
      · rw [if_neg hb]
        exact .bind (agrees_decode b t) (.pure _)

/-- What comes to nothing leaves the text as it is. -/
def next (s : Bytes) : Except ReadError (Option (α × Bytes)) → Except ReadError (Option α × Bytes)
  | .error e => .error e
  | .ok none => .ok (none, s)
  | .ok (some (a, rest)) => .ok (some a, rest)

/-- **Every token moves on**, and in front of the end there is none. -/
theorem agrees_advance {found : Except ReadError (Option (Token × Bytes))}
    (hfound : Token.read s = found) : Agrees advance s (next s found) := by
  subst hfound
  cases s with
  | nil => exact .bind .byte_end (.pure _)
  | cons b t =>
    refine .of_text fun hs ↦ .bind .byte_first ?_
    have hb : b ≠ 0 := fun heq ↦ hs (heq ▸ List.mem_cons_self)
    obtain ⟨x, hread, htoken⟩ := agrees_token (List.cons_ne_nil b t)
    have hmoves := htoken.moving fun token rest hx ↦ by
      rw [hx] at hread
      exact (Token.read_suffix hread).2
    rw [if_neg hb, hread]
    cases x with
    | error e => exact .bind_error hmoves
    | ok p => exact .bind hmoves (.pure _)

/-- What is only looked at stays where it is. -/
def look (s : Bytes) : Except ReadError (Option (α × Bytes)) → Except ReadError (Option α × Bytes)
  | .error e => .error e
  | .ok found => .ok (found.map Prod.fst, s)

theorem agrees_lookahead {found : Except ReadError (Option (Token × Bytes))}
    (hfound : Token.read s = found) : Agrees lookahead s (look s found) := by
  intro hs
  obtain ⟨hrun, hinside⟩ := agrees_advance hfound hs
  cases found with
  | error e => exact ⟨fun junk ↦ by rw [lookahead, hrun junk]; rfl, hinside⟩
  | ok found =>
    refine ⟨fun junk ↦ ?_, List.suffix_refl s⟩
    rw [lookahead, hrun junk]
    cases found <;> rfl

/-! ## Quantifiers -/

theorem taken_digit (value : Nat) (s : Bytes) :
    taken digitStep value s = Quantifier.takeDigits value s :=
  taken_eq digitStep Quantifier.takeDigits (fun _ ↦ rfl)
    (fun value b s ↦ by rw [digitStep, Quantifier.takeDigits]; split <;> rfl) value s

theorem agrees_count? {found : Option (Nat × Bytes)} (hfound : Quantifier.readCount? s = found) :
    Agrees count? s (next s (.ok found)) := by
  subst hfound
  cases s with
  | nil => exact .bind .byte_end (.pure _)
  | cons b t =>
    refine .bind .byte_first ?_
    have hhead : (b :: t).head?.any isDigit = isDigit b := rfl
    rw [Quantifier.readCount?, hhead]
    by_cases hb : isDigit b = true
    · rw [if_pos hb, if_pos hb, ← taken_digit]
      exact .bind (.loop (fun _ ↦ rfl) _) (.pure _)
    · rw [if_neg hb, if_neg hb]
      exact .pure _

theorem agrees_greatest (least : Nat) :
    Agrees (greatest least) s (.ok (Quantifier.readMax least s)) := by
  cases s with
  | nil => exact .bind .byte_end (.pure _)
  | cons b t =>
    refine .bind .byte_first ?_
    by_cases hb : b = 0x2c
    · subst hb
      rw [if_pos rfl, Quantifier.readMax]
      refine .bind .skip_one ?_
      cases hread : Quantifier.readCount? t with
      | none => exact agrees_count? hread
      | some p => exact agrees_count? hread
    · have hread : Quantifier.readMax least (b :: t) = (some least, b :: t) := by
        unfold Quantifier.readMax
        split
        · next heq =>
          cases heq
          exact absurd rfl hb
        · rfl
      rw [if_neg hb, hread]
      exact .pure _

theorem agrees_counts : Agrees counts s ((Quantifier.readCounts s).map fun p ↦
    ((p.1, p.2.1), p.2.2)) := by
  rw [Quantifier.readCounts]
  cases hread : Quantifier.readCount? s with
  | none => exact .bind (agrees_count? hread) (.fail _)
  | some p =>
    obtain ⟨least, t⟩ := p
    have hleast := agrees_count? hread
    have hgreatest := agrees_greatest (s := t) least
    dsimp only
    generalize Quantifier.readMax least t = p at hgreatest ⊢
    obtain ⟨greatest, u⟩ := p
    refine .bind hleast (.bind hgreatest ?_)
    cases u with
    | nil => exact .bind .byte_end (.fail _)
    | cons b u =>
      refine .bind .byte_first ?_
      by_cases hb : b = 0x7d
      · subst hb
        rw [if_pos rfl]
        refine .bind .skip_one ?_
        change Agrees _ u (Except.map (fun p : Nat × Option Nat × Bytes ↦ ((p.1, p.2.1), p.2.2))
          (if greatest.any (· < least) then .error (.located .quantifierOrder u)
            else .ok (least, greatest, u)))
        by_cases horder : greatest.any (· < least) = true
        · rw [if_pos horder, if_pos horder]
          exact .fail _
        · rw [if_neg horder, if_neg horder]
          exact .pure _
      · rw [if_neg hb]
        split
        · next heq =>
          cases heq
          exact absurd rfl hb
        · next heq =>
          cases heq
          exact .fail _

theorem agrees_complete (make : Bool → Quantifier) :
    Agrees (complete make) s (Quantifier.complete make s) := by
  rw [Quantifier.complete, Quantifier.readLazy]
  cases hread : Token.read s with
  | error e => exact .bind_error (agrees_lookahead hread)
  | ok found =>
    refine .bind (agrees_lookahead hread) ?_
    cases found with
    | none => exact .pure _
    | some p =>
      obtain ⟨token, t⟩ := p
      cases token with
      | question =>
        refine .bind (agrees_advance hread) ?_
        dsimp only
        cases hread' : Token.read t with
        | error e => exact .bind_error (agrees_lookahead hread')
        | ok _ => exact .bind (agrees_lookahead hread') (.pure _)
      | _ => exact .pure _

theorem agrees_quantifier : Agrees quantifier s (Quantifier.read s) := by
  rw [Quantifier.read]
  cases hread : Token.read s with
  | error e => exact .bind_error (agrees_lookahead hread)
  | ok found =>
    refine .bind (agrees_lookahead hread) ?_
    have hadvance := agrees_advance hread
    cases found with
    | none => exact .pure _
    | some p =>
      obtain ⟨token, t⟩ := p
      cases token with
      | star => exact .bind hadvance (agrees_complete _)
      | plus => exact .bind hadvance (agrees_complete _)
      | question => exact .bind hadvance (agrees_complete _)
      | brace =>
        refine .bind hadvance ?_
        have hcounts := agrees_counts (s := t)
        dsimp only
        cases hread' : Quantifier.readCounts t with
        | error e =>
          rw [hread'] at hcounts
          exact .bind_error hcounts
        | ok p =>
          rw [hread'] at hcounts
          exact .bind hcounts (agrees_complete _)
      | _ => exact .pure _

/-! ## Parts -/

theorem groupKind_read_unsupported (hplain : ∀ u, t ≠ 0x3a :: u)
    (hlookBehind : ∀ u, t ≠ 0x3c :: 0x3d :: u) :
    GroupKind.read (0x3f :: t) = .error (.located .unsupportedGroup (0x3f :: t)) := by
  unfold GroupKind.read
  split
  · next heq =>
    cases heq
    exact absurd rfl (hplain _)
  · next heq =>
    cases heq
    exact absurd rfl (hlookBehind _)
  · next heq =>
    cases heq
    rfl
  · next hquestion => exact absurd rfl (hquestion t)

theorem agrees_groupKind : Agrees groupKind s (GroupKind.read s) := by
  cases s with
  | nil => exact .bind .byte_end (.pure _)
  | cons b t =>
    refine .bind .byte_first ?_
    by_cases hb : b = 0x3f
    · subst hb
      rw [if_pos rfl]
      refine .bind .byte_second ?_
      cases t with
      | nil => exact .fail _
      | cons c u =>
        rw [List.headD_cons]
        by_cases hplain : c = 0x3a
        · subst hplain
          rw [if_pos rfl]
          exact .bind .skip_two (.pure _)
        rw [if_neg hplain]
        by_cases hc : c = 0x3c
        · subst hc
          rw [if_pos rfl]
          refine .bind .byte_third ?_
          cases u with
          | nil => exact .fail _
          | cons d v =>
            rw [List.headD_cons]
            by_cases hd : d = 0x3d
            · subst hd
              rw [if_pos rfl]
              exact .bind (.skip (Nat.le_add_left 3 _)) (.pure _)
            · have hread := groupKind_read_unsupported (t := 0x3c :: d :: v)
                (fun _ heq ↦ hplain (List.cons.inj heq).1)
                (fun _ heq ↦ hd (List.cons.inj (List.cons.inj heq).2).1)
              rw [if_neg hd, hread]
              exact .fail _
        · have hread := groupKind_read_unsupported (t := c :: u)
            (fun _ heq ↦ hplain (List.cons.inj heq).1) (fun _ heq ↦ hc (List.cons.inj heq).1)
          rw [if_neg hc, hread]
          exact .fail _
    · have hread : GroupKind.read (b :: t) = .ok (.capture, b :: t) := by
        unfold GroupKind.read
        split
        · next heq =>
          cases heq
          exact absurd rfl hb
        · next heq =>
          cases heq
          exact absurd rfl hb
        · next heq =>
          cases heq
          exact absurd rfl hb
        · rfl
      rw [if_neg hb, hread]
      exact .pure _

theorem agrees_partOfToken (token : Token) :
    Agrees (partOfToken token) s (Part.ofToken token s) := by
  cases token with
  | openGroup =>
    rw [Part.ofToken]
    cases hread : GroupKind.read s with
    | error e => exact .bind_error (agrees_groupKind.of_eq hread)
    | ok p => exact .bind (agrees_groupKind.of_eq hread) (.pure _)
  | openClass =>
    rw [Part.ofToken]
    cases hread : CharClass.read s with
    | error e => exact .bind_error (agrees_charClass.of_eq hread)
    | ok p => exact .bind (agrees_charClass.of_eq hread) (.pure _)
  | star => exact .fail _
  | plus => exact .fail _
  | question => exact .fail _
  | brace => exact .fail _
  | _ => exact .pure _

theorem agrees_part {found : Except ReadError (Option (Part × Bytes))}
    (hfound : Part.read s = found) : Agrees part s (next s found) := by
  rw [← hfound, Part.read]
  cases hread : Token.read s with
  | error e => exact .bind_error (agrees_advance hread)
  | ok found =>
    have hadvance := agrees_advance hread
    cases found with
    | none => exact .bind hadvance (.pure _)
    | some p =>
      obtain ⟨token, t⟩ := p
      refine .bind hadvance ?_
      dsimp only
      cases hread' : Part.ofToken token t with
      | error e => exact .bind_error ((agrees_partOfToken token).of_eq hread')
      | ok p => exact .bind ((agrees_partOfToken token).of_eq hread') (.pure _)

/-! ## Moving on -/

theorem movesIn_advance (hs : 0 ∉ s) (hne : s ≠ []) : MovesIn advance s := by
  refine (agrees_advance rfl).movesIn hs fun found rest heq ↦ ?_
  cases hread : Token.read s with
  | error e =>
    rw [hread] at heq
    cases heq
  | ok p =>
    rw [hread] at heq
    cases p with
    | none => exact absurd (Grammar.eq_nil_of_read_token hread) hne
    | some p =>
      cases heq
      exact (Token.read_suffix hread).2

theorem movesIn_classRound (hs : 0 ∉ s) : MovesIn classRound s := by
  by_cases hend : ∃ t, s = 0x5d :: t
  · obtain ⟨t, rfl⟩ := hend
    have hround : Agrees classRound (0x5d :: t) (.ok (none, t)) :=
      .bind .byte_first (.bind .skip_one (.pure _))
    refine hround.movesIn hs fun _ _ heq ↦ ?_
    cases heq
    exact Nat.lt_succ_self _
  · by_cases hne : s = []
    · subst hne
      have hround : Agrees classRound [] (.error (.located .unterminatedClass [])) :=
        .bind .byte_end (.fail _)
      exact hround.movesIn hs nofun
    · refine (agrees_classRound_item hne fun t heq ↦ hend ⟨t, heq⟩).movesIn hs fun _ _ heq ↦ ?_
      cases hread : CharClass.readItem s with
      | error e =>
        rw [hread] at heq
        cases heq
      | ok p =>
        rw [hread] at heq
        cases heq
        exact (CharClass.readItem_suffix hread).2

end Cursor

end PatternAutomata
