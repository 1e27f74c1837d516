import PatternAutomata.Proofs.Pattern.Grammar

/-!
# Readers and the grammar

What is read of a pattern at one time is what the grammar says: a token, a class, a quantifier. The
grammar may let an atom go without the quantifier behind it, which reading never does. So a reader
finds what the grammar derives only where it goes on with something that can be read and is no
quantifier.
-/

namespace PatternAutomata

namespace Grammar

variable {s t rest : Bytes} {c : CodePoint}

/-! ## Class escapes -/

theorem mem_classLetters {b : UInt8} :
    b ∈ classLetters ↔ (ClassEscape.ofLetter? b).isSome = true := by
  unfold classLetters ClassEscape.ofLetter?
  repeat' split
  all_goals simp_all

theorem ofLetter?_eq_some_iff {b : UInt8} {e : ClassEscape} :
    ClassEscape.ofLetter? b = some e ↔ b = letter e := by
  constructor
  · intro h
    unfold ClassEscape.ofLetter? at h
    repeat' split at h
    all_goals cases h <;> assumption
  · rintro rfl
    obtain ⟨kind, negated⟩ := e
    cases kind <;> cases negated <;> rfl

theorem letter_mem (e : ClassEscape) : letter e ∈ classLetters :=
  mem_classLetters.2 (by rw [ofLetter?_eq_some_iff.2 rfl]; rfl)

theorem read?_eq_some_iff {s rest : Bytes} {e : ClassEscape} :
    ClassEscape.read? s = some (e, rest) ↔ s = 0x5c :: letter e :: rest := by
  constructor
  · intro h
    unfold ClassEscape.read? at h
    split at h
    · next b t =>
      obtain ⟨e', hletter, heq⟩ := Option.map_eq_some_iff.1 h
      cases heq
      rw [ofLetter?_eq_some_iff.1 hletter]
    · cases h
  · rintro rfl
    rw [ClassEscape.read?, ofLetter?_eq_some_iff.2 rfl]
    rfl

theorem read?_classEscape {s rest : Bytes} :
    (∃ e, ClassEscape.read? s = some (e, rest)) ↔ ∃ b ∈ classLetters, s = 0x5c :: b :: rest := by
  constructor
  · rintro ⟨e, he⟩
    exact ⟨letter e, letter_mem e, read?_eq_some_iff.1 he⟩
  · rintro ⟨b, hb, rfl⟩
    obtain ⟨e, he⟩ := Option.isSome_iff_exists.1 (mem_classLetters.1 hb)
    exact ⟨e, read?_eq_some_iff.2 (by rw [ofLetter?_eq_some_iff.1 he])⟩

theorem read?_escape_eq_none {s : Bytes} :
    ClassEscape.read? (0x5c :: s) = none ↔ ∀ b, s.head? = some b → b ∉ classLetters := by
  cases s with
  | nil => exact iff_of_true rfl nofun
  | cons b t =>
    rw [ClassEscape.read?, Option.map_eq_none_iff]
    simp [mem_classLetters]

/-! ## Characters of classes -/

theorem isReference_iff {b : UInt8} : IsReference b ↔ (0x31 ≤ b && b ≤ 0x39) = true := by
  rw [IsReference, Bool.and_eq_true, decide_eq_true_eq, decide_eq_true_eq]

theorem readChar_iff (hend : s.head? ≠ some 0x5d) (hescape : ClassEscape.read? s = none) :
    CharClass.readChar s = .ok (c, rest) ↔ ClassChar s c rest := by
  constructor
  · intro h
    unfold CharClass.readChar at h
    split at h
    · cases h
    · next t =>
      have hletters := read?_escape_eq_none.1 hescape
      split at h
      · exact .escaped nofun h
      · next b after =>
        split at h
        · next hb =>
          cases h
          rw [hb]
          exact .backspace
        · next hb =>
          split at h
          · cases h
          · next hdigit =>
            refine .escaped (fun b' hb' ↦ ?_) h
            cases hb'
            exact ⟨hletters b rfl, hb, fun href ↦ hdigit (isReference_iff.1 href)⟩
    · next b t hb =>
      exact .plain hb (fun heq ↦ hend (by rw [heq]; rfl)) (Except.ok.inj h)
  · intro h
    cases h with
    | @plain b _ t _ hb _ hdecode =>
      unfold CharClass.readChar
      split
      · next heq => cases heq
      · next heq =>
        cases heq
        exact absurd rfl hb
      · next heq =>
        cases heq
        rw [hdecode]
        rfl
    | backspace => rfl
    | @escaped _ t _ hletters hread =>
      cases t with
      | nil => exact hread
      | cons b after =>
        obtain ⟨-, hb, href⟩ := hletters b rfl
        rw [CharClass.readChar, if_neg hb, if_neg fun hdigit ↦ href (isReference_iff.2 hdigit)]
        exact hread

/-! ## Items -/

theorem rangeEnd?_eq_some_iff : CharClass.rangeEnd? s = some rest ↔ Dash s rest := by
  constructor
  · intro h
    unfold CharClass.rangeEnd? at h
    split at h
    · next b t =>
      split at h
      · cases h
      · next hb =>
        cases h
        exact ⟨rfl, b, t, rfl, hb⟩
    · cases h
  · rintro ⟨rfl, b, t, rfl, hb⟩
    rw [CharClass.rangeEnd?, if_neg hb]

theorem rangeEnd?_eq_none_iff : CharClass.rangeEnd? s = none ↔ ∀ u, ¬Dash s u := by
  rw [Option.eq_none_iff_forall_not_mem]
  exact forall_congr' fun u ↦ not_congr rangeEnd?_eq_some_iff

theorem Dash.head?_ne (h : Dash s rest) : rest.head? ≠ some 0x5d := by
  obtain ⟨-, b, t, rfl, hb⟩ := h
  exact fun heq ↦ hb (Option.some.inj heq)

theorem ClassChar.start (h : ClassChar s c rest) :
    s ≠ [] ∧ s.head? ≠ some 0x5d ∧ ClassEscape.read? s = none := by
  cases h with
  | @plain b _ t _ hb hend _ =>
    refine ⟨nofun, fun heq ↦ hend (Option.some.inj heq), ?_⟩
    unfold ClassEscape.read?
    split
    · next heq =>
      cases heq
      exact absurd rfl hb
    · rfl
  | backspace => exact ⟨nofun, nofun, rfl⟩
  | escaped hletters _ => exact ⟨nofun, nofun, read?_escape_eq_none.2 fun b hb ↦ (hletters b hb).1⟩

theorem spells_of_readRange {item : ClassItem} {items : List ClassItem}
    (hend : s.head? ≠ some 0x5d) (hescape : ClassEscape.read? s = none)
    (hread : CharClass.readRange s = .ok (item, t)) (hitems : Spells t items rest) :
    Spells s (item :: items) rest := by
  unfold CharClass.readRange at hread
  split at hread
  · cases hread
  · next lo u hlo =>
    have hlo := (readChar_iff hend hescape).1 hlo
    split at hread
    · next hdash =>
      cases hread
      exact .char hlo (rangeEnd?_eq_none_iff.1 hdash) hitems
    · next v hdash =>
      have hdash := rangeEnd?_eq_some_iff.1 hdash
      split at hread
      · cases hread
      · next hnone =>
        split at hread
        · cases hread
        · next hi w hhi =>
          have hhi := (readChar_iff hdash.head?_ne (by simpa using hnone)).1 hhi
          split at hread
          · cases hread
          · next hle =>
            cases hread
            exact .range hlo hdash hhi (UInt32.not_lt.1 hle) hitems

theorem readRange_of_char (h : ClassChar s c t) (hdash : ∀ u, ¬Dash t u) :
    CharClass.readRange s = .ok (.range c c, t) := by
  obtain ⟨-, hend, hescape⟩ := h.start
  rw [CharClass.readRange, (readChar_iff hend hescape).2 h]
  dsimp only
  rw [rangeEnd?_eq_none_iff.2 hdash]
  rfl

theorem readRange_of_range {lo hi : CodePoint} {u v : Bytes} (hlo : ClassChar s lo t)
    (hdash : Dash t u) (hhi : ClassChar u hi v) (hle : lo ≤ hi) :
    CharClass.readRange s = .ok (.range lo hi, v) := by
  obtain ⟨-, hend, hescape⟩ := hlo.start
  obtain ⟨-, hend', hescape'⟩ := hhi.start
  rw [CharClass.readRange, (readChar_iff hend hescape).2 hlo]
  dsimp only
  rw [rangeEnd?_eq_some_iff.2 hdash]
  dsimp only
  rw [hescape', if_neg (by simp), (readChar_iff hend' hescape').2 hhi]
  dsimp only
  rw [if_neg (UInt32.not_lt.2 hle)]
  rfl

theorem readItems_of_readItem {item : ClassItem} {items : List ClassItem} (hne : s ≠ [])
    (hend : s.head? ≠ some 0x5d) (hitem : CharClass.readItem s = .ok (item, t))
    (hitems : CharClass.readItems t = .ok (items, rest)) :
    CharClass.readItems s = .ok (item :: items, rest) := by
  rw [CharClass.readItems.eq_def]
  split
  · exact absurd rfl hne
  · exact absurd rfl hend
  · split
    · next heq => cases heq.symm.trans hitem
    · next heq =>
      cases heq.symm.trans hitem
      rw [hitems]
      rfl

theorem readItems_of_char {items : List ClassItem} (h : ClassChar s c t) (hdash : ∀ u, ¬Dash t u)
    (hitems : CharClass.readItems t = .ok (items, rest)) :
    CharClass.readItems s = .ok (.range c c :: items, rest) := by
  obtain ⟨hne, hend, hescape⟩ := h.start
  refine readItems_of_readItem hne hend ?_ hitems
  rw [CharClass.readItem, hescape, readRange_of_char h hdash]

theorem readItems_of_range {lo hi : CodePoint} {u v : Bytes} {items : List ClassItem}
    (hlo : ClassChar s lo t) (hdash : Dash t u) (hhi : ClassChar u hi v) (hle : lo ≤ hi)
    (hitems : CharClass.readItems v = .ok (items, rest)) :
    CharClass.readItems s = .ok (.range lo hi :: items, rest) := by
  obtain ⟨hne, hend, hescape⟩ := hlo.start
  refine readItems_of_readItem hne hend ?_ hitems
  rw [CharClass.readItem, hescape, readRange_of_range hlo hdash hhi hle]

/-- **Items are read as they are spelled.** -/
theorem readItems_eq_iff {items : List ClassItem} :
    CharClass.readItems s = .ok (items, rest) ↔ Spells s items rest := by
  constructor
  · intro h
    fun_induction CharClass.readItems s generalizing items rest with
    | case1 => cases h
    | case2 t =>
      cases h
      exact .done
    | case3 => cases h
    | case4 => cases h
    | case5 s hne hend item t hitem items' t' hitems ih =>
      cases h
      have ih := ih hitems
      unfold CharClass.readItem at hitem
      split at hitem
      · next he =>
        cases hitem
        obtain rfl := read?_eq_some_iff.1 he
        exact .escape ih
      · next hescape =>
        refine spells_of_readRange (fun heq ↦ ?_) hescape hitem ih
        obtain ⟨t, rfl⟩ := List.head?_eq_some_iff.1 heq
        exact hend t rfl
  · intro h
    induction h with
    | done =>
      rw [CharClass.readItems]
      rfl
    | escape _ ih =>
      exact readItems_of_readItem nofun nofun
        (by rw [CharClass.readItem, read?_eq_some_iff.2 rfl]; rfl) ih
    | char hchar hdash _ ih => exact readItems_of_char hchar hdash ih
    | range hlo hdash hhi hle _ ih => exact readItems_of_range hlo hdash hhi hle ih

theorem items_iff_spells : Items s rest ↔ ∃ items, Spells s items rest := by
  constructor
  · intro h
    induction h with
    | done => exact ⟨[], .done⟩
    | escape hb _ ih =>
      obtain ⟨items, hitems⟩ := ih
      obtain ⟨e, he⟩ := Option.isSome_iff_exists.1 (mem_classLetters.1 hb)
      rw [ofLetter?_eq_some_iff.1 he]
      exact ⟨_, .escape hitems⟩
    | char hchar hdash _ ih =>
      obtain ⟨items, hitems⟩ := ih
      exact ⟨_, .char hchar hdash hitems⟩
    | range hlo hdash hhi hle _ ih =>
      obtain ⟨items, hitems⟩ := ih
      exact ⟨_, .range hlo hdash hhi hle hitems⟩
  · rintro ⟨items, h⟩
    induction h with
    | done => exact .done
    | escape _ ih => exact .escape (letter_mem _) ih
    | char hchar hdash _ ih => exact .char hchar hdash ih
    | range hlo hdash hhi hle _ ih => exact .range hlo hdash hhi hle ih

/-- **Classes are read as they are spelled.** -/
theorem read_class_eq_iff {c : CharClass} :
    CharClass.read s = .ok (c, rest) ↔ SpellsClass s c rest := by
  constructor
  · intro h
    unfold CharClass.read at h
    split at h
    next negated body hbody =>
    split at h
    · cases h
    · next items t hitems =>
      cases h
      have hitems := readItems_eq_iff.1 hitems
      split at hbody
      · cases hbody
        exact .negated hitems
      · next hne =>
        cases hbody
        refine .listed (fun heq ↦ ?_) hitems
        obtain ⟨t, rfl⟩ := List.head?_eq_some_iff.1 heq
        exact hne t rfl
  · intro h
    cases h with
    | negated hitems =>
      rw [CharClass.read_caret, readItems_eq_iff.2 hitems]
      rfl
    | listed hne hitems =>
      rw [CharClass.read_of_head_ne hne, readItems_eq_iff.2 hitems]
      rfl

theorem class_iff_spells : Class s rest ↔ ∃ c, SpellsClass s c rest := by
  constructor
  · intro h
    cases h with
    | negated hitems =>
      obtain ⟨items, hitems⟩ := items_iff_spells.1 hitems
      exact ⟨_, .negated hitems⟩
    | listed hne hitems =>
      obtain ⟨items, hitems⟩ := items_iff_spells.1 hitems
      exact ⟨_, .listed hne hitems⟩
  · rintro ⟨c, h⟩
    cases h with
    | negated hitems => exact .negated (items_iff_spells.2 ⟨_, hitems⟩)
    | listed hne hitems => exact .listed hne (items_iff_spells.2 ⟨_, hitems⟩)

theorem read_class_iff : (∃ c, CharClass.read s = .ok (c, rest)) ↔ Class s rest :=
  (exists_congr fun _ ↦ read_class_eq_iff).trans class_iff_spells.symm

/-! ## Tokens -/

/-- The sign that a token is, if it is one. -/
def sign? : Token → Option CodePoint
  | .dot => some 0x2e
  | .caret => some 0x5e
  | .dollar => some 0x24
  | .openGroup => some 0x28
  | .closeGroup => some 0x29
  | .openClass => some 0x5b
  | .bar => some 0x7c
  | .star => some 0x2a
  | .plus => some 0x2b
  | .question => some 0x3f
  | .brace => some 0x7b
  | .literal _ | .escape _ => none

theorem ofCodePoint_of_not_mem (hc : c ∉ signs) : Token.ofCodePoint c = .literal c := by
  simp only [signs, List.mem_cons, List.not_mem_nil, or_false, not_or] at hc
  simp only [Token.ofCodePoint, hc, if_false]

theorem sign?_ofCodePoint (c : CodePoint) :
    sign? (.ofCodePoint c) = if c ∈ signs then some c else none := by
  split
  · next hc =>
    simp only [signs, List.mem_cons, List.not_mem_nil, or_false] at hc
    rcases hc with rfl | rfl | rfl | rfl | rfl | rfl | rfl | rfl | rfl | rfl | rfl <;> rfl
  · next hc =>
    rw [ofCodePoint_of_not_mem hc]
    rfl

theorem ofCodePoint_of_sign? {token : Token} (h : sign? token = some c) :
    Token.ofCodePoint c = token := by
  cases token <;> cases h <;> rfl

theorem sign?_readEscaped {token : Token} (h : Token.readEscaped s = .ok (token, rest)) :
    sign? token = none := by
  unfold Token.readEscaped at h
  split at h
  · cases h
    rfl
  · split at h
    · cases h
    · split at h
      · cases h
      · split at h
        · cases h
        · cases h
          rfl

/-- **Signs are read as the grammar says.** -/
theorem read_iff_sign {token : Token} (h : sign? token = some c) :
    Token.read s = .ok (some (token, rest)) ↔ Sign c s rest := by
  constructor
  · intro hread
    unfold Token.read at hread
    split at hread
    · cases hread
    · next b t =>
      split at hread
      · split at hread
        · cases hread
        · next hescaped =>
          cases hread
          rw [sign?_readEscaped hescaped] at h
          cases h
      · next hb =>
        cases hread
        rw [sign?_ofCodePoint] at h
        split at h
        · cases h
          exact ⟨b, t, rfl, hb, rfl⟩
        · cases h
  · rintro ⟨b, t, rfl, hb, hdecode⟩
    rw [Token.read, if_neg hb, hdecode, ← ofCodePoint_of_sign? h]
    rfl

theorem eq_nil_of_read_token (h : Token.read s = .ok none) : s = [] := by
  unfold Token.read at h
  split at h
  · rfl
  · split at h
    · split at h <;> cases h
    · cases h

theorem literal_of_readEscaped (h : Token.readEscaped s = .ok (.literal c, rest)) :
    Literal (0x5c :: s) rest := by
  unfold Token.readEscaped at h
  split at h
  · cases h
  · next hletters =>
    have hletters := read?_escape_eq_none.1 hletters
    split at h
    · cases h
    · next hword =>
      split at h
      · cases h
      · next hdigit =>
        split at h
        · cases h
        · next hread =>
          cases h
          refine .escaped (fun b hb ↦ ?_) hread
          rw [hb] at hword hdigit
          simp only [Option.any_some, Bool.or_eq_true, decide_eq_true_eq, not_or] at hword
          refine ⟨hletters b hb, hword.1, hword.2, fun href ↦ hdigit ?_⟩
          rw [Option.any_some]
          exact isReference_iff.1 href

theorem readEscaped_of_read (hletters : ∀ b, s.head? = some b →
      b ∉ classLetters ∧ b ≠ 0x62 ∧ b ≠ 0x42 ∧ ¬IsReference b)
    (hread : Escape.read s = .ok (c, rest)) :
    Token.readEscaped s = .ok (.literal c, rest) := by
  have hnone : ClassEscape.read? (0x5c :: s) = none :=
    read?_escape_eq_none.2 fun b hb ↦ (hletters b hb).1
  have hword : s.head?.any (fun b ↦ b = 0x62 || b = 0x42) = false := by
    cases hb : s.head? with
    | none => rfl
    | some b =>
      obtain ⟨-, hsmall, hlarge, -⟩ := hletters b hb
      simp [hsmall, hlarge]
  have hdigit : s.head?.any (fun b ↦ 0x31 ≤ b && b ≤ 0x39) = false := by
    cases hb : s.head? with
    | none => rfl
    | some b =>
      obtain ⟨-, -, -, href⟩ := hletters b hb
      rw [isReference_iff, Bool.not_eq_true] at href
      exact href
  rw [Token.readEscaped, hnone, hword, hdigit, hread]
  rfl

theorem read?_of_readEscaped {e : ClassEscape} (h : Token.readEscaped s = .ok (.escape e, rest)) :
    ClassEscape.read? (0x5c :: s) = some (e, rest) := by
  unfold Token.readEscaped at h
  split at h
  · next hread =>
    cases h
    exact hread
  · split at h
    · cases h
    · split at h
      · cases h
      · split at h <;> cases h

theorem ofCodePoint_ne_escape {e : ClassEscape} : Token.ofCodePoint c ≠ .escape e := by
  intro heq
  have hsign := sign?_ofCodePoint c
  rw [heq] at hsign
  by_cases hc : c ∈ signs
  · rw [if_pos hc] at hsign
    cases hsign
  · rw [ofCodePoint_of_not_mem hc] at heq
    cases heq

theorem read_literal_iff :
    (∃ c, Token.read s = .ok (some (.literal c, rest))) ↔ Literal s rest := by
  constructor
  · rintro ⟨c, h⟩
    unfold Token.read at h
    split at h
    · cases h
    · next b t =>
      split at h
      · next hb =>
        subst hb
        split at h
        · cases h
        · next hescaped =>
          cases h
          exact literal_of_readEscaped hescaped
      · next hb =>
        split at h
        next c' rest' hdecode =>
        obtain ⟨htoken, rfl⟩ := Prod.mk.inj (Option.some.inj (Except.ok.inj h))
        have hsign := sign?_ofCodePoint c'
        rw [htoken] at hsign
        refine .plain ⟨b, t, rfl, hb, hdecode⟩ fun hmem ↦ ?_
        rw [if_pos hmem] at hsign
        cases hsign
  · intro h
    cases h with
    | @plain c _ _ hsign hc =>
      obtain ⟨b, t, rfl, hb, hdecode⟩ := hsign
      exact ⟨c, by rw [Token.read, if_neg hb, hdecode, ← ofCodePoint_of_not_mem hc]; rfl⟩
    | @escaped c t _ hletters hread =>
      exact ⟨c, by rw [Token.read, if_pos rfl, readEscaped_of_read hletters hread]; rfl⟩

theorem read_escape_iff : (∃ e, Token.read s = .ok (some (.escape e, rest))) ↔
    ∃ b ∈ classLetters, s = 0x5c :: b :: rest := by
  rw [← read?_classEscape]
  constructor
  · rintro ⟨e, h⟩
    unfold Token.read at h
    split at h
    · cases h
    · next b t =>
      split at h
      · next hb =>
        subst hb
        split at h
        · cases h
        · next hescaped =>
          cases h
          exact ⟨e, read?_of_readEscaped hescaped⟩
      · -- no character alone is a class escape
        obtain ⟨htoken, -⟩ := Prod.mk.inj (Option.some.inj (Except.ok.inj h))
        exact absurd htoken ofCodePoint_ne_escape
  · rintro ⟨e, h⟩
    obtain ⟨b, -, rfl⟩ := read?_classEscape.1 ⟨e, h⟩
    exact ⟨e, by rw [Token.read, if_pos rfl, Token.readEscaped, h]; rfl⟩

/-! ## Counts -/

/-- One more digit of a number that counts no further than the largest one. -/
def capDigit (n : Nat) (d : UInt8) : Nat := min (10 * n + digitValue d) Quantifier.maxCount

theorem exists_takeDigits (value : Nat) (s : Bytes) : ∃ digits : Bytes,
    (∀ d ∈ digits, isDigit d = true) ∧ s = digits ++ (Quantifier.takeDigits value s).2 ∧
      (Quantifier.takeDigits value s).1 = digits.foldl capDigit value := by
  fun_induction Quantifier.takeDigits value s with
  | case1 value b rest hb ih =>
    obtain ⟨digits, hdigits, hrest, hvalue⟩ := ih
    exact ⟨b :: digits, List.forall_mem_cons.2 ⟨hb, hdigits⟩, congrArg (b :: ·) hrest, hvalue⟩
  | case2 value b rest _ => exact ⟨[], List.forall_mem_nil _, rfl, rfl⟩
  | case3 => exact ⟨[], List.forall_mem_nil _, rfl, rfl⟩

theorem takeDigits_append {digits : Bytes} (hdigits : ∀ d ∈ digits, isDigit d = true)
    (hrest : rest.head?.any isDigit = false) (value : Nat) :
    Quantifier.takeDigits value (digits ++ rest) = (digits.foldl capDigit value, rest) := by
  induction digits generalizing value with
  | nil =>
    cases rest with
    | nil => rfl
    | cons b rest => exact if_neg (Bool.eq_false_iff.1 hrest)
  | cons d digits ih =>
    obtain ⟨hd, hdigits⟩ := List.forall_mem_cons.1 hdigits
    rw [List.cons_append, Quantifier.takeDigits, if_pos hd, ih hdigits]
    rfl

/-- It makes no difference whether a number is capped digit by digit or in the end. -/
theorem foldl_capDigit (digits : Bytes) (n : Nat) :
    digits.foldl capDigit (min n Quantifier.maxCount) =
      min (digits.foldl (fun n d ↦ 10 * n + digitValue d) n) Quantifier.maxCount := by
  induction digits generalizing n with
  | nil => rfl
  | cons d digits ih =>
    have hcap : capDigit (min n Quantifier.maxCount) d =
        min (10 * n + digitValue d) Quantifier.maxCount := by
      unfold capDigit
      omega
    rw [List.foldl_cons, List.foldl_cons, hcap, ih]

theorem foldl_capDigit_zero (digits : Bytes) :
    digits.foldl capDigit 0 = min (decimal digits) Quantifier.maxCount :=
  foldl_capDigit digits 0

theorem count_of_readCount? {n : Nat} (h : Quantifier.readCount? s = some (n, rest)) :
    Count s n rest := by
  unfold Quantifier.readCount? at h
  split at h
  · next hdigit =>
    cases s with
    | nil => cases hdigit
    | cons b s =>
      have hb : isDigit b = true := hdigit
      rw [Quantifier.takeDigits, if_pos hb] at h
      obtain ⟨digits, hdigits, hs, hvalue⟩ := exists_takeDigits (capDigit 0 b) s
      have h : Quantifier.takeDigits (capDigit 0 b) s = (n, rest) := Option.some.inj h
      rw [h] at hs hvalue
      exact ⟨b :: digits, List.cons_ne_nil _ _, List.forall_mem_cons.2 ⟨hb, hdigits⟩,
        congrArg (b :: ·) hs, hvalue.trans (foldl_capDigit_zero (b :: digits))⟩
  · cases h

theorem readCount?_of_count {n : Nat} (h : Count s n rest)
    (hrest : rest.head?.any isDigit = false) : Quantifier.readCount? s = some (n, rest) := by
  obtain ⟨digits, hne, hdigits, rfl, rfl⟩ := h
  obtain ⟨d, digits, rfl⟩ := List.exists_cons_of_ne_nil hne
  have hd : isDigit d = true := hdigits d List.mem_cons_self
  rw [Quantifier.readCount?, takeDigits_append hdigits hrest, foldl_capDigit_zero]
  exact if_pos hd

theorem readCounts_iff {least : Nat} {greatest : Option Nat} :
    Quantifier.readCounts s = .ok (least, greatest, rest) ↔ Counts s least greatest rest := by
  constructor
  · intro h
    unfold Quantifier.readCounts at h
    split at h
    · cases h
    · next n t hn =>
      have hn := count_of_readCount? hn
      split at h
      · next greatest' rest' hmax =>
        split at h
        · cases h
        · next horder =>
          cases h
          unfold Quantifier.readMax at hmax
          split at hmax
          · split at hmax
            · next hgreatest =>
              cases hmax
              exact .between hn (count_of_readCount? hgreatest) (by simpa using horder)
            · cases hmax
              exact .atLeast hn
          · cases hmax
            exact .exactly hn
      · cases h
  · intro h
    cases h with
    | exactly hcount =>
      rw [Quantifier.readCounts, readCount?_of_count hcount rfl]
      simp [Quantifier.readMax]
      rfl
    | atLeast hcount =>
      rw [Quantifier.readCounts, readCount?_of_count hcount rfl]
      rfl
    | between hleast hgreatest hle =>
      rw [Quantifier.readCounts, readCount?_of_count hleast rfl]
      simp only [Quantifier.readMax, readCount?_of_count hgreatest rfl]
      rw [if_neg (by simpa using hle)]
      rfl

/-! ## Quantifiers -/

theorem of_complete {make : Bool → Quantifier} {q : Quantifier}
    (h : Quantifier.complete make s = .ok (q, rest)) :
    (q = make false ∧ s = rest) ∨ (q = make true ∧ Sign 0x3f s rest) := by
  unfold Quantifier.complete at h
  split at h
  · cases h
  · next hlazy =>
    cases h
    unfold Quantifier.readLazy at hlazy
    split at hlazy
    · cases hlazy
    · next hread =>
      split at hlazy
      · cases hlazy
      · cases hlazy
        exact .inr ⟨rfl, (read_iff_sign rfl).1 hread⟩
    · cases hlazy
      exact .inl ⟨rfl, rfl⟩

theorem quantified_of_complete {make : Bool → Quantifier} {q : Quantifier}
    (hsign : QuantifierSign s make t) (h : Quantifier.complete make t = .ok (q, rest)) :
    Quantified s q rest := by
  rcases of_complete h with ⟨rfl, rfl⟩ | ⟨rfl, hlazy⟩
  · exact .greedy hsign
  · exact .reluctant hsign hlazy

theorem quantified_of_read {q : Quantifier} (h : Quantifier.read s = .ok (q, rest)) :
    Quantified s q rest := by
  unfold Quantifier.read at h
  split at h
  · cases h
  · next hread => exact quantified_of_complete (.star ((read_iff_sign rfl).1 hread)) h
  · next hread => exact quantified_of_complete (.plus ((read_iff_sign rfl).1 hread)) h
  · next hread => exact quantified_of_complete (.optional ((read_iff_sign rfl).1 hread)) h
  · next hread =>
    split at h
    · cases h
    · next hcounts =>
      exact quantified_of_complete
        (.counted ((read_iff_sign rfl).1 hread) (readCounts_iff.1 hcounts)) h
  · cases h
    exact .once

theorem QuantifierSign.read_eq {make : Bool → Quantifier} (h : QuantifierSign s make rest) :
    Quantifier.read s = Quantifier.complete make rest := by
  cases h with
  | star hsign =>
    have hread : Token.read s = .ok (some (.star, rest)) := (read_iff_sign rfl).2 hsign
    rw [Quantifier.read, hread]
  | plus hsign =>
    have hread : Token.read s = .ok (some (.plus, rest)) := (read_iff_sign rfl).2 hsign
    rw [Quantifier.read, hread]
  | optional hsign =>
    have hread : Token.read s = .ok (some (.question, rest)) := (read_iff_sign rfl).2 hsign
    rw [Quantifier.read, hread]
  | @counted _ _ _ t _ hsign hcounts =>
    have hread : Token.read s = .ok (some (.brace, t)) := (read_iff_sign rfl).2 hsign
    rw [Quantifier.read, hread]
    dsimp only
    rw [readCounts_iff.2 hcounts]

/-- A token that starts a quantifier. -/
def Repeats : Token → Prop
  | .star | .plus | .question | .brace => True
  | _ => False

theorem of_read_token {next : Option (Token × Bytes)} (h : Token.read s = .ok next)
    (hnext : ∀ token t, next = some (token, t) → ¬Repeats token) :
    Quantifier.read s = .ok (.once, s) ∧ Quantifier.readLazy s = .ok (false, s) := by
  rw [Quantifier.read, Quantifier.readLazy, h]
  cases next with
  | none => exact ⟨rfl, rfl⟩
  | some next =>
    obtain ⟨token, t⟩ := next
    have hnot := hnext token t rfl
    cases token <;> first | exact ⟨rfl, rfl⟩ | exact absurd trivial hnot

theorem exists_read_token {next : Option (Part × Bytes)} (h : Part.read s = .ok next) :
    ∃ token, Token.read s = .ok token ∧ ∀ sign t, token = some (sign, t) → ¬Repeats sign := by
  unfold Part.read at h
  split at h
  · cases h
  · next hread => exact ⟨none, hread, nofun⟩
  · next token rest hread =>
    refine ⟨_, hread, fun sign t heq hsign ↦ ?_⟩
    cases heq
    cases token <;> first | exact hsign | cases h

/-- Behind a question mark, the next token has to be readable. -/
theorem readLazy_question (hquestion : Sign 0x3f s rest) :
    Quantifier.readLazy s = (Token.read rest).map fun _ ↦ (true, rest) := by
  have hread : Token.read s = .ok (some (.question, rest)) := (read_iff_sign rfl).2 hquestion
  rw [Quantifier.readLazy, hread]
  dsimp only
  cases Token.read rest <;> rfl

/-- **Quantifiers are read whole if what follows them can be read and is no quantifier.** -/
theorem Quantified.read_eq_of_token {q : Quantifier} {next : Option (Token × Bytes)}
    (h : Quantified s q rest) (hrest : Token.read rest = .ok next)
    (hnext : ∀ token t, next = some (token, t) → ¬Repeats token) :
    Quantifier.read s = .ok (q, rest) := by
  obtain ⟨hread, hlazy⟩ := of_read_token hrest hnext
  cases h with
  | once => exact hread
  | greedy hsign =>
    rw [hsign.read_eq, Quantifier.complete, hlazy]
    rfl
  | reluctant hsign hquestion =>
    rw [hsign.read_eq, Quantifier.complete, readLazy_question hquestion, hrest]
    rfl

theorem Quantified.read_eq {q : Quantifier} {next : Option (Part × Bytes)}
    (h : Quantified s q rest) (hrest : Part.read rest = .ok next) :
    Quantifier.read s = .ok (q, rest) := by
  obtain ⟨token, htoken, hnot⟩ := exists_read_token hrest
  exact h.read_eq_of_token htoken hnot

theorem Quantified.read_eq_error {q : Quantifier} {e : ReadError} (h : Quantified s q rest)
    (hrest : Token.read rest = .error e) : Quantifier.read s = .error e := by
  cases h with
  | once =>
    rw [Quantifier.read, hrest]
    rfl
  | greedy hsign =>
    rw [hsign.read_eq, Quantifier.complete, Quantifier.readLazy, hrest]
    rfl
  | reluctant hsign hquestion =>
    rw [hsign.read_eq, Quantifier.complete, readLazy_question hquestion, hrest]
    rfl

/-! ## Parts -/

/-- What the grammar has where a part is read, which of a group is only its start. -/
inductive Starts : Part → Bytes → Bytes → Prop
  | atom {atom : Atom} {s rest : Bytes} : Single atom.isChars s rest → Starts (.atom atom) s rest
  | openGroup {kind : GroupKind} {s rest : Bytes} : Opens kind s rest →
      Starts (.openGroup kind) s rest
  | bar {s rest : Bytes} : Sign 0x7c s rest → Starts .bar s rest
  | closeGroup {s rest : Bytes} : Sign 0x29 s rest → Starts .closeGroup s rest

theorem opens_of_read {kind : GroupKind} (hsign : Sign 0x28 s t)
    (h : GroupKind.read t = .ok (kind, rest)) : Opens kind s rest := by
  unfold GroupKind.read at h
  split at h
  · cases h
    exact .plain hsign
  · cases h
    exact .lookBehind hsign
  · cases h
  · next hquestion =>
    cases h
    refine .capture hsign fun heq ↦ ?_
    obtain ⟨t, rfl⟩ := List.head?_eq_some_iff.1 heq
    exact hquestion t rfl

theorem Opens.exists_read {kind : GroupKind} (h : Opens kind s rest) :
    ∃ t, Sign 0x28 s t ∧ GroupKind.read t = .ok (kind, rest) := by
  cases h with
  | capture hsign hne =>
    refine ⟨rest, hsign, ?_⟩
    unfold GroupKind.read
    split
    all_goals first | rfl | exact absurd rfl hne
  | plain hsign => exact ⟨_, hsign, rfl⟩
  | lookBehind hsign => exact ⟨_, hsign, rfl⟩

theorem starts_of_ofToken {token : Token} {part : Part}
    (htoken : Token.read s = .ok (some (token, t))) (h : Part.ofToken token t = .ok (part, rest)) :
    Starts part s rest := by
  cases token with
  | literal c =>
    cases h
    exact .atom (.char (read_literal_iff.1 ⟨c, htoken⟩))
  | escape e =>
    cases h
    obtain ⟨b, hb, rfl⟩ := read_escape_iff.1 ⟨e, htoken⟩
    exact .atom (.escape hb)
  | dot =>
    cases h
    exact .atom (.any ((read_iff_sign rfl).1 htoken))
  | caret =>
    cases h
    exact .atom (.caret ((read_iff_sign rfl).1 htoken))
  | dollar =>
    cases h
    exact .atom (.dollar ((read_iff_sign rfl).1 htoken))
  | openGroup =>
    rw [Part.ofToken] at h
    split at h
    · cases h
    · next hkind =>
      cases h
      exact .openGroup (opens_of_read ((read_iff_sign rfl).1 htoken) hkind)
  | closeGroup =>
    cases h
    exact .closeGroup ((read_iff_sign rfl).1 htoken)
  | openClass =>
    rw [Part.ofToken] at h
    split at h
    · cases h
    · next hclass =>
      cases h
      exact .atom (.bracket ((read_iff_sign rfl).1 htoken) (read_class_iff.1 ⟨_, hclass⟩))
  | bar =>
    cases h
    exact .bar ((read_iff_sign rfl).1 htoken)
  | star => cases h
  | plus => cases h
  | question => cases h
  | brace => cases h

theorem eq_nil_of_read (h : Part.read s = .ok none) : s = [] := by
  unfold Part.read at h
  split at h
  · cases h
  · next htoken => exact eq_nil_of_read_token htoken
  · split at h <;> cases h

/-- **Parts are read as the grammar derives them.** -/
theorem starts_of_read {part : Part} (h : Part.read s = .ok (some (part, rest))) :
    Starts part s rest := by
  unfold Part.read at h
  split at h
  · cases h
  · cases h
  · next htoken =>
    split at h
    · cases h
    · next hpart =>
      cases h
      exact starts_of_ofToken htoken hpart

theorem read_of_ofToken {token : Token} {part : Part}
    (htoken : Token.read s = .ok (some (token, t)))
    (hpart : Part.ofToken token t = .ok (part, rest)) :
    Part.read s = .ok (some (part, rest)) := by
  rw [Part.read, htoken]
  dsimp only
  rw [hpart]
  rfl

theorem read_bar (h : Sign 0x7c s rest) : Part.read s = .ok (some (.bar, rest)) := by
  have htoken : Token.read s = .ok (some (.bar, rest)) := (read_iff_sign rfl).2 h
  exact read_of_ofToken htoken rfl

theorem read_closeGroup (h : Sign 0x29 s rest) : Part.read s = .ok (some (.closeGroup, rest)) := by
  have htoken : Token.read s = .ok (some (.closeGroup, rest)) := (read_iff_sign rfl).2 h
  exact read_of_ofToken htoken rfl

theorem Opens.read_eq {kind : GroupKind} (h : Opens kind s rest) :
    Part.read s = .ok (some (.openGroup kind, rest)) := by
  obtain ⟨t, hsign, hkind⟩ := h.exists_read
  have htoken : Token.read s = .ok (some (.openGroup, t)) := (read_iff_sign rfl).2 hsign
  exact read_of_ofToken htoken (by rw [Part.ofToken, hkind]; rfl)

theorem Single.exists_read {isChars : Bool} (h : Single isChars s rest) :
    ∃ atom, Part.read s = .ok (some (.atom atom, rest)) ∧ atom.isChars = isChars := by
  have hread : ∀ {token : Token} {atom : Atom}, Token.read s = .ok (some (token, rest)) →
      Part.ofToken token rest = .ok (.atom atom, rest) →
      ∃ a, Part.read s = .ok (some (.atom a, rest)) ∧ a.isChars = atom.isChars :=
    fun htoken hpart ↦ ⟨_, read_of_ofToken htoken hpart, rfl⟩
  cases h with
  | any hsign => exact hread ((read_iff_sign rfl).2 hsign) (Eq.refl (Part.ofToken .dot rest))
  | caret hsign => exact hread ((read_iff_sign rfl).2 hsign) (Eq.refl (Part.ofToken .caret rest))
  | dollar hsign => exact hread ((read_iff_sign rfl).2 hsign) (Eq.refl (Part.ofToken .dollar rest))
  | escape hb =>
    obtain ⟨e, he⟩ := read_escape_iff.2 ⟨_, hb, rfl⟩
    exact hread he rfl
  | char hliteral =>
    obtain ⟨c, hc⟩ := read_literal_iff.2 hliteral
    exact hread hc rfl
  | @bracket _ t _ hsign hclass =>
    obtain ⟨c, hc⟩ := read_class_iff.2 hclass
    have htoken : Token.read s = .ok (some (.openClass, t)) := (read_iff_sign rfl).2 hsign
    exact ⟨.bracket c, read_of_ofToken htoken (by rw [Part.ofToken, hc]; rfl), rfl⟩

end Grammar

end PatternAutomata
