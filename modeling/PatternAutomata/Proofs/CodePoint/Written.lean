import Mathlib.Data.List.TakeWhile
import PatternAutomata.CodePoint.Text
import PatternAutomata.Proofs.CodePoint.Members

/-!
# Written sets

No written code point starts with a dash or with the closing bracket, and where one ends is told by
its own characters. So the written form of a set falls apart in one way only. What comes of it are
not always the ranges that were written, since two neighbours are written like two ranges of one
code point each; but these have the same members, and a canonical set is known by its members.
-/

namespace PatternAutomata

/-! ## Hexadecimal digits -/

theorem toDigits_digit {d : Nat} (hd : d < 16) : Nat.toDigits 16 d = [d.digitChar] :=
  Nat.toDigits_of_lt_base hd

theorem toDigits_more {n d : Nat} (hn : 0 < n) (hd : d < 16) :
    Nat.toDigits 16 (16 * n + d) = Nat.toDigits 16 n ++ [d.digitChar] := by
  rw [← Nat.toDigits_append_toDigits (by decide) hn hd, toDigits_digit hd]

@[elab_as_elim] theorem hexInduction {motive : Nat → Prop} (digit : ∀ d < 16, motive d)
    (more : ∀ n d, 0 < n → d < 16 → motive n → motive (16 * n + d)) (n : Nat) : motive n := by
  induction n using Nat.strongRecOn with
  | ind n ih =>
    rcases Nat.lt_or_ge n 16 with hlt | hge
    · exact digit n hlt
    · have hmore := more (n / 16) (n % 16) (by omega) (by omega) (ih (n / 16) (by omega))
      rwa [Nat.div_add_mod] at hmore

theorem exists_digitChar {n : Nat} {ch : Char} (h : ch ∈ Nat.toDigits 16 n) :
    ∃ d < 16, ch = d.digitChar := by
  induction n using hexInduction with
  | digit d hd =>
    rw [toDigits_digit hd, List.mem_singleton] at h
    exact ⟨d, hd, h⟩
  | more n d hn hd ih =>
    rw [toDigits_more hn hd, List.mem_append, List.mem_singleton] at h
    exact h.elim ih fun heq ↦ ⟨d, hd, heq⟩

/-- The number that a digit adds to what the digits in front of it stand for. -/
def hexStep (n : Nat) (ch : Char) : Nat :=
  16 * n + if ch.toNat < 0x3a then ch.toNat - 0x30 else ch.toNat - 0x57

theorem hexStep_digitChar {d : Nat} (n : Nat) (hd : d < 16) :
    hexStep n d.digitChar = 16 * n + d := by
  have hdigit : ∀ d < 16, (if d.digitChar.toNat < 0x3a then d.digitChar.toNat - 0x30
      else d.digitChar.toNat - 0x57) = d := by decide
  rw [hexStep, hdigit d hd]

/-- **A number is known by its hexadecimal digits.** -/
theorem foldl_hexStep_toDigits (n : Nat) : (Nat.toDigits 16 n).foldl hexStep 0 = n := by
  induction n using hexInduction with
  | digit d hd =>
    rw [toDigits_digit hd, List.foldl_cons, hexStep_digitChar 0 hd, List.foldl_nil, Nat.mul_zero,
      Nat.zero_add]
  | more n d hn hd ih =>
    rw [toDigits_more hn hd, List.foldl_append, ih, List.foldl_cons, hexStep_digitChar n hd,
      List.foldl_nil]

/-! ## Written code points -/

namespace CodePoint

variable {c c' : CodePoint} {u u' : List Char}

theorem isPlain_iff : c.isPlain = true ↔ 0x20 < c.toNat ∧ c.toNat < 0x7f ∧ c.toNat ≠ 0x2d ∧
    c.toNat ≠ 0x5b ∧ c.toNat ≠ 0x5d ∧ c.toNat ≠ 0x5c := by
  simp only [isPlain, Bool.and_eq_true, decide_eq_true_eq, bne_iff_ne, ne_eq,
    UInt32.lt_iff_toNat_lt, ← UInt32.toNat_inj, and_assoc]
  rfl

theorem toNat_ofNat_plain (h : c.isPlain = true) : (Char.ofNat c.toNat).toNat = c.toNat := by
  have hvalid : c.toNat.isValidChar := .inl (by have := isPlain_iff.1 h; omega)
  rw [Char.ofNat, dif_pos hvalid]
  rfl

theorem exists_written_eq_cons (c : CodePoint) : ∃ ch l, c.written = ch :: l ∧
    (ch = '\\' ∨ c.isPlain = true ∧ ch.toNat = c.toNat) := by
  unfold written
  split
  · next h => exact ⟨_, _, rfl, .inr ⟨h, toNat_ofNat_plain h⟩⟩
  · exact ⟨_, _, rfl, .inl rfl⟩

/-- No written code point starts with a dash or with the closing bracket. -/
theorem head?_written_append : (c.written ++ u).head? ≠ some '-' ∧
    (c.written ++ u).head? ≠ some ']' := by
  obtain ⟨ch, l, heq, hch⟩ := exists_written_eq_cons c
  rw [heq, List.cons_append, List.head?_cons, ne_eq, ne_eq, Option.some_inj, Option.some_inj]
  rcases hch with rfl | ⟨hplain, hch⟩
  · exact ⟨by decide, by decide⟩
  · obtain ⟨-, -, hdash, -, hend, -⟩ := isPlain_iff.1 hplain
    exact ⟨fun heq ↦ hdash (hch ▸ heq ▸ rfl), fun heq ↦ hend (hch ▸ heq ▸ rfl)⟩

theorem takeWhile_toDigits_append (n : Nat) :
    (Nat.toDigits 16 n ++ '\x7d' :: u).takeWhile (· != '\x7d') = Nat.toDigits 16 n := by
  have hne : ∀ d < 16, (d.digitChar != '\x7d') = true := by decide
  rw [List.takeWhile_append_of_pos, List.takeWhile_cons_of_neg (by decide), List.append_nil]
  intro ch hch
  obtain ⟨d, hd, rfl⟩ := exists_digitChar hch
  exact hne d hd

/-- **No written code point is the beginning of another one.** -/
theorem written_append_inj (h : c.written ++ u = c'.written ++ u') : c = c' ∧ u = u' := by
  have hmixed : ∀ {c c' : CodePoint} {u u' : List Char}, c.isPlain = true →
      Char.ofNat c.toNat :: u ≠ c'.escaped ++ u' := by
    intro c c' u u' hplain heq
    have hch := congrArg Char.toNat (List.cons.inj heq).1
    rw [toNat_ofNat_plain hplain] at hch
    exact (isPlain_iff.1 hplain).2.2.2.2.2 hch
  unfold written at h
  split at h <;> split at h
  · next hplain hplain' =>
    obtain ⟨hch, htail⟩ := List.cons.inj h
    have hcode := congrArg Char.toNat hch
    rw [toNat_ofNat_plain hplain, toNat_ofNat_plain hplain'] at hcode
    exact ⟨UInt32.toNat_inj.1 hcode, htail⟩
  · next hplain _ => exact absurd h (hmixed hplain)
  · next hplain' => exact absurd h.symm (hmixed hplain')
  · -- the brace that closes an escape is none of its digits
    simp only [escaped, List.cons_append, List.append_assoc, List.cons.injEq, true_and,
      List.nil_append] at h
    have hdigits := congrArg (List.takeWhile (· != '\x7d')) h
    rw [takeWhile_toDigits_append, takeWhile_toDigits_append] at hdigits
    have hcode := congrArg (List.foldl hexStep 0) hdigits
    rw [foldl_hexStep_toDigits, foldl_hexStep_toDigits] at hcode
    rw [hcode] at h
    exact ⟨UInt32.toNat_inj.1 hcode, (List.cons.inj (List.append_cancel_left h)).2⟩

end CodePoint

/-! ## Written ranges -/

namespace CodeRange

variable {r q : CodeRange} {c : CodePoint} {u u' : List Char}

/-- What a range is written as, one by one: two neighbours are written each on its own. -/
def items (r : CodeRange) : List CodeRange :=
  if r.hi = r.lo + 1 then [.single r.lo, .single r.hi] else [r]

/-- The written form of an item. -/
def writtenItem (r : CodeRange) : List Char :=
  r.lo.written ++ if r.hi = r.lo then [] else '-' :: r.hi.written

theorem written_eq_flatMap (r : CodeRange) : r.written = r.items.flatMap writtenItem := by
  have hne : r.lo ≠ r.lo + 1 := by
    intro heq
    have := congrArg UInt32.toNat heq
    rw [UInt32.toNat_add, UInt32.toNat_one] at this
    omega
  unfold written items
  by_cases hpair : r.hi = r.lo + 1
  · rw [if_neg fun heq ↦ hne (heq.symm.trans hpair), if_pos hpair, if_pos hpair]
    simp [writtenItem, single]
  · rw [if_neg hpair, if_neg hpair, List.flatMap_singleton, writtenItem]
    split <;> simp

theorem exists_flatMap_items_eq (r : CodeRange) :
    ∃ u, r.items.flatMap writtenItem = r.lo.written ++ u := by
  unfold items
  split
  · rw [List.flatMap_cons, writtenItem, List.append_assoc]
    exact ⟨_, rfl⟩
  · rw [List.flatMap_singleton, writtenItem]
    exact ⟨_, rfl⟩

theorem mem_items (hr : r.lo ≤ r.hi) : (∃ q ∈ r.items, c ∈ q) ↔ c ∈ r := by
  unfold items
  split
  · next hpair =>
    have hhi : r.hi.toNat = r.lo.toNat + 1 := by
      rw [UInt32.le_iff_toNat_le, hpair, UInt32.toNat_add, UInt32.toNat_one] at hr
      rw [hpair, UInt32.toNat_add, UInt32.toNat_one]
      omega
    simp only [List.mem_cons, List.not_mem_nil, or_false, exists_eq_or_imp, exists_eq_left,
      mem_iff_toNat, single]
    omega
  · simp

theorem le_of_mem_items (hr : r.lo ≤ r.hi) (hq : q ∈ r.items) : q.lo ≤ q.hi := by
  unfold items at hq
  split at hq
  · rcases List.mem_cons.1 hq with rfl | hq
    · exact UInt32.le_refl _
    · rw [List.mem_singleton.1 hq]
      exact UInt32.le_refl _
  · rwa [List.mem_singleton.1 hq]

/-- The written form of an item ends where no dash follows. -/
theorem writtenItem_append_inj (h : r.writtenItem ++ u = q.writtenItem ++ u')
    (hu : u.head? ≠ some '-') (hu' : u'.head? ≠ some '-') : r = q ∧ u = u' := by
  obtain ⟨lo, hi⟩ := r
  obtain ⟨lo', hi'⟩ := q
  rw [writtenItem, writtenItem, List.append_assoc, List.append_assoc] at h
  obtain ⟨hlo, htail⟩ := CodePoint.written_append_inj h
  obtain rfl : lo = lo' := hlo
  split at htail <;> split at htail
  · next hr hq => exact ⟨congrArg _ (hr.trans hq.symm), htail⟩
  · exact absurd (congrArg List.head? htail) hu
  · exact absurd (congrArg List.head? htail).symm hu'
  · obtain ⟨hhi, htail⟩ := CodePoint.written_append_inj (List.cons.inj htail).2
    exact ⟨congrArg _ hhi, htail⟩

theorem head?_writtenItem_append : (r.writtenItem ++ u).head? ≠ some '-' ∧
    (r.writtenItem ++ u).head? ≠ some ']' := by
  rw [writtenItem, List.append_assoc]
  exact CodePoint.head?_written_append

theorem head?_flatMap_writtenItem {rs : List CodeRange} :
    (rs.flatMap writtenItem ++ ']' :: u).head? ≠ some '-' := by
  cases rs with
  | nil => exact nofun
  | cons r rs =>
    rw [List.flatMap_cons, List.append_assoc]
    exact head?_writtenItem_append.1

/-- **Written items are told apart.** -/
theorem flatMap_writtenItem_inj {rs qs : List CodeRange}
    (h : rs.flatMap writtenItem ++ ']' :: u = qs.flatMap writtenItem ++ ']' :: u') : rs = qs := by
  induction rs generalizing qs with
  | nil =>
    cases qs with
    | nil => rfl
    | cons q qs =>
      rw [List.flatMap_cons, List.append_assoc] at h
      exact absurd (congrArg List.head? h).symm head?_writtenItem_append.2
  | cons r rs ih =>
    cases qs with
    | nil =>
      rw [List.flatMap_cons, List.append_assoc] at h
      exact absurd (congrArg List.head? h) head?_writtenItem_append.2
    | cons q qs =>
      rw [List.flatMap_cons, List.flatMap_cons, List.append_assoc, List.append_assoc] at h
      obtain ⟨rfl, htail⟩ :=
        writtenItem_append_inj h head?_flatMap_writtenItem head?_flatMap_writtenItem
      rw [ih htail]

end CodeRange

/-! ## Written sets -/

namespace CodePointSet

variable {s t : CodePointSet} {c : CodePoint}

/-- What a set is written as, one by one. -/
def items (s : CodePointSet) : List CodeRange := s.ranges.flatMap CodeRange.items

theorem written_eq (s : CodePointSet) :
    s.written = '[' :: (s.items.flatMap CodeRange.writtenItem ++ [']']) := by
  rw [written, items, List.flatMap_assoc]
  exact congrArg (fun f ↦ '[' :: (s.ranges.flatMap f ++ [']']))
    (funext CodeRange.written_eq_flatMap)

theorem Canonical.mem_items (h : s.Canonical) : (∃ r ∈ s.items, c ∈ r) ↔ c ∈ s := by
  rw [mem_iff, items]
  simp only [List.mem_flatMap]
  constructor
  · rintro ⟨q, ⟨r, hr, hq⟩, hc⟩
    exact ⟨r, hr, (CodeRange.mem_items (h.1 r hr)).1 ⟨q, hq, hc⟩⟩
  · rintro ⟨r, hr, hc⟩
    obtain ⟨q, hq, hc⟩ := (CodeRange.mem_items (h.1 r hr)).2 hc
    exact ⟨q, ⟨r, hr, hq⟩, hc⟩

theorem Canonical.le_of_mem_items {r : CodeRange} (h : s.Canonical) (hr : r ∈ s.items) :
    r.lo ≤ r.hi := by
  obtain ⟨q, hq, hr⟩ := List.mem_flatMap.1 hr
  exact CodeRange.le_of_mem_items (h.1 q hq) hr

/-- **A canonical set is known by its written form.** -/
theorem Canonical.eq_of_toString_eq (hs : s.Canonical) (ht : t.Canonical)
    (h : s.toString = t.toString) : s = t := by
  have hwritten : s.written = t.written := String.ofList_injective h
  rw [written_eq, written_eq] at hwritten
  have hitems : s.items = t.items := CodeRange.flatMap_writtenItem_inj (List.cons.inj hwritten).2
  exact hs.ext ht fun c ↦ by rw [← hs.mem_items, ← ht.mem_items, hitems]

end CodePointSet

end PatternAutomata
