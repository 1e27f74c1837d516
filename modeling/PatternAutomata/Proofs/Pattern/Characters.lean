import Mathlib.Data.Nat.Bitwise
import PatternAutomata.Pattern.Utf8

/-!
# Characters of a text

The first byte of a character says how many continuation bytes there are, and well-formed UTF-8 has
just as many. So no byte is taken as part of a neighbouring character, and a text that has been
encoded is read back as it was.

Bytes that are not UTF-8 are read as some character as well. It has at least its first byte and at
most three more, none of which is the zero byte behind the text, and it has no more than 21 bits.
-/

namespace PatternAutomata

namespace Utf8

/-- The characters of a text in front of a zero byte, decoded one after another. -/
def decodeAll : Bytes → List CodePoint
  | [] => []
  | b :: rest => if b = 0 then [] else (decode b rest).1 :: decodeAll (decode b rest).2
termination_by s => s.length
decreasing_by exact Nat.lt_succ_of_le (decode_suffix b rest).length_le

/-! ## Bits -/

theorem forall_byte {P : UInt8 → Prop} (h : ∀ n < 256, P (UInt8.ofNat n)) (b : UInt8) : P b := by
  have hb := h b.toNat b.toNat_lt
  rwa [UInt8.ofNat_toNat] at hb

theorem isContinuation_iff (b : UInt8) : isContinuation b = true ↔ 0x80 ≤ b ∧ b < 0xc0 :=
  forall_byte (P := fun b ↦ isContinuation b = true ↔ 0x80 ≤ b ∧ b < 0xc0) (by decide +kernel) b

theorem continuations_le (b : UInt8) : continuations b ≤ 3 := by
  unfold continuations
  split_ifs <;> omega

/-- What a first byte gives to its character: six bits, and one less for each continuation byte. -/
theorem toNat_leadBits (b : UInt8) : (leadBits b).toNat = b.toNat % 2 ^ (6 - continuations b) :=
  forall_byte (P := fun b ↦ (leadBits b).toNat = b.toNat % 2 ^ (6 - continuations b))
    (by decide +kernel) b

theorem toNat_append {c : CodePoint} (b : UInt8) (hc : c.toNat < 2 ^ 26) :
    (c <<< 6 ||| (b &&& 0x3f).toUInt32).toNat = 64 * c.toNat + b.toNat % 64 := by
  have hbits : (b &&& 0x3f).toNat = b.toNat % 64 := by
    rw [UInt8.toNat_and]
    exact Nat.and_two_pow_sub_one_eq_mod b.toNat 6
  have hshift : (c <<< 6).toNat = c.toNat <<< 6 := by
    rw [UInt32.toNat_shiftLeft]
    exact Nat.mod_eq_of_lt (by rw [Nat.shiftLeft_eq]; simp; omega)
  rw [UInt32.toNat_or, hshift, UInt8.toNat_toUInt32, hbits,
    ← Nat.shiftLeft_add_eq_or_of_lt (i := 6) (Nat.mod_lt _ (by decide)), Nat.shiftLeft_eq]
  omega

/-! ## Well-formed text -/

theorem decode_lead {n lead d : Nat} (hlead : (n, lead) ∈ [(1, 0xc0), (2, 0xe0), (3, 0xf0)])
    (hd : d < 2 ^ (6 - n)) (rest : Bytes) :
    decode (.ofNat (d + lead)) rest = takeContinuations n (.ofNat d) rest := by
  have hbyte : ∀ d < 2 ^ (6 - n), continuations (.ofNat (d + lead)) = n ∧
      0x80 ≤ UInt8.ofNat (d + lead) ∧ (d + lead) % 256 % 2 ^ (6 - n) = d := by
    simp only [List.mem_cons, Prod.mk.injEq, List.not_mem_nil, or_false] at hlead
    rcases hlead with ⟨rfl, rfl⟩ | ⟨rfl, rfl⟩ | ⟨rfl, rfl⟩ <;> decide
  obtain ⟨hn, hb, hbits⟩ := hbyte d hd
  have hvalue : (leadBits (.ofNat (d + lead))).toUInt32 = .ofNat d := by
    have hsmall : d < 2 ^ 32 := hd.trans_le (Nat.pow_le_pow_right (by decide) (by omega))
    rw [← UInt32.toNat_inj, UInt8.toNat_toUInt32, toNat_leadBits, hn, UInt8.toNat_ofNat', hbits,
      UInt32.toNat_ofNat', Nat.mod_eq_of_lt hsmall]
  rw [decode, if_neg (UInt8.not_lt.2 hb), hn, hvalue]

@[simp] theorem takeContinuations_zero (c : CodePoint) (rest : Bytes) :
    takeContinuations 0 c rest = (c, rest) := rfl

theorem takeContinuations_written {m : Nat} (n d : Nat) (rest : Bytes) (hm : m < 2 ^ 26) :
    takeContinuations (n + 1) (.ofNat m) (.ofNat (d % 64 + 128) :: rest) =
      takeContinuations n (.ofNat (64 * m + d % 64)) rest := by
  have hbyte : (UInt8.ofNat (d % 64 + 128)).toNat = d % 64 + 128 := by
    rw [UInt8.toNat_ofNat']
    omega
  have hcontinues : isContinuation (.ofNat (d % 64 + 128)) = true := by
    rw [isContinuation_iff, UInt8.le_iff_toNat_le, UInt8.lt_iff_toNat_lt, hbyte]
    simp
    omega
  have hvalue : (UInt32.ofNat m).toNat = m := by
    rw [UInt32.toNat_ofNat']
    omega
  rw [takeContinuations, if_pos hcontinues]
  congr 1
  rw [← UInt32.toNat_inj, toNat_append _ (hvalue.symm ▸ hm), hvalue, hbyte, UInt32.toNat_ofNat']
  omega

/-- **A character is read back**, and nothing of what comes behind it is read. -/
theorem decode_encode (c : Char) : ∃ b t, String.utf8EncodeChar c = b :: t ∧
    (b = 0 → c.val = 0) ∧ ∀ rest, decode b (t ++ rest) = (c.val, rest) := by
  obtain ⟨v, hv⟩ : ∃ v, v = c.val.toNat := ⟨_, rfl⟩
  have hlt : v < 0x110000 := by
    rcases c.valid with h | h <;> omega
  have hvalue : UInt32.ofNat v = c.val := by rw [hv, UInt32.ofNat_toNat]
  -- no first byte of several is zero
  have hlead : ∀ {d n : Nat}, 0 < n → d + n < 256 → UInt8.ofNat (d + n) = 0 → c.val = 0 := by
    intro d n hn hd h
    have := congrArg UInt8.toNat h
    rw [UInt8.toNat_ofNat', Nat.mod_eq_of_lt hd] at this
    exact absurd this (by simp; omega)
  unfold String.utf8EncodeChar
  rw [← hv]
  dsimp only
  split_ifs with hone htwo hthree
  · refine ⟨_, _, rfl, fun hzero ↦ ?_, fun rest ↦ ?_⟩
    · have := congrArg UInt8.toNat hzero
      rw [UInt8.toNat_ofNat', Nat.mod_eq_of_lt (by omega)] at this
      rw [← hvalue, this]
      rfl
    · have hascii : UInt8.ofNat v < 0x80 := by
        rw [UInt8.lt_iff_toNat_lt, UInt8.toNat_ofNat']
        simp
        omega
      rw [decode, if_pos hascii, List.nil_append, ← hvalue]
      congr 1
      rw [← UInt32.toNat_inj, UInt8.toNat_toUInt32, UInt8.toNat_ofNat', UInt32.toNat_ofNat']
      omega
  · refine ⟨_, _, rfl, hlead (by decide) (by omega), fun rest ↦ ?_⟩
    rw [decode_lead (n := 1) (by decide) (by simp; omega), List.cons_append, List.nil_append,
      takeContinuations_written 0 _ _ (by omega), takeContinuations_zero, ← hvalue]
    congr 2
    omega
  · refine ⟨_, _, rfl, hlead (by decide) (by omega), fun rest ↦ ?_⟩
    rw [decode_lead (n := 2) (by decide) (by simp; omega), List.cons_append, List.cons_append,
      List.nil_append, takeContinuations_written 1 _ _ (by omega),
      takeContinuations_written 0 _ _ (by omega), takeContinuations_zero, ← hvalue]
    congr 2
    omega
  · refine ⟨_, _, rfl, hlead (by decide) (by omega), fun rest ↦ ?_⟩
    rw [decode_lead (n := 3) (by decide) (by simp; omega), List.cons_append, List.cons_append,
      List.cons_append, List.nil_append, takeContinuations_written 2 _ _ (by omega),
      takeContinuations_written 1 _ _ (by omega), takeContinuations_written 0 _ _ (by omega),
      takeContinuations_zero, ← hvalue]
    congr 2
    omega

theorem decodeAll_encode {text : List Char} (h : ∀ c ∈ text, c.val ≠ 0) (junk : Bytes) :
    decodeAll (text.flatMap String.utf8EncodeChar ++ 0 :: junk) = text.map Char.val := by
  induction text with
  | nil => rw [List.flatMap_nil, List.nil_append, decodeAll, if_pos rfl, List.map_nil]
  | cons c text ih =>
    obtain ⟨b, t, hencode, hzero, hdecode⟩ := decode_encode c
    have hc : b ≠ 0 := fun hb ↦ h c List.mem_cons_self (hzero hb)
    rw [List.flatMap_cons, hencode, List.append_assoc, List.cons_append, decodeAll, if_neg hc,
      hdecode, ih fun c hmem ↦ h c (List.mem_cons_of_mem _ hmem), List.map_cons]

/-! ## Any bytes -/

/-- At most so many bytes are taken, none of them is the zero byte behind the text, and each adds
six bits. -/
theorem takeContinuations_inside {n k : Nat} {c : CodePoint} (text junk : Bytes)
    (hc : c.toNat < 2 ^ k) (hk : k + 6 * n ≤ 32) :
    ∃ taken left c', text = taken ++ left ∧ taken.length ≤ n ∧ c'.toNat < 2 ^ (k + 6 * n) ∧
      takeContinuations n c (text ++ 0 :: junk) = (c', left ++ 0 :: junk) := by
  induction n generalizing c k text with
  | zero => exact ⟨[], text, c, rfl, Nat.le_refl _, hc, rfl⟩
  | succ n ih =>
    have hstop : c.toNat < 2 ^ (k + 6 * (n + 1)) :=
      hc.trans_le (Nat.pow_le_pow_right (by decide) (Nat.le_add_right _ _))
    cases text with
    | nil => exact ⟨[], [], c, rfl, Nat.zero_le _, hstop, rfl⟩
    | cons b text =>
      by_cases hb : isContinuation b = true
      · have hvalue := toNat_append b (hc.trans_le (Nat.pow_le_pow_right (by decide) (by omega)))
        have hmore : (c <<< 6 ||| (b &&& 0x3f).toUInt32).toNat < 2 ^ (k + 6) := by
          rw [hvalue, Nat.pow_add]
          omega
        obtain ⟨taken, left, c', rfl, hlength, hc', hrest⟩ := ih text hmore (by omega)
        refine ⟨b :: taken, left, c', rfl, Nat.succ_le_succ hlength, ?_, ?_⟩
        · rwa [Nat.mul_succ, Nat.add_comm (6 * n), ← Nat.add_assoc]
        · rw [List.cons_append, takeContinuations, if_pos hb, hrest]
      · refine ⟨[], b :: text, c, rfl, Nat.zero_le _, hstop, ?_⟩
        rw [List.cons_append, takeContinuations, if_neg hb]

/-- **A character takes one byte to four**, it stays in front of the zero byte, and it has no more
than 21 bits. -/
theorem decode_inside (b : UInt8) (text junk : Bytes) :
    ∃ taken left c, text = taken ++ left ∧ (b :: taken).length ≤ 4 ∧ c < 0x200000 ∧
      decode b (text ++ 0 :: junk) = (c, left ++ 0 :: junk) := by
  by_cases hb : b < 0x80
  · refine ⟨[], text, b.toUInt32, rfl, by simp, ?_, by rw [decode, if_pos hb]⟩
    rw [UInt32.lt_iff_toNat_lt, UInt8.toNat_toUInt32]
    exact b.toNat_lt.trans (by decide)
  · have hn := continuations_le b
    have hlead : (leadBits b).toUInt32.toNat < 2 ^ (6 - continuations b) := by
      rw [UInt8.toNat_toUInt32, toNat_leadBits]
      exact Nat.mod_lt _ (Nat.two_pow_pos _)
    obtain ⟨taken, left, c, htext, hlength, hc, hrun⟩ :=
      takeContinuations_inside (n := continuations b) text junk hlead (by omega)
    refine ⟨taken, left, c, htext, Nat.succ_le_succ (hlength.trans hn), ?_, ?_⟩
    · rw [UInt32.lt_iff_toNat_lt]
      have hbits : 6 - continuations b + 6 * continuations b ≤ 21 := by omega
      exact hc.trans_le (Nat.pow_le_pow_right Nat.two_pos hbits)
    · rw [decode, if_neg hb, hrun]

/-! ## The decoder -/

/-- **Decoding undoes encoding, and it stays inside the text.** A text without the zero character
that is encoded, with a zero byte behind it, is decoded into the characters it has been. And from
every place in front of the zero byte behind some bytes, one to four of them are taken, none of them
beyond the zero byte, and what comes of them is below two to the power of 21. -/
theorem decoding_exact {text : List Char} (h : ∀ c ∈ text, c.val ≠ 0) (junk : Bytes) :
    decodeAll (text.flatMap String.utf8EncodeChar ++ 0 :: junk) = text.map Char.val ∧
      ∀ (bytes : Bytes) (i : Fin bytes.length), ∃ n c, 1 ≤ n ∧ n ≤ 4 ∧ i + n ≤ bytes.length ∧
        c < 0x200000 ∧ decode bytes[i] (bytes.drop (i + 1) ++ 0 :: junk) =
          (c, bytes.drop (i + n) ++ 0 :: junk) := by
  refine ⟨decodeAll_encode h junk, fun bytes i ↦ ?_⟩
  obtain ⟨taken, left, c, htext, hlength, hc, hdecode⟩ :=
    decode_inside bytes[i] (bytes.drop (i + 1)) junk
  have hsize := congrArg List.length htext
  rw [List.length_drop, List.length_append] at hsize
  refine ⟨taken.length + 1, c, Nat.le_add_left _ _, hlength, by omega, hc, ?_⟩
  have hleft : bytes.drop (i + (taken.length + 1)) = left := by
    rw [Nat.add_comm taken.length, ← Nat.add_assoc, ← List.drop_drop, htext, List.drop_left]
  rw [hdecode, hleft]

/-- Characters of one to four bytes, and a character of which only two bytes are there. -/
theorem decoding_exact_four_lengths :
    decodeAll [0x61, 0xc3, 0xa9, 0xe2, 0x82, 0xac, 0xf0, 0x9f, 0x98, 0x80, 0, 0x80] =
        [0x61, 0xe9, 0x20ac, 0x1f600] ∧
      ∃ n c, 1 ≤ n ∧ n ≤ 4 ∧ 0 + n ≤ 2 ∧ c < 0x200000 ∧
        decode 0xf0 [0x9f, 0, 0x80] = (c, [0xf0, 0x9f].drop (0 + n) ++ [0, 0x80]) := by
  obtain ⟨hread, hinside⟩ :=
    @decoding_exact ['a', 'é', '€', '😀'] (by simp) [0x80]
  exact ⟨hread, hinside [0xf0, 0x9f] ⟨0, by decide⟩⟩

end Utf8

end PatternAutomata
