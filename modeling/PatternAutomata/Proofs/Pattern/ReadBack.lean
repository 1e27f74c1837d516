import PatternAutomata.Proofs.CodePoint.Written
import PatternAutomata.Proofs.Pattern.Acceptance
import PatternAutomata.Proofs.Pattern.Classes

/-!
# Reading written sets

The written form of a set is a pattern: a class between brackets with the items of the set, whose
characters are all read as they were written. So what is read has the members that were written,
and as sets of classes are canonical it is the same set. Only a set that is written with a
circumflex right behind the bracket is read as another one.
-/

namespace PatternAutomata

open Grammar

variable {c : CodePoint} {s : CodePointSet} {l : List Char} {t rest : Bytes}

/-! ## Written forms as bytes -/

def Bytes.ofAscii (l : List Char) : Bytes := l.map fun ch ↦ UInt8.ofNat ch.toNat

theorem Bytes.ofAscii_append (l k : List Char) : ofAscii (l ++ k) = ofAscii l ++ ofAscii k :=
  List.map_append

/-- The characters of ASCII other than the one that ends a text. -/
def IsText (ch : Char) : Prop := 0 < ch.toNat ∧ ch.toNat < 0x80

instance (ch : Char) : Decidable (IsText ch) := inferInstanceAs (Decidable (_ ∧ _))

theorem Bytes.ofString_ofList (h : ∀ ch ∈ l, IsText ch) :
    Bytes.ofString (String.ofList l) = .ofAscii l := by
  rw [ofString, String.toList_ofList, ofAscii, List.map_eq_flatMap]
  exact List.flatMap_congr fun ch hch ↦ if_pos (Nat.le_of_lt_succ (h ch hch).2)

theorem Bytes.zero_notMem_ofAscii (h : ∀ ch ∈ l, IsText ch) : 0 ∉ ofAscii l := by
  rw [ofAscii, List.mem_map]
  rintro ⟨ch, hch, heq⟩
  obtain ⟨hpos, hlt⟩ := h ch hch
  have hzero := congrArg UInt8.toNat heq
  rw [UInt8.toNat_ofNat_of_lt' (Nat.lt_trans hlt (by decide))] at hzero
  exact Nat.ne_of_gt hpos hzero

theorem CodePoint.isText_of_mem_written {ch : Char} (h : ch ∈ c.written) : IsText ch := by
  have hdigits : ∀ d < 16, IsText d.digitChar := by decide
  unfold CodePoint.written at h
  split at h
  · next hplain =>
    obtain ⟨hlt, hgt, -⟩ := CodePoint.isPlain_iff.1 hplain
    rw [List.mem_singleton] at h
    rw [IsText, h, CodePoint.toNat_ofNat_plain hplain]
    omega
  · simp only [CodePoint.escaped, List.mem_cons, List.mem_append, List.not_mem_nil, or_false] at h
    rcases h with rfl | rfl | rfl | hdigit | rfl
    case inr.inr.inr.inl =>
      obtain ⟨d, hd, rfl⟩ := exists_digitChar hdigit
      exact hdigits d hd
    all_goals decide

/-- **Sets are written in ASCII.** -/
theorem CodePointSet.isText_of_mem_written {ch : Char} (h : ch ∈ s.written) : IsText ch := by
  rw [CodePointSet.written_eq] at h
  simp only [List.mem_cons, List.mem_append, List.mem_flatMap, CodeRange.writtenItem,
    List.not_mem_nil, or_false] at h
  rcases h with rfl | ⟨r, -, hlo | hhi⟩ | rfl
  case inr.inl.inl => exact CodePoint.isText_of_mem_written hlo
  case inr.inl.inr =>
    split at hhi
    · cases hhi
    · rcases List.mem_cons.1 hhi with rfl | hhi
      · decide
      · exact CodePoint.isText_of_mem_written hhi
  all_goals decide

/-! ## Reading code points -/

theorem hexValue_digitChar : ∀ d < 16, isHexDigit (.ofNat d.digitChar.toNat) = true ∧
    hexValue (.ofNat d.digitChar.toNat) = .ofNat d := by decide

theorem shiftLeft_or_ofNat {n d : Nat} (hn : n ≤ 0x10ffff) (hd : d < 16) :
    UInt32.ofNat n <<< 4 ||| UInt32.ofNat d = UInt32.ofNat (16 * n + d) := by
  have hword : ∀ {m : Nat}, m < 2 ^ 32 → (UInt32.ofNat m).toNat = m := UInt32.toNat_ofNat_of_lt'
  have hshift : n <<< 4 = 16 * n := by
    rw [Nat.shiftLeft_eq]
    omega
  rw [← UInt32.toNat_inj, UInt32.toNat_or, UInt32.toNat_shiftLeft, hword (by omega),
    hword (by omega), hword (by omega)]
  calc
    n <<< (4 % 32) % 2 ^ 32 ||| d = n <<< 4 ||| d := by
      rw [Nat.mod_eq_of_lt (a := n <<< (4 % 32)) (hshift ▸ by omega)]
    _ = n <<< 4 + d := (Nat.shiftLeft_add_eq_or_of_lt hd n).symm
    _ = 16 * n + d := by rw [hshift]

theorem hexValue_lt {d : UInt8} (h : isHexDigit d = true) : (hexValue d).toNat < 16 := by
  have hall : ∀ n < 256, isHexDigit (.ofNat n) = true → (hexValue (.ofNat n)).toNat < 16 := by
    decide +kernel
  have hlt := hall d.toNat d.toNat_lt
  rw [UInt8.ofNat_toNat] at hlt
  exact hlt h

namespace Escape

theorem takeHexDigits_cons {n : Nat} {d : UInt8} (hn : n ≤ 0x10ffff) (hd : isHexDigit d = true) :
    takeHexDigits (.ofNat n) (d :: t) = takeHexDigits (.ofNat (16 * n + (hexValue d).toNat)) t := by
  have hle : UInt32.ofNat n ≤ 0x10ffff := by
    rw [UInt32.le_iff_toNat_le, UInt32.toNat_ofNat_of_lt' (by show n < 2 ^ 32; omega)]
    exact hn
  rw [takeHexDigits, if_pos (by simp [hd, hle]), ← shiftLeft_or_ofNat hn (hexValue_lt hd),
    UInt32.ofNat_toNat]

theorem takeHexDigits_digitChar {n d : Nat} (hn : n ≤ 0x10ffff) (hd : d < 16) :
    takeHexDigits (.ofNat n) (.ofNat d.digitChar.toNat :: t) =
      takeHexDigits (.ofNat (16 * n + d)) t := by
  obtain ⟨hdigit, hvalue⟩ := hexValue_digitChar d hd
  rw [takeHexDigits_cons hn hdigit, hvalue, UInt32.toNat_ofNat_of_lt' (Nat.lt_trans hd (by decide))]

/-- **The digits of a number are read as the number**, as long as it is within Unicode. -/
theorem takeHexDigits_toDigits {n : Nat} (hn : n ≤ 0x10ffff) :
    takeHexDigits 0 (Bytes.ofAscii (Nat.toDigits 16 n) ++ t) = takeHexDigits (.ofNat n) t := by
  induction n using hexInduction generalizing t with
  | digit d hd =>
    rw [toDigits_digit hd]
    have h := takeHexDigits_digitChar (n := 0) (t := t) (by omega) hd
    rwa [Nat.mul_zero, Nat.zero_add] at h
  | more n d hpos hd ih =>
    rw [toDigits_more hpos hd, Bytes.ofAscii_append, List.append_assoc, ih (by omega)]
    exact takeHexDigits_digitChar (by omega) hd

theorem readUnicode_escaped (h : c ≤ 0x10ffff) :
    readUnicode (0x7b :: (Bytes.ofAscii (Nat.toDigits 16 c.toNat) ++ 0x7d :: rest)) =
      .ok (c, rest) := by
  have hdigits : takeHexDigits 0 (Bytes.ofAscii (Nat.toDigits 16 c.toNat) ++ 0x7d :: rest) =
      (c, 0x7d :: rest) := by
    have hbrace : isHexDigit 0x7d = false := rfl
    rw [takeHexDigits_toDigits (UInt32.le_iff_toNat_le.1 h), takeHexDigits,
      if_neg (by simp [hbrace]), UInt32.ofNat_toNat]
  have hhead : (Bytes.ofAscii (Nat.toDigits 16 c.toNat) ++ 0x7d :: rest).head? ≠ some 0x7d := by
    obtain ⟨ch, l, hl⟩ := List.exists_cons_of_ne_nil (Nat.toDigits_ne_nil (b := 16) (n := c.toNat))
    obtain ⟨d, hd, rfl⟩ := exists_digitChar (hl ▸ List.mem_cons_self : ch ∈ _)
    rw [hl]
    intro heq
    have hbyte : UInt8.ofNat d.digitChar.toNat = 0x7d := Option.some.inj heq
    have hdigit := (hexValue_digitChar d hd).1
    rw [hbyte] at hdigit
    cases hdigit
  rw [readUnicode, hdigits]
  exact if_neg hhead

end Escape

/-- A code point is written as one byte of the same number, or as an escape. -/
theorem ofAscii_written_cases (c : CodePoint) :
    (c.isPlain = true ∧ ∃ b : UInt8, b.toNat = c.toNat ∧ Bytes.ofAscii c.written = [b]) ∨
      Bytes.ofAscii c.written =
        0x5c :: 0x75 :: 0x7b :: (Bytes.ofAscii (Nat.toDigits 16 c.toNat) ++ [0x7d]) := by
  unfold CodePoint.written
  split
  · next hplain =>
    obtain ⟨-, hlt, -⟩ := CodePoint.isPlain_iff.1 hplain
    refine .inl ⟨hplain, .ofNat (Char.ofNat c.toNat).toNat, ?_, rfl⟩
    rw [CodePoint.toNat_ofNat_plain hplain]
    exact UInt8.toNat_ofNat_of_lt' (Nat.lt_trans hlt (by decide))
  · exact .inr (congrArg (0x5c :: 0x75 :: 0x7b :: ·) (Bytes.ofAscii_append _ _))

/-- **A written code point is read as itself.** -/
theorem classChar_written (h : c ≤ 0x10ffff) :
    ClassChar (Bytes.ofAscii c.written ++ rest) c rest := by
  rcases ofAscii_written_cases c with ⟨hplain, b, hb, heq⟩ | heq
  · obtain ⟨-, hlt, -, -, hend, hslash⟩ := CodePoint.isPlain_iff.1 hplain
    rw [heq]
    refine .plain (fun hbyte ↦ hslash ?_) (fun hbyte ↦ hend ?_) ?_
    · rw [← hb, hbyte]
      rfl
    · rw [← hb, hbyte]
      rfl
    · have hascii : b < 0x80 := UInt8.lt_iff_toNat_lt.2 (hb ▸ Nat.lt_trans hlt (by decide))
      have hcode : b.toUInt32 = c := UInt32.toNat_inj.1 (UInt8.toNat_toUInt32 b ▸ hb)
      rw [Utf8.decode, if_pos hascii, hcode]
      rfl
  · have hread : Escape.read (0x75 :: 0x7b :: (Bytes.ofAscii (Nat.toDigits 16 c.toNat) ++
        0x7d :: rest)) = .ok (c, rest) := Escape.readUnicode_escaped h
    simp only [heq, List.cons_append, List.append_assoc, List.nil_append]
    refine .escaped (fun b hb ↦ ?_) hread
    obtain rfl := Option.some.inj hb
    exact ⟨by decide, by decide, fun href ↦ absurd href.2 (by decide)⟩

/-! ## Reading items -/

theorem head?_ofAscii_written_append : (Bytes.ofAscii c.written ++ rest).head? ≠ some 0x2d := by
  rcases ofAscii_written_cases c with ⟨hplain, b, hb, heq⟩ | heq
  · obtain ⟨-, -, hdash, -⟩ := CodePoint.isPlain_iff.1 hplain
    rw [heq]
    intro hhead
    obtain rfl : b = 0x2d := Option.some.inj hhead
    exact hdash hb.symm
  · rw [heq]
    exact nofun

theorem head?_ofAscii_writtenItem {items : List CodeRange} :
    (Bytes.ofAscii (items.flatMap CodeRange.writtenItem) ++ 0x5d :: rest).head? ≠ some 0x2d := by
  cases items with
  | nil => exact nofun
  | cons r items =>
    rw [List.flatMap_cons, CodeRange.writtenItem, List.append_assoc, Bytes.ofAscii_append,
      List.append_assoc]
    exact head?_ofAscii_written_append

theorem Grammar.ClassChar.dash (h : ClassChar t c rest) : Dash (0x2d :: t) t := by
  obtain ⟨hne, hend, -⟩ := h.start
  obtain ⟨b, u, rfl⟩ := List.exists_cons_of_ne_nil hne
  exact ⟨rfl, b, u, rfl, fun hb ↦ hend (congrArg some hb)⟩

/-- The class that items are read as. -/
def CharClass.ofItems (items : List CodeRange) : CharClass :=
  ⟨false, items.map fun r ↦ .range r.lo r.hi⟩

/-- **Written items are read as they were written.** -/
theorem readItems_writtenItem {items : List CodeRange}
    (h : ∀ r ∈ items, r.lo ≤ r.hi ∧ r.hi ≤ 0x10ffff) :
    CharClass.readItems (Bytes.ofAscii (items.flatMap CodeRange.writtenItem) ++ 0x5d :: rest) =
      .ok ((CharClass.ofItems items).items, rest) := by
  unfold CharClass.ofItems
  induction items with
  | nil =>
    rw [List.flatMap_nil, Bytes.ofAscii, List.map_nil, List.nil_append, CharClass.readItems]
    rfl
  | cons r items ih =>
    obtain ⟨⟨hle, hmax⟩, hitems⟩ := List.forall_mem_cons.1 h
    have hlo : r.lo ≤ 0x10ffff := UInt32.le_trans hle hmax
    rw [List.flatMap_cons, CodeRange.writtenItem, List.append_assoc, Bytes.ofAscii_append,
      Bytes.ofAscii_append, List.append_assoc, List.append_assoc, List.map_cons]
    split
    · next hsingle =>
      rw [hsingle]
      refine readItems_of_char (classChar_written hlo) (fun u hdash ↦ ?_) (ih hitems)
      exact head?_ofAscii_writtenItem (congrArg List.head? hdash.1)
    · have hhi : ∀ {u : Bytes}, ClassChar (Bytes.ofAscii r.hi.written ++ u) r.hi u :=
        classChar_written hmax
      exact readItems_of_range (classChar_written hlo) hhi.dash hhi hle (ih hitems)

/-! ## The set that is read -/

theorem Encoding.maxCodePoint_le (encoding : Encoding) : encoding.maxCodePoint ≤ 0x10ffff := by
  cases encoding <;> decide

/-- **The items of a set make up the set.** -/
theorem CharClass.set_ofItems {encoding : Encoding} (h : encoding.Fits s) :
    (ofItems s.items).set encoding = s := by
  obtain ⟨hcanonical, hle⟩ := h
  have hranges : (ofItems s.items).ranges = s.items := by
    simp [ofItems, ranges, List.filterMap_map]
  have hescapes : (ofItems s.items).escapes = [] := by simp [ofItems, escapes]
  have hitems : CodePointSet.ofRanges s.items = s :=
    hcanonical.ofRanges_eq encoding.toNat_maxCodePoint hle fun _ ↦ hcanonical.mem_items
  have hlisted : s.union .empty = s := by
    refine hcanonical.ofRanges_eq encoding.toNat_maxCodePoint hle fun c ↦ ?_
    rw [CodePointSet.empty, List.append_nil]
    exact CodePointSet.mem_iff.symm
  have hfull : s.intersect encoding.fullSet = s := by
    by_contra hne
    obtain ⟨c, hc, hnot⟩ :=
      CodePointSet.exists_mem_of_intersect_ne hcanonical encoding.canonical_fullSet hne
    exact hnot (Encoding.mem_fullSet.2 (hle c hc))
  rw [set, hranges, hescapes, List.foldl_nil, hitems, hlisted]
  exact hfull

/-! ## The pattern -/

theorem head?_items_ne (hs : s.Canonical) (hcaret : 0x5e ∈ s → ∃ c ∈ s, c < 0x5e) :
    (Bytes.ofAscii (s.items.flatMap CodeRange.writtenItem) ++ 0x5d :: rest).head? ≠ some 0x5e := by
  obtain ⟨ranges⟩ := s
  cases ranges with
  | nil =>
    intro hhead
    cases hhead
  | cons r ranges =>
    obtain ⟨u, hu⟩ := r.exists_flatMap_items_eq
    rw [CodePointSet.items, List.flatMap_cons, List.flatMap_append, hu, List.append_assoc,
      Bytes.ofAscii_append, List.append_assoc]
    rcases ofAscii_written_cases r.lo with ⟨-, b, hb, heq⟩ | heq
    · rw [heq]
      intro hhead
      obtain rfl : b = 0x5e := Option.some.inj hhead
      have hlo : r.lo = 0x5e := UInt32.toNat_inj.1 hb.symm
      obtain ⟨c, hc, hlt⟩ := hcaret (hlo ▸ CodePointSet.lo_mem hs)
      have hle := CodePointSet.lo_le_of_mem hs hc
      rw [hlo] at hle
      exact absurd (UInt32.lt_iff_toNat_lt.1 hlt) (Nat.not_lt.2 hle)
    · rw [heq]
      intro hhead
      cases hhead

/-- **The written form of a set is read as one class.** -/
theorem event_read_toString {encoding : Encoding} (h : encoding.Fits s)
    (hcaret : 0x5e ∈ s → ∃ c ∈ s, c < 0x5e) :
    Event.read (Bytes.ofString s.toString).untilZero =
      [.atom (.bracket (.ofItems s.items)) .once] := by
  have hbytes : (Bytes.ofString s.toString).untilZero =
      0x5b :: (Bytes.ofAscii (s.items.flatMap CodeRange.writtenItem) ++ [0x5d]) := by
    rw [CodePointSet.toString, Bytes.ofString_ofList fun _ ↦ CodePointSet.isText_of_mem_written,
      Bytes.untilZero_eq_self
        (Bytes.zero_notMem_ofAscii fun _ ↦ CodePointSet.isText_of_mem_written),
      CodePointSet.written_eq]
    exact congrArg (0x5b :: ·) (Bytes.ofAscii_append _ _)
  have hitems : CharClass.readItems
      (Bytes.ofAscii (s.items.flatMap CodeRange.writtenItem) ++ [0x5d]) =
        .ok ((CharClass.ofItems s.items).items, []) := by
    refine readItems_writtenItem fun r hr ↦ ?_
    have hle := h.1.le_of_mem_items hr
    have hmem : r.hi ∈ s := h.1.mem_items.1 ⟨r, hr, hle, UInt32.le_refl _⟩
    exact ⟨hle, UInt32.le_trans (h.2 _ hmem) encoding.maxCodePoint_le⟩
  have hpart : Part.ofToken .openClass
      (Bytes.ofAscii (s.items.flatMap CodeRange.writtenItem) ++ [0x5d]) =
        .ok (.atom (.bracket (.ofItems s.items)), []) := by
    rw [Part.ofToken, CharClass.read_of_head_ne (head?_items_ne h.1 hcaret), hitems]
    rfl
  have hquantifier : Quantifier.read [] = .ok (.once, []) := rfl
  rw [hbytes, event_read_atom (read_of_ofToken rfl hpart) hquantifier,
    event_read_nil (s := []) rfl]

/-! ## The tree -/

/-- The pattern of the tree is one class and nothing else. -/
def Tree.IsClass (t : Tree) (s : CodePointSet) : Prop :=
  ∃ sequence atom, (t.node t.root).kind = .group { capture := some 0 } ∧
    (t.node t.root).children = #[sequence] ∧ (t.node sequence).kind = .sequence ∧
    (t.node sequence).children = #[atom] ∧ (t.node atom).kind = .chars s none ∧
    (t.node atom).children = #[]

/-- The nodes of a class that has been read. -/
def Arena.ofClass (s : CodePointSet) : Arena where
  nodes := #[
    { kind := .group { capture := some 0 }, children := #[1] },
    { kind := .sequence, parent := some 0, children := #[2] },
    { kind := .chars s none, parent := some 1 }]

theorem isClass_finish (s : CodePointSet) (encoding : Encoding) :
    ((Arena.ofClass s).finish encoding 0 1).IsClass s := by
  refine ⟨1, 2, ?_⟩
  cbv

theorem ofEvents_bracket (o : Options) (c : CharClass) :
    Tree.ofEvents o [.atom (.bracket c) .once] =
      .ok ((Arena.ofClass (c.set o.encoding)).finish o.encoding 0 1) := rfl

/-- **Written sets are read back, and no two of them are written alike.** -/
theorem readBack_toString :
    (∀ (o : Options) (s : CodePointSet), o.encoding.Fits s → (0x5e ∈ s → ∃ c ∈ s, c < 0x5e) →
      ∃ t, Tree.ofPattern o (.ofString s.toString) = .ok t ∧ t.IsClass s) ∧
    ∀ s t : CodePointSet, s.Canonical → t.Canonical → s.toString = t.toString → s = t := by
  refine ⟨fun o s hs hcaret ↦ ?_, fun s t hs ht ↦ hs.eq_of_toString_eq ht⟩
  have htree := ofEvents_bracket o (.ofItems s.items)
  rw [CharClass.set_ofItems hs, ← event_read_toString hs hcaret] at htree
  exact ⟨_, by rw [Tree.ofPattern, htree]; rfl, isClass_finish s o.encoding⟩

/-- A set that is written with a dash, the closing bracket and a circumflex, and two sets that start
with a circumflex. -/
theorem readBack_toString_circumflex :
    (∃ t, Tree.ofPattern {} (.ofString (CodePointSet.toString ⟨[⟨0x2b, 0x2d⟩, ⟨0x5d, 0x5e⟩]⟩)) =
      .ok t ∧ t.IsClass ⟨[⟨0x2b, 0x2d⟩, ⟨0x5d, 0x5e⟩]⟩) ∧
    CodePointSet.toString ⟨[⟨0x5e, 0x5e⟩]⟩ ≠ CodePointSet.toString ⟨[⟨0x5e, 0xffffffff⟩]⟩ := by
  have hcanonical : ∀ lo hi : CodePoint, lo ≤ hi → CodePointSet.Canonical ⟨[⟨lo, hi⟩]⟩ :=
    fun _ _ hle ↦ ⟨List.forall_mem_singleton.2 hle, List.pairwise_singleton _ _⟩
  constructor
  · refine readBack_toString.1 {} _ ⟨?_, ?_⟩ fun _ ↦ ⟨0x2b, by decide, by decide⟩
    · exact CodePointSet.canonical_cons.2 ⟨by decide, by decide, hcanonical _ _ (by decide)⟩
    · rintro c ⟨r, hr, -, hc⟩
      have hhi : ∀ r ∈ ([⟨0x2b, 0x2d⟩, ⟨0x5d, 0x5e⟩] : List CodeRange), r.hi ≤ 0x10ffff := by decide
      exact UInt32.le_trans hc (hhi r hr)
  · intro heq
    have h := readBack_toString.2 _ _ (hcanonical _ _ (by decide)) (hcanonical _ _ (by decide)) heq
    exact absurd h (by decide)

end PatternAutomata
