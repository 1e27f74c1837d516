import Mathlib.Data.List.Induction
import Mathlib.Data.List.TakeWhile
import Mathlib.Data.Nat.Digits.Defs
import PatternAutomata.Settings.Options

/-!
# What a list of options says

A list of options is a list of settings, each of which gives a value to an option. This module says
how values, settings and lists of them are written, and that reading goes by that: a list is read
if and only if all of its items are settings, an option has the value that it has been given last,
and otherwise the first item that is no setting is reported.
-/

namespace PatternAutomata

namespace Options

/-! ## Settings -/

/-- The values that an option can have. -/
abbrev Name.Value : Name → Type
  | encoding => Encoding
  | mustAdvance => Bool
  | maxState | maxTransition | maxTreeSize => Nat

def get (o : Options) : (name : Name) → name.Value
  | .encoding => o.encoding
  | .mustAdvance => o.mustAdvance
  | .maxState => o.maxState
  | .maxTransition => o.maxTransition
  | .maxTreeSize => o.maxTreeSize

def set (o : Options) : (name : Name) → name.Value → Options
  | .encoding, e => { o with encoding := e }
  | .mustAdvance, b => { o with mustAdvance := b }
  | .maxState, n => { o with maxState := n }
  | .maxTransition, n => { o with maxTransition := n }
  | .maxTreeSize, n => { o with maxTreeSize := n }

theorem get_set_self (o : Options) (name : Name) (v : name.Value) :
    (o.set name v).get name = v := by
  cases name <;> rfl

theorem get_set_of_ne (o : Options) {name other : Name} (v : name.Value) (h : name ≠ other) :
    (o.set name v).get other = o.get other := by
  cases name <;> cases other <;> first | rfl | exact absurd rfl h

theorem ext_get {o o' : Options} (h : ∀ name, o.get name = o'.get name) : o = o' := by
  obtain ⟨e, b, n, m, k⟩ := o
  obtain ⟨e', b', n', m', k'⟩ := o'
  obtain rfl : e = e' := h .encoding
  obtain rfl : b = b' := h .mustAdvance
  obtain rfl : n = n' := h .maxState
  obtain rfl : m = m' := h .maxTransition
  obtain rfl : k = k' := h .maxTreeSize
  rfl

structure Setting where
  /-- The option that is set. -/
  name : Name
  /-- The value that it is given. -/
  value : name.Value

/-- The value for an option, if it is this one that is set. -/
def Setting.value? (x : Setting) (name : Name) : Option name.Value :=
  if h : x.name = name then some (h ▸ x.value) else none

theorem Setting.value?_self (x : Setting) : x.value? x.name = some x.value := dif_pos rfl

theorem Setting.value?_of_ne {x : Setting} {name : Name} (h : x.name ≠ name) :
    x.value? name = none := dif_neg h

def lastValue? (settings : List Setting) (name : Name) : Option name.Value :=
  (settings.filterMap (·.value? name)).getLast?

theorem get_foldl_set (settings : List Setting) (o : Options) (name : Name) :
    (settings.foldl (fun o x ↦ o.set x.name x.value) o).get name =
      (lastValue? settings name).getD (o.get name) := by
  induction settings using List.reverseRecOn with
  | nil => rfl
  | append_singleton settings x ih =>
    rw [List.foldl_append, List.foldl_cons, List.foldl_nil, lastValue?, List.filterMap_append]
    by_cases h : x.name = name
    · subst h
      have hx : [x].filterMap (·.value? x.name) = [x.value] :=
        List.filterMap_cons_some (f := fun y : Setting ↦ y.value? x.name) x.value?_self
      rw [get_set_self, hx, List.getLast?_concat, Option.getD_some]
    · have hx : [x].filterMap (·.value? name) = [] :=
        List.filterMap_cons_none (f := fun y : Setting ↦ y.value? name) (Setting.value?_of_ne h)
      rw [get_set_of_ne _ _ h, ih, hx, List.append_nil, lastValue?]

/-! ## How values are written -/

/-- A number in decimal digits, of which the first ones may be zero. -/
def Numeral (text : Bytes) (n : Nat) : Prop :=
  ∃ digits : List Nat, digits ≠ [] ∧ (∀ d ∈ digits, d < 10) ∧
    text = digits.map (fun d ↦ UInt8.ofNat (0x30 + d)) ∧ n = Nat.ofDigits 10 digits.reverse

/-- A number of at most 31 bits. Zero may have a minus sign. -/
def SignedNumeral (text : Bytes) (n : Nat) : Prop :=
  n < 2 ^ 31 ∧ (Numeral text n ∨ n = 0 ∧ ∃ digits, text = 0x2d :: digits ∧ Numeral digits 0)

/-- How the value of an option is written. -/
def Name.Spells : (name : Name) → name.Value → Bytes → Prop
  | encoding, e, text => text = .ofString e.name ∨ e = .latin1 ∧ text = .ofString "BYTES"
  | mustAdvance, b, text => text = .ofString (if b then "true" else "false")
  | maxState, n, text | maxTransition, n, text => SignedNumeral text n
  | maxTreeSize, n, text => n < 2 ^ 64 ∧ Numeral text n

/-- How a setting is written. -/
def Setting.Writes (x : Setting) (item : Bytes) : Prop :=
  ∃ text, item = Bytes.ofString x.name.spelling ++ 0x3d :: text ∧ x.name.Spells x.value text

/-- What is wrong with an item that is no setting. -/
inductive Faulty : Bytes → OptionError → Prop
  | noValue {item : Bytes} : 0x3d ∉ item → Faulty item (.noValue item)
  | unknownName {name text : Bytes} : 0x3d ∉ name → (∀ n : Name, name ≠ .ofString n.spelling) →
      Faulty (name ++ 0x3d :: text) (.unknownName name)
  | badValue (name : Name) {text : Bytes} : (∀ v, ¬name.Spells v text) →
      Faulty (Bytes.ofString name.spelling ++ 0x3d :: text)
        (.badValue (.ofString name.spelling) text)

/-- The items of a list, with commas between them. There may be one more comma at the very end, and
if the last item is empty there is. -/
def Lists (items : List Bytes) (s : Bytes) : Prop :=
  (∀ item ∈ items, 0x2c ∉ item) ∧ (s = [0x2c].intercalate items ∧ items.getLast? ≠ some [] ∨
    items ≠ [] ∧ s = [0x2c].intercalate items ++ [0x2c])

/-! ## Reading values -/

section Values

variable {text : Bytes} {n max : Nat}

theorem isDigit_iff {b : UInt8} : isDigit b = true ↔ ∃ d < 10, b = .ofNat (0x30 + d) := by
  rw [isDigit, Bool.and_eq_true, decide_eq_true_iff, decide_eq_true_iff, UInt8.le_iff_toNat_le,
    UInt8.le_iff_toNat_le]
  constructor
  · rintro ⟨hlo, hhi⟩
    simp only [UInt8.reduceToNat] at hlo hhi
    refine ⟨b.toNat - 0x30, by omega, ?_⟩
    rw [Nat.add_sub_cancel' hlo, UInt8.ofNat_toNat]
  · rintro ⟨d, hd, rfl⟩
    rw [UInt8.toNat_ofNat', Nat.mod_eq_of_lt (by omega)]
    simp only [UInt8.reduceToNat]
    omega

theorem digitValue_ofNat {d : Nat} (hd : d < 10) : digitValue (.ofNat (0x30 + d)) = d := by
  rw [digitValue, UInt8.toNat_ofNat', Nat.mod_eq_of_lt (by omega), Nat.add_sub_cancel_left]

/-- Taking in digits from the left is to sum up their values by place. -/
theorem foldl_digits {digits : List Nat} (h : ∀ d ∈ digits, d < 10) :
    (digits.map fun d ↦ UInt8.ofNat (0x30 + d)).foldl (fun n d ↦ 10 * n + digitValue d) 0 =
      Nat.ofDigits 10 digits.reverse := by
  induction digits using List.reverseRecOn with
  | nil => rfl
  | append_singleton digits d ih =>
    rw [List.map_append, List.map_singleton, List.foldl_append, List.foldl_cons, List.foldl_nil,
      List.reverse_concat, Nat.ofDigits_cons, digitValue_ofNat (h d (List.mem_concat_self)),
      ih fun d hd ↦ h d (List.mem_append_left _ hd), Nat.add_comm]

theorem exists_digits (h : ∀ b ∈ text, isDigit b = true) :
    ∃ digits : List Nat, (∀ d ∈ digits, d < 10) ∧
      text = digits.map fun d ↦ UInt8.ofNat (0x30 + d) := by
  induction text with
  | nil => exact ⟨[], nofun, rfl⟩
  | cons b text ih =>
    obtain ⟨d, hd, rfl⟩ := isDigit_iff.1 (h b List.mem_cons_self)
    obtain ⟨digits, hdigits, rfl⟩ := ih fun b hb ↦ h b (List.mem_cons_of_mem _ hb)
    exact ⟨d :: digits, List.forall_mem_cons.2 ⟨hd, hdigits⟩, rfl⟩

theorem readDigits_eq_some_iff : readDigits text = some n ↔ Numeral text n := by
  rw [readDigits, Option.ite_none_right_eq_some, Bool.and_eq_true, Bool.not_eq_true',
    List.isEmpty_eq_false_iff, List.all_eq_true, Option.some_inj]
  constructor
  · rintro ⟨⟨hne, hall⟩, rfl⟩
    obtain ⟨digits, hdigits, rfl⟩ := exists_digits hall
    exact ⟨digits, fun hnil ↦ hne (by rw [hnil]; rfl), hdigits, rfl, foldl_digits hdigits⟩
  · rintro ⟨digits, hne, hdigits, rfl, rfl⟩
    refine ⟨⟨by simpa using hne, fun b hb ↦ ?_⟩, foldl_digits hdigits⟩
    obtain ⟨d, hd, rfl⟩ := List.mem_map.1 hb
    exact isDigit_iff.2 ⟨d, hdigits d hd, rfl⟩

theorem readUnsigned_eq_some_iff :
    readUnsigned max text = some n ↔ n ≤ max ∧ Numeral text n := by
  rw [readUnsigned, Option.filter_eq_some_iff, readDigits_eq_some_iff, decide_eq_true_iff, and_comm]

theorem not_numeral_minus : ¬Numeral (0x2d :: text) n := by
  rintro ⟨digits, -, hdigits, htext, -⟩
  have hmem : (0x2d : UInt8) ∈ digits.map fun d ↦ UInt8.ofNat (0x30 + d) :=
    htext ▸ List.mem_cons_self
  obtain ⟨d, hd, heq⟩ := List.mem_map.1 hmem
  have hdigit : isDigit 0x2d = true := isDigit_iff.2 ⟨d, hdigits d hd, heq.symm⟩
  cases hdigit

theorem readSigned_eq_some_iff : readSigned maxSigned text = some n ↔ SignedNumeral text n := by
  unfold readSigned
  split
  · next digits =>
    rw [readUnsigned_eq_some_iff, Nat.le_zero]
    constructor
    · rintro ⟨rfl, hdigits⟩
      exact ⟨by decide, .inr ⟨rfl, digits, rfl, hdigits⟩⟩
    · rintro ⟨-, hnumeral | ⟨rfl, digits', heq, hdigits⟩⟩
      · exact absurd hnumeral not_numeral_minus
      · cases heq
        exact ⟨rfl, hdigits⟩
  · next hsign =>
    rw [readUnsigned_eq_some_iff]
    constructor
    · rintro ⟨hle, hnumeral⟩
      exact ⟨Nat.lt_succ_of_le hle, .inl hnumeral⟩
    · rintro ⟨hlt, hnumeral | ⟨-, digits, rfl, -⟩⟩
      · exact ⟨Nat.le_of_lt_succ hlt, hnumeral⟩
      · exact absurd rfl (hsign digits)

end Values

theorem find?_named {α : Type} {all : List α} {written : α → Bytes} (hall : ∀ x, x ∈ all)
    (hwritten : ∀ x y, written x = written y → x = y) {text : Bytes} {x : α} :
    all.find? (fun y ↦ text = written y) = some x ↔ text = written x := by
  have hfound : ∀ {y}, all.find? (fun y ↦ text = written y) = some y → text = written y :=
    fun h ↦ of_decide_eq_true (List.find?_some (p := fun y ↦ decide (text = written y)) h)
  refine ⟨hfound, fun hx ↦ ?_⟩
  cases hfind : all.find? fun y ↦ text = written y with
  | none => exact absurd hx (by simpa using List.find?_eq_none.1 hfind x (hall x))
  | some y => rw [hwritten y x ((hfound hfind).symm.trans hx)]

theorem ofSpelling?_eq_some_iff {text : Bytes} {name : Name} :
    Name.ofSpelling? text = some name ↔ text = .ofString name.spelling :=
  find?_named (by intro x; cases x <;> decide)
    (by intro x y; cases x <;> cases y <;> first | exact fun _ ↦ rfl | decide +kernel)

theorem ofName?_eq_some_iff {text : Bytes} {e : Encoding} :
    Encoding.ofName? text = some e ↔ Name.encoding.Spells e text := by
  have hnamed : Encoding.all.find? (fun e ↦ text = .ofString e.name) = some e ↔
      text = .ofString e.name :=
    find?_named (by intro x; cases x <;> decide)
      (by intro x y; cases x <;> cases y <;> first | exact fun _ ↦ rfl | decide +kernel)
  have hother : ∀ e : Encoding, Bytes.ofString "BYTES" ≠ .ofString e.name := by
    intro e
    cases e <;> decide +kernel
  unfold Encoding.ofName? Name.Spells
  split_ifs with hbytes
  · subst hbytes
    simp [hother, eq_comm]
  · simp [hnamed, hbytes]

theorem readBool_eq_some_iff {text : Bytes} {b : Bool} :
    readBool text = some b ↔ Name.mustAdvance.Spells b text := by
  have hne : Bytes.ofString "false" ≠ .ofString "true" := by decide +kernel
  unfold readBool Name.Spells
  split_ifs with htrue hfalse
  · subst htrue
    cases b <;> simp [hne.symm]
  · subst hfalse
    cases b <;> simp [hne]
  · cases b <;> simp [htrue, hfalse]

/-- **An option takes just the values that are spelled out.** -/
theorem set?_eq_some_iff {o o' : Options} {name : Name} {text : Bytes} :
    o.set? name text = some o' ↔ ∃ v, name.Spells v text ∧ o' = o.set name v := by
  have hmap : ∀ {α : Type} {read : Option α} {f : α → Options} {P : α → Prop},
      (∀ v, read = some v ↔ P v) → (read.map f = some o' ↔ ∃ v, P v ∧ o' = f v) := by
    intro α read f P h
    rw [Option.map_eq_some_iff]
    exact exists_congr fun v ↦ and_congr (h v) eq_comm
  cases name with
  | encoding => exact hmap fun v ↦ ofName?_eq_some_iff
  | mustAdvance => exact hmap fun v ↦ readBool_eq_some_iff
  | maxState => exact hmap fun v ↦ readSigned_eq_some_iff
  | maxTransition => exact hmap fun v ↦ readSigned_eq_some_iff
  | maxTreeSize =>
    exact hmap fun v ↦ readUnsigned_eq_some_iff.trans (and_congr_left' Nat.lt_succ_iff.symm)

/-! ## Reading items -/

variable {o o' : Options} {item s : Bytes} {items : List Bytes} {settings : List Setting}

/-- The first `=` ends the name. -/
theorem splitItem_append {name : Bytes} (h : 0x3d ∉ name) (text : Bytes) :
    splitItem (name ++ 0x3d :: text) = some (name, text) := by
  have hname : ∀ b ∈ name, (b != 0x3d) = true := fun b hb ↦ bne_iff_ne.2 fun heq ↦ h (heq ▸ hb)
  rw [splitItem, List.dropWhile_append_of_pos hname, List.takeWhile_append_of_pos hname]
  simp

theorem splitItem_of_notMem (h : 0x3d ∉ item) : splitItem item = none := by
  have hitem : ∀ b ∈ item, (b != 0x3d) = true := fun b hb ↦ bne_iff_ne.2 fun heq ↦ h (heq ▸ hb)
  rw [splitItem, List.dropWhile_eq_nil_iff.2 hitem]

theorem equals_notMem_spelling (name : Name) : 0x3d ∉ Bytes.ofString name.spelling := by
  cases name <;> decide +kernel

theorem Setting.Writes.apply {x : Setting} (h : x.Writes item) (o : Options) :
    Options.apply o item = .ok (o.set x.name x.value) := by
  obtain ⟨text, rfl, hspells⟩ := h
  have hset : o.set? x.name text = some (o.set x.name x.value) :=
    set?_eq_some_iff.2 ⟨x.value, hspells, rfl⟩
  rw [Options.apply, splitItem_append (equals_notMem_spelling _)]
  dsimp only
  rw [ofSpelling?_eq_some_iff.2 rfl]
  dsimp only
  rw [hset]
  rfl

theorem Faulty.apply {e : OptionError} (h : Faulty item e) (o : Options) :
    Options.apply o item = .error e := by
  cases h with
  | noValue hnone =>
    rw [Options.apply, splitItem_of_notMem hnone]
    rfl
  | @unknownName name text hname hunknown =>
    have hfind : Name.ofSpelling? name = none := Option.eq_none_iff_forall_ne_some.2 fun n hn ↦
      hunknown n (ofSpelling?_eq_some_iff.1 hn)
    rw [Options.apply, splitItem_append hname]
    dsimp only
    rw [hfind]
    rfl
  | @badValue name text hvalue =>
    have hset : o.set? name text = none := Option.eq_none_iff_forall_ne_some.2 fun o' ho' ↦ by
      obtain ⟨v, hv, -⟩ := set?_eq_some_iff.1 ho'
      exact hvalue v hv
    rw [Options.apply, splitItem_append (equals_notMem_spelling _)]
    dsimp only
    rw [ofSpelling?_eq_some_iff.2 rfl]
    dsimp only
    rw [hset]
    rfl

theorem writes_or_faulty (item : Bytes) :
    (∃ x : Setting, x.Writes item) ∨ ∃ e, Faulty item e := by
  by_cases hequals : 0x3d ∈ item
  · obtain ⟨name, text, rfl, hname⟩ := List.eq_append_cons_of_mem hequals
    by_cases hknown : ∃ n : Name, name = Bytes.ofString n.spelling
    · obtain ⟨n, rfl⟩ := hknown
      by_cases hvalue : ∃ v, n.Spells v text
      · obtain ⟨v, hv⟩ := hvalue
        exact .inl ⟨⟨n, v⟩, text, rfl, hv⟩
      · exact .inr ⟨_, .badValue n (not_exists.1 hvalue)⟩
    · exact .inr ⟨_, .unknownName hname (not_exists.1 hknown)⟩
  · exact .inr ⟨_, .noValue hequals⟩

/-! ## Reading lists -/

theorem splitItems_append (h : 0x2c ∉ item) (rest : Bytes) :
    splitItems (item ++ 0x2c :: rest) = item :: splitItems rest := by
  induction item with
  | nil => rw [List.nil_append, splitItems, if_pos rfl]
  | cons b item ih =>
    rw [List.mem_cons, not_or] at h
    rw [List.cons_append, splitItems, if_neg (Ne.symm h.1), ih h.2]

theorem splitItems_of_notMem (h : 0x2c ∉ item) (hne : item ≠ []) : splitItems item = [item] := by
  induction item with
  | nil => exact absurd rfl hne
  | cons b item ih =>
    rw [List.mem_cons, not_or] at h
    rw [splitItems, if_neg (Ne.symm h.1)]
    cases item with
    | nil => rfl
    | cons b' item => rw [ih h.2 (List.cons_ne_nil _ _)]

theorem splitItems_intercalate (hcomma : ∀ item ∈ items, 0x2c ∉ item)
    (hlast : items.getLast? ≠ some []) : splitItems ([0x2c].intercalate items) = items := by
  induction items with
  | nil => rfl
  | cons item items ih =>
    obtain ⟨hitem, hitems⟩ := List.forall_mem_cons.1 hcomma
    cases items with
    | nil =>
      rw [List.intercalate_singleton]
      exact splitItems_of_notMem hitem fun hnil ↦ hlast (by rw [hnil]; rfl)
    | cons next items =>
      rw [List.intercalate_cons_cons, List.append_assoc, List.singleton_append,
        splitItems_append hitem, ih hitems (List.getLast?_cons_cons ▸ hlast)]

theorem splitItems_intercalate_append (hcomma : ∀ item ∈ items, 0x2c ∉ item) (hne : items ≠ []) :
    splitItems ([0x2c].intercalate items ++ [0x2c]) = items := by
  induction items with
  | nil => exact absurd rfl hne
  | cons item items ih =>
    obtain ⟨hitem, hitems⟩ := List.forall_mem_cons.1 hcomma
    cases items with
    | nil =>
      rw [List.intercalate_singleton]
      exact splitItems_append hitem []
    | cons next items =>
      rw [List.intercalate_cons_cons, List.append_assoc, List.append_assoc, List.singleton_append,
        splitItems_append hitem, ih hitems (List.cons_ne_nil _ _)]

theorem Lists.splitItems_eq (h : Lists items s) : splitItems s = items := by
  obtain ⟨hcomma, ⟨rfl, hlast⟩ | ⟨hne, rfl⟩⟩ := h
  · exact splitItems_intercalate hcomma hlast
  · exact splitItems_intercalate_append hcomma hne

theorem Lists.cons (h : Lists items s) (hitem : 0x2c ∉ item) :
    Lists (item :: items) (item ++ 0x2c :: s) := by
  obtain ⟨hcomma, hs⟩ := h
  refine ⟨List.forall_mem_cons.2 ⟨hitem, hcomma⟩, ?_⟩
  cases items with
  | nil =>
    obtain ⟨rfl, -⟩ | ⟨hne, -⟩ := hs
    · exact .inr ⟨List.cons_ne_nil _ _, by rw [List.intercalate_singleton]; rfl⟩
    · exact absurd rfl hne
  | cons next items =>
    rw [List.intercalate_cons_cons, List.getLast?_cons_cons]
    obtain ⟨rfl, hlast⟩ | ⟨-, rfl⟩ := hs
    · exact .inl ⟨by simp, hlast⟩
    · exact .inr ⟨List.cons_ne_nil _ _, by simp⟩

theorem Lists.cons_cons {b : UInt8} (h : Lists (item :: items) s) (hb : b ≠ 0x2c) :
    Lists ((b :: item) :: items) (b :: s) := by
  obtain ⟨hcomma, hs⟩ := h
  obtain ⟨hitem, hitems⟩ := List.forall_mem_cons.1 hcomma
  have hitem' : 0x2c ∉ b :: item := List.not_mem_cons_of_ne_of_not_mem hb.symm hitem
  have hlist : [0x2c].intercalate ((b :: item) :: items) =
      b :: [0x2c].intercalate (item :: items) := by
    cases items <;> simp
  refine ⟨List.forall_mem_cons.2 ⟨hitem', hitems⟩, ?_⟩
  rw [hlist]
  obtain ⟨rfl, hlast⟩ | ⟨-, rfl⟩ := hs
  · refine .inl ⟨rfl, ?_⟩
    cases items with
    | nil => simp
    | cons next items => exact hlast
  · exact .inr ⟨List.cons_ne_nil _ _, rfl⟩

theorem lists_splitItems (s : Bytes) : Lists (splitItems s) s := by
  fun_induction splitItems s with
  | case1 => exact ⟨nofun, .inl ⟨rfl, nofun⟩⟩
  | case2 rest ih =>
    have hempty : 0x2c ∉ ([] : Bytes) := List.not_mem_nil
    exact ih.cons hempty
  | case3 b rest hb hnil ih =>
    obtain ⟨-, ⟨rfl, -⟩ | ⟨hne, -⟩⟩ := hnil ▸ ih
    · have hcomma : 0x2c ∉ [b] := fun hmem ↦ hb (List.mem_singleton.1 hmem).symm
      exact ⟨List.forall_mem_singleton.2 hcomma, .inl ⟨List.intercalate_singleton.symm, by simp⟩⟩
    · exact absurd rfl hne
  | case4 b rest hb item items hcons ih => exact (hcons ▸ ih).cons_cons hb

/-! ## Reading options -/

theorem exists_forall₂_writes :
    (∃ settings, List.Forall₂ Setting.Writes settings items) ↔
      ∀ item ∈ items, ∃ x : Setting, x.Writes item := by
  constructor
  · rintro ⟨settings, h⟩
    induction h with
    | nil => exact nofun
    | cons hx _ ih => exact List.forall_mem_cons.2 ⟨⟨_, hx⟩, ih⟩
  · intro h
    induction items with
    | nil => exact ⟨[], .nil⟩
    | cons item items ih =>
      obtain ⟨⟨x, hx⟩, hitems⟩ := List.forall_mem_cons.1 h
      obtain ⟨settings, hsettings⟩ := ih hitems
      exact ⟨x :: settings, .cons hx hsettings⟩

theorem foldlM_apply_of_writes (h : List.Forall₂ Setting.Writes settings items) (o : Options) :
    items.foldlM Options.apply o =
      .ok (settings.foldl (fun o x ↦ o.set x.name x.value) o) := by
  induction h generalizing o with
  | nil => rfl
  | cons hx _ ih =>
    rw [List.foldlM_cons, hx.apply, List.foldl_cons]
    exact ih _

theorem foldlM_apply_of_faulty {before after : List Bytes} {bad : Bytes} {e : OptionError}
    (hbefore : ∀ item ∈ before, ∃ x : Setting, x.Writes item) (hbad : Faulty bad e) (o : Options) :
    (before ++ bad :: after).foldlM Options.apply o = .error e := by
  induction before generalizing o with
  | nil =>
    rw [List.nil_append, List.foldlM_cons, hbad.apply]
    rfl
  | cons item before ih =>
    obtain ⟨⟨x, hx⟩, hbefore⟩ := List.forall_mem_cons.1 hbefore
    rw [List.cons_append, List.foldlM_cons, hx.apply]
    exact ih hbefore _

theorem writes_or_exists_faulty (items : List Bytes) :
    (∀ item ∈ items, ∃ x : Setting, x.Writes item) ∨
      ∃ before bad after e, items = before ++ bad :: after ∧
        (∀ item ∈ before, ∃ x : Setting, x.Writes item) ∧ Faulty bad e := by
  induction items with
  | nil => exact .inl nofun
  | cons item items ih =>
    obtain hitem | ⟨e, hbad⟩ := writes_or_faulty item
    · obtain hitems | ⟨before, bad, after, e, rfl, hbefore, hbad⟩ := ih
      · exact .inl (List.forall_mem_cons.2 ⟨hitem, hitems⟩)
      · exact .inr ⟨item :: before, bad, after, e, rfl,
          List.forall_mem_cons.2 ⟨hitem, hbefore⟩, hbad⟩
    · exact .inr ⟨[], item, items, e, rfl, nofun, hbad⟩

theorem comma_notMem_numeral {text : Bytes} {n : Nat} (h : Numeral text n) : 0x2c ∉ text := by
  obtain ⟨digits, -, hdigits, rfl, -⟩ := h
  intro hmem
  obtain ⟨d, hd, heq⟩ := List.mem_map.1 hmem
  have hdigit : isDigit 0x2c = true := isDigit_iff.2 ⟨d, hdigits d hd, heq.symm⟩
  cases hdigit

theorem comma_notMem_signedNumeral {text : Bytes} {n : Nat} (h : SignedNumeral text n) :
    0x2c ∉ text := by
  obtain ⟨-, hnumeral | ⟨-, digits, rfl, hdigits⟩⟩ := h
  · exact comma_notMem_numeral hnumeral
  · exact List.not_mem_cons_of_ne_of_not_mem (by decide) (comma_notMem_numeral hdigits)

theorem Name.Spells.comma_notMem {name : Name} {v : name.Value} {text : Bytes}
    (h : name.Spells v text) : 0x2c ∉ text := by
  cases name with
  | encoding =>
    obtain rfl | ⟨-, rfl⟩ := h
    · cases v <;> decide +kernel
    · decide +kernel
  | mustAdvance =>
    obtain rfl : text = .ofString (if v then "true" else "false") := h
    cases v <;> decide +kernel
  | maxState => exact comma_notMem_signedNumeral h
  | maxTransition => exact comma_notMem_signedNumeral h
  | maxTreeSize => exact comma_notMem_numeral h.2

theorem Setting.Writes.comma_notMem {x : Setting} (h : x.Writes item) : 0x2c ∉ item := by
  obtain ⟨text, rfl, hspells⟩ := h
  have hname : 0x2c ∉ Bytes.ofString x.name.spelling := by
    cases x.name <;> decide +kernel
  rw [List.mem_append, not_or]
  exact ⟨hname, List.not_mem_cons_of_ne_of_not_mem (by decide) hspells.comma_notMem⟩

theorem Setting.Writes.ne_nil {x : Setting} (h : x.Writes item) : item ≠ [] := by
  obtain ⟨text, rfl, -⟩ := h
  simp

/-- Only in front of the comma at the very end may an item be empty, and no setting is. -/
theorem lists_iff_of_writes (h : ∀ item ∈ items, ∃ x : Setting, x.Writes item) :
    Lists items s ↔
      s = [0x2c].intercalate items ∨ items ≠ [] ∧ s = [0x2c].intercalate items ++ [0x2c] := by
  have hcomma : ∀ item ∈ items, 0x2c ∉ item := fun item hitem ↦ (h item hitem).elim
    fun _ hx ↦ hx.comma_notMem
  have hlast : items.getLast? ≠ some [] := fun hnil ↦
    (h [] (List.mem_of_getLast? hnil)).elim fun _ hx ↦ hx.ne_nil rfl
  rw [Lists, and_iff_right hcomma, and_iff_left hlast]

theorem lists_iff : Lists items s ↔ splitItems s = items :=
  ⟨Lists.splitItems_eq, fun h ↦ h ▸ lists_splitItems s⟩

theorem read_eq_ok_iff : read s = .ok o ↔ ∃ settings,
    List.Forall₂ Setting.Writes settings (splitItems s) ∧
      o = settings.foldl (fun o x ↦ o.set x.name x.value) {} := by
  constructor
  · intro h
    obtain hall | ⟨before, bad, after, e, hsplit, hbefore, hbad⟩ :=
      writes_or_exists_faulty (splitItems s)
    · obtain ⟨settings, hsettings⟩ := exists_forall₂_writes.2 hall
      rw [read, foldlM_apply_of_writes hsettings] at h
      cases h
      exact ⟨settings, hsettings, rfl⟩
    · rw [read, hsplit, foldlM_apply_of_faulty hbefore hbad] at h
      cases h
  · rintro ⟨settings, hsettings, rfl⟩
    exact foldlM_apply_of_writes hsettings {}

theorem read_eq_error_iff {e : OptionError} : read s = .error e ↔ ∃ before bad after,
    splitItems s = before ++ bad :: after ∧ (∀ item ∈ before, ∃ x : Setting, x.Writes item) ∧
      Faulty bad e := by
  constructor
  · intro h
    obtain hall | ⟨before, bad, after, e', hsplit, hbefore, hbad⟩ :=
      writes_or_exists_faulty (splitItems s)
    · obtain ⟨settings, hsettings⟩ := exists_forall₂_writes.2 hall
      rw [read, foldlM_apply_of_writes hsettings] at h
      cases h
    · rw [read, hsplit, foldlM_apply_of_faulty hbefore hbad] at h
      cases h
      exact ⟨before, bad, after, hsplit, hbefore, hbad⟩
  · rintro ⟨before, bad, after, hsplit, hbefore, hbad⟩
    rw [read, hsplit]
    exact foldlM_apply_of_faulty hbefore hbad {}

/-- **Options are read exactly.** A list can be read if and only if it is empty or consists of
settings with commas between them and perhaps one more comma at the very end. Then every option has
the value that it has been given last, or its default. Otherwise what is wrong with the first item
that is no setting is reported. -/
theorem read_exact (s : Bytes) :
    ((∃ o, read s = .ok o) ↔ s = [] ∨ ∃ items : List Bytes, items ≠ [] ∧
      (s = [0x2c].intercalate items ∨ s = [0x2c].intercalate items ++ [0x2c]) ∧
      ∀ item ∈ items, ∃ x : Setting, x.Writes item) ∧
    (∀ o, read s = .ok o ↔ ∃ items settings, Lists items s ∧
      List.Forall₂ Setting.Writes settings items ∧
      ∀ name, o.get name = (lastValue? settings name).getD (({} : Options).get name)) ∧
    ∀ e, read s = .error e ↔ ∃ before bad after, Lists (before ++ bad :: after) s ∧
      (∀ item ∈ before, ∃ x : Setting, x.Writes item) ∧ Faulty bad e := by
  have hitems : (∃ o, read s = .ok o) ↔ ∀ item ∈ splitItems s, ∃ x : Setting, x.Writes item := by
    rw [← exists_forall₂_writes]
    constructor
    · rintro ⟨o, ho⟩
      obtain ⟨settings, hsettings, -⟩ := read_eq_ok_iff.1 ho
      exact ⟨settings, hsettings⟩
    · rintro ⟨settings, hsettings⟩
      exact ⟨_, read_eq_ok_iff.2 ⟨settings, hsettings, rfl⟩⟩
  refine ⟨hitems.trans ⟨fun h ↦ ?_, ?_⟩, fun o ↦ ?_, fun e ↦ ?_⟩
  · have hlist := (lists_iff_of_writes h).1 (lists_splitItems s)
    by_cases hnil : splitItems s = []
    · rw [hnil] at hlist
      exact .inl (hlist.resolve_right fun hcomma ↦ hcomma.1 rfl)
    · exact .inr ⟨splitItems s, hnil, hlist.imp_right And.right, h⟩
  · rintro (rfl | ⟨items, hne, hlist, h⟩)
    · exact nofun
    · rw [((lists_iff_of_writes h).2 (hlist.imp_right (⟨hne, ·⟩))).splitItems_eq]
      exact h
  · have hvalues (settings : List Setting) :
        o = settings.foldl (fun o x ↦ o.set x.name x.value) {} ↔
          ∀ name, o.get name = (lastValue? settings name).getD (({} : Options).get name) := by
      simp only [← get_foldl_set]
      exact ⟨fun h name ↦ by rw [h], ext_get⟩
    simp only [read_eq_ok_iff, lists_iff, hvalues, exists_eq_left', exists_and_left]
  · simp only [read_eq_error_iff, lists_iff]

/-- Only one comma at the end is free; the next one ends an empty item. -/
example : read (.ofString "MaxNFASize=-0,,") = .error (.noValue []) := by decide +kernel

end Options

end PatternAutomata
