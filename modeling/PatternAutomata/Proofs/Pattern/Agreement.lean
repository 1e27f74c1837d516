import PatternAutomata.Proofs.Pattern.Cursor

/-!
# Readers of text and of memory agree

`Agrees f s x` says that in front of the text `s`, whatever is behind the zero byte that ends it,
the reader in memory `f` comes to the same as a reader of text that comes to `x`. So the one in
memory is never stuck.

## The invariant

Wherever a reader of text stops, with a value or a fault, it has a suffix of the text left. `Agrees`
takes this along. It gives the rules by which readers are put together: what is read next starts in
front of a text again, in which there is no zero byte either.
-/

namespace PatternAutomata

/-- A failure is placed where a suffix of the text is left. -/
def PatternError.PlacedIn (s : Bytes) (e : ReadError) : Prop :=
  ∀ fault left, e = .located fault left → left <:+ s

namespace Cursor

variable {α β : Type} {f : Cursor α} {g : α → Cursor β} {a : α} {s t : Bytes} {e : ReadError}
  {x : Except ReadError (α × Bytes)}

/-! ## Agreement -/

/-- What a reader of text comes to, with more behind the text. -/
def extend (tail : Bytes) : Except ReadError (α × Bytes) → Except ReadError (α × Bytes)
  | .error e => .error (e.map (· ++ tail))
  | .ok (a, rest) => .ok (a, rest ++ tail)

/-- What a reader of text leaves is a suffix of the text. -/
def Inside (s : Bytes) : Except ReadError (α × Bytes) → Prop
  | .error e => e.PlacedIn s
  | .ok (_, rest) => rest <:+ s

/-- In front of a text a reader in memory does the same as a reader of text. -/
def Agrees (f : Cursor α) (s : Bytes) (x : Except ReadError (α × Bytes)) : Prop :=
  0 ∉ s → (∀ junk, f (s ++ 0 :: junk) = some (extend (0 :: junk) x)) ∧ Inside s x

theorem Inside.mono {y : Except ReadError (β × Bytes)} (h : Inside t y) (hts : t <:+ s) :
    Inside s y := by
  cases y with
  | error e => exact fun fault left he ↦ (h fault left he).trans hts
  | ok p => exact List.IsSuffix.trans h hts

theorem Inside.not_mem (h : Inside s (.ok (a, t))) (hs : 0 ∉ s) : 0 ∉ t :=
  fun hmem ↦ hs (List.IsSuffix.subset h hmem)

theorem bind_apply (f : Cursor α) (g : α → Cursor β) (m : Bytes) :
    (f >>= g) m = ((f m : ExceptT ReadError Option (α × Bytes)) >>= fun p ↦ g p.1 p.2) := rfl

theorem length_append_lt (h : t.length < s.length) (tail : Bytes) :
    (t ++ tail).length < (s ++ tail).length := by
  simpa using h

namespace Agrees

theorem of_text (h : 0 ∉ s → Agrees f s x) : Agrees f s x := fun hs ↦ h hs hs

theorem of_eq {y : Except ReadError (α × Bytes)} (h : Agrees f s y) (hyx : y = x) :
    Agrees f s x := hyx ▸ h

theorem pure (a : α) : Agrees (Pure.pure a) s (.ok (a, s)) :=
  fun _ ↦ ⟨fun _ ↦ rfl, List.suffix_refl s⟩

theorem fail (fault : Fault) : Agrees (fail fault : Cursor α) s (.error (.located fault s)) := by
  refine fun _ ↦ ⟨fun _ ↦ rfl, fun _ left he ↦ ?_⟩
  cases he
  exact List.suffix_refl s

theorem refuse : Agrees (refuse : Cursor α) s (.error .badUnicodeEscape) :=
  fun _ ↦ ⟨fun _ ↦ rfl, nofun⟩

/-- **One reader after another.** -/
theorem bind {y : Except ReadError (β × Bytes)} (hf : Agrees f s (.ok (a, t)))
    (hg : Agrees (g a) t y) : Agrees (f >>= g) s y := by
  intro hs
  obtain ⟨hrun, hts⟩ := hf hs
  obtain ⟨hrun', hinside⟩ := hg (hts.not_mem hs)
  refine ⟨fun junk ↦ ?_, hinside.mono hts⟩
  rw [bind_apply, hrun junk]
  exact hrun' junk

theorem bind_error (hf : Agrees f s (.error e)) : Agrees (f >>= g) s (.error e) := by
  intro hs
  obtain ⟨hrun, hinside⟩ := hf hs
  refine ⟨fun junk ↦ ?_, hinside⟩
  rw [bind_apply, hrun junk]
  rfl

theorem map (h : Agrees f s x) (g : α → β) :
    Agrees (f >>= fun a ↦ Pure.pure (g a)) s (x.map fun p ↦ (g p.1, p.2)) := by
  cases x with
  | error e => exact .bind_error h
  | ok p => exact .bind h (.pure _)

theorem byte {n : Nat} (hn : n ≤ s.length) : Agrees (byte n) s (.ok (s.getD n 0, s)) := by
  refine fun hs ↦ ⟨fun junk ↦ ?_, List.suffix_refl s⟩
  have hahead : ahead n (s ++ 0 :: junk) = some (s.getD n 0) := by
    induction s generalizing n with
    | nil =>
      obtain rfl := Nat.le_zero.1 hn
      rfl
    | cons b s ih =>
      obtain ⟨hb, hs⟩ := not_or.1 (mt List.mem_cons.2 hs)
      cases n with
      | zero => rfl
      | succ n =>
        rw [List.cons_append, ahead, if_neg (Ne.symm hb), ih (Nat.le_of_succ_le_succ hn) hs]
        rfl
  exact congrArg (Option.map fun b ↦ Except.ok (b, s ++ 0 :: junk)) hahead

theorem skip {n : Nat} (hn : n ≤ s.length) : Agrees (skip n) s (.ok ((), s.drop n)) := by
  refine fun hs ↦ ⟨fun junk ↦ ?_, List.drop_suffix n s⟩
  have honward : onward n (s ++ 0 :: junk) = some (s.drop n ++ 0 :: junk) := by
    induction s generalizing n with
    | nil =>
      obtain rfl := Nat.le_zero.1 hn
      rfl
    | cons b s ih =>
      obtain ⟨hb, hs⟩ := not_or.1 (mt List.mem_cons.2 hs)
      cases n with
      | zero => rfl
      | succ n =>
        rw [List.cons_append, onward, if_neg (Ne.symm hb), ih (Nat.le_of_succ_le_succ hn) hs]
        rfl
  exact congrArg (Option.map fun m ↦ Except.ok ((), m)) honward

/-! What the rules give for the texts that readers tell apart. -/

theorem byte_end : Agrees (Cursor.byte 0) [] (.ok (0, [])) := byte (Nat.zero_le _)

theorem byte_first {b : UInt8} : Agrees (Cursor.byte 0) (b :: t) (.ok (b, b :: t)) :=
  byte (Nat.zero_le _)

theorem byte_second {b : UInt8} : Agrees (Cursor.byte 1) (b :: t) (.ok (t.headD 0, b :: t)) := by
  have h := byte (n := 1) (s := b :: t) (Nat.le_add_left 1 _)
  cases t <;> exact h

theorem byte_third {b c : UInt8} :
    Agrees (Cursor.byte 2) (b :: c :: t) (.ok (t.headD 0, b :: c :: t)) := by
  have h := byte (n := 2) (s := b :: c :: t) (Nat.le_add_left 2 _)
  cases t <;> exact h

theorem skip_one {b : UInt8} : Agrees (Cursor.skip 1) (b :: t) (.ok ((), t)) :=
  skip (Nat.le_add_left 1 _)

theorem skip_two {b c : UInt8} : Agrees (Cursor.skip 2) (b :: c :: t) (.ok ((), t)) :=
  skip (Nat.le_add_left 2 _)

end Agrees

/-- What a loop comes to in a text. -/
def taken (step : β → UInt8 → Option β) : β → Bytes → β × Bytes
  | value, [] => (value, [])
  | value, b :: s =>
    match step value b with
    | none => (value, b :: s)
    | some value => taken step value s

/-- A reader that takes bytes as a loop does comes to the same. -/
theorem taken_eq (step : β → UInt8 → Option β) (take : β → Bytes → β × Bytes)
    (hnil : ∀ value, take value [] = (value, []))
    (hcons : ∀ value b s,
      take value (b :: s) = (step value b).elim (value, b :: s) fun value ↦ take value s)
    (value : β) (s : Bytes) : taken step value s = take value s := by
  induction s generalizing value with
  | nil => exact (hnil value).symm
  | cons b s ih =>
    rw [taken, hcons]
    cases step value b with
    | none => rfl
    | some value' => exact ih value'

namespace Agrees

/-- A loop that no zero byte continues. -/
theorem loop {step : β → UInt8 → Option β} (hzero : ∀ value, step value 0 = none) (value : β) :
    Agrees (loop step value) s (.ok (taken step value s)) := by
  induction s generalizing value with
  | nil =>
    refine fun _ ↦ ⟨fun junk ↦ ?_, List.suffix_refl _⟩
    rw [List.nil_append, Cursor.loop, hzero]
    rfl
  | cons b s ih =>
    intro hs
    obtain ⟨hb, hs⟩ := not_or.1 (mt List.mem_cons.2 hs)
    rw [taken]
    cases hstep : step value b with
    | none =>
      refine ⟨fun junk ↦ ?_, List.suffix_refl _⟩
      rw [List.cons_append, Cursor.loop, hstep]
      rfl
    | some value' =>
      obtain ⟨hrun, hinside⟩ := ih value' hs
      refine ⟨fun junk ↦ ?_, List.IsSuffix.trans hinside (List.suffix_cons b s)⟩
      rw [List.cons_append, Cursor.loop, hstep]
      exact (if_neg (Ne.symm hb)).trans (hrun junk)

theorem moving (h : Agrees f s x) (hmoves : ∀ a rest, x = .ok (a, rest) → rest.length < s.length) :
    Agrees (moving f) s x := by
  intro hs
  obtain ⟨hrun, hinside⟩ := h hs
  refine ⟨fun junk ↦ ?_, hinside⟩
  rw [Cursor.moving, hrun junk]
  cases x with
  | error e => rfl
  | ok p =>
    exact if_pos (length_append_lt (hmoves p.1 p.2 rfl) _)

end Agrees

/-! ## Moving on -/

/-- In front of a text the reader is not stuck, and if it does not fail, it moves on, but not beyond
the text. -/
def MovesIn (f : Cursor α) (s : Bytes) : Prop :=
  ∀ junk, (∃ e, f (s ++ 0 :: junk) = some (.error e)) ∨
    ∃ a rest, f (s ++ 0 :: junk) = some (.ok (a, rest ++ 0 :: junk)) ∧ rest <:+ s ∧
      rest.length < s.length

theorem Agrees.movesIn (h : Agrees f s x) (hs : 0 ∉ s)
    (hmoves : ∀ a rest, x = .ok (a, rest) → rest.length < s.length) : MovesIn f s := by
  obtain ⟨hrun, hinside⟩ := h hs
  intro junk
  cases x with
  | error e => exact .inl ⟨_, hrun junk⟩
  | ok p => exact .inr ⟨p.1, p.2, hrun junk, hinside, hmoves p.1 p.2 rfl⟩

end Cursor

end PatternAutomata
