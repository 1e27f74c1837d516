import PatternAutomata.Proofs.Pattern.Acceptance
import PatternAutomata.Proofs.Pattern.Inside

/-!
# Patterns in memory

The readers of a pattern in memory are never stuck, and they find the events of the text up to the
first zero byte. So nothing is read behind that byte and the reader does not move over it. What is
there has no effect on the tree or the fault that comes of the pattern.
-/

namespace PatternAutomata

namespace Cursor

variable {s t : Bytes} {e : ReadError}

/-! ## Events -/

/-- An event with more behind the text. -/
def extendEvent (tail : Bytes) : Event → Event
  | .closeGroup left q => .closeGroup (left ++ tail) q
  | .failure e => .failure (e.map (· ++ tail))
  | event => event

/-- Faults that an event can have are placed inside the text. -/
def EventInside (s : Bytes) : Event → Prop
  | .closeGroup left _ => left <:+ s
  | .failure e => e.PlacedIn s
  | _ => True

/-- The memory behind the events is what is behind the text, if nothing has failed. -/
def EndsAt (found : List Event) (last tail : Bytes) : Prop :=
  (∀ e, .failure e ∉ found) → last = tail

theorem EventInside.mono {event : Event} (h : EventInside t event) (hts : t <:+ s) :
    EventInside s event := by
  cases event with
  | closeGroup left q => exact List.IsSuffix.trans h hts
  | failure e => exact fun fault left he ↦ (h fault left he).trans hts
  | _ => trivial

theorem EndsAt.cons {event : Event} {found : List Event} {last tail : Bytes}
    (h : EndsAt found last tail) : EndsAt (event :: found) last tail :=
  fun hnone ↦ h fun e hmem ↦ hnone e (List.mem_cons_of_mem _ hmem)

/-- The events of a text are read without getting stuck, and they are those of the text, whatever is
in memory behind it. -/
def EventsAgree (s : Bytes) (found : List Event) : Prop :=
  0 ∉ s → (∀ junk, ∃ last, events (s ++ 0 :: junk) =
      some (found.map (extendEvent (0 :: junk)), last) ∧ EndsAt found last (0 :: junk)) ∧
    ∀ event ∈ found, EventInside s event

theorem extendEvent_eventOf {part : Part} {left tail : Bytes} {q : Quantifier} :
    extendEvent tail (eventOf part left q) = eventOf part (left ++ tail) q := by
  cases part <;> rfl

theorem eventInside_eventOf {part : Part} {q : Quantifier} (hts : t <:+ s) :
    EventInside s (eventOf part t q) := by
  cases part with
  | closeGroup => exact hts
  | _ => trivial

namespace EventsAgree

theorem failure (h : Agrees part s (.error e)) : EventsAgree s [.failure e] := by
  intro hs
  obtain ⟨hrun, hinside⟩ := h hs
  refine ⟨fun junk ↦ ⟨_, by rw [events, hrun junk]; rfl, fun hnone ↦ ?_⟩, fun event hmem ↦ ?_⟩
  · exact absurd (List.mem_singleton_self _) (hnone e)
  · rw [List.mem_singleton.1 hmem]
    exact hinside

theorem done (h : Agrees part s (.ok (none, []))) : EventsAgree s [] := by
  intro hs
  obtain ⟨hrun, -⟩ := h hs
  exact ⟨fun junk ↦ ⟨0 :: junk, by rw [events, hrun junk]; rfl, fun _ ↦ rfl⟩, nofun⟩

theorem broken {p : Part} (hpart : Agrees part s (.ok (some p, t)))
    (hquantifier : Agrees (quantifierOf p) t (.error e)) :
    EventsAgree s [eventOf p t .once, .failure e] := by
  intro hs
  obtain ⟨hrun, hts⟩ := hpart hs
  obtain ⟨hrun', hinside⟩ := hquantifier (hts.not_mem hs)
  refine ⟨fun junk ↦ ⟨t ++ 0 :: junk, ?_, fun hnone ↦ ?_⟩, fun event hmem ↦ ?_⟩
  · rw [events, hrun junk]
    dsimp only [extend]
    rw [hrun' junk, List.map_cons, extendEvent_eventOf]
    rfl
  · exact absurd (List.mem_cons_of_mem _ (List.mem_singleton_self _)) (hnone e)
  · rcases List.mem_cons.1 hmem with rfl | hmem
    · exact eventInside_eventOf hts
    · rw [List.mem_singleton.1 hmem]
      exact hinside.mono hts

/-- **The step lemma of reading events.** -/
theorem cons {p : Part} {q : Quantifier} {u : Bytes} {found : List Event}
    (hpart : Agrees part s (.ok (some p, t))) (hquantifier : Agrees (quantifierOf p) t (.ok (q, u)))
    (hlt : u.length < s.length) (hrest : EventsAgree u found) :
    EventsAgree s (eventOf p t q :: found) := by
  intro hs
  obtain ⟨hrun, hts⟩ := hpart hs
  obtain ⟨hrun', hut⟩ := hquantifier (hts.not_mem hs)
  have hus : u <:+ s := List.IsSuffix.trans hut hts
  obtain ⟨hrun'', hinside⟩ := hrest fun hmem ↦ hs (List.IsSuffix.subset hus hmem)
  refine ⟨fun junk ↦ ?_, fun event hmem ↦ ?_⟩
  · obtain ⟨last, hevents, hends⟩ := hrun'' junk
    refine ⟨last, ?_, hends.cons⟩
    rw [events, hrun junk]
    dsimp only [extend]
    rw [hrun' junk]
    dsimp only [extend]
    rw [if_pos (length_append_lt hlt _), hevents, List.map_cons, extendEvent_eventOf]
    rfl
  · rcases List.mem_cons.1 hmem with rfl | hmem
    · exact eventInside_eventOf hts
    · exact (hinside event hmem).mono hus

end EventsAgree

/-- **Events are read in memory as they are in the text.** -/
theorem eventsAgree_read (s : Bytes) : EventsAgree s (Event.read s) := by
  fun_induction Event.read s with
  | case1 s e hpart => exact .failure (agrees_part hpart)
  | case2 s hpart =>
    obtain rfl := Grammar.eq_nil_of_read hpart
    exact .done (agrees_part hpart)
  | case3 s kind rest hpart ih =>
    exact .cons (agrees_part hpart) (.pure Quantifier.once) (Part.read_suffix hpart).2 ih
  | case4 s rest hpart ih =>
    exact .cons (agrees_part hpart) (.pure Quantifier.once) (Part.read_suffix hpart).2 ih
  | case5 s a rest hpart e hquantifier =>
    exact .broken (agrees_part hpart) (agrees_quantifier.of_eq hquantifier)
  | case6 s a rest hpart q rest' hquantifier ih =>
    exact .cons (agrees_part hpart) (agrees_quantifier.of_eq hquantifier) (Nat.lt_of_le_of_lt
        (Quantifier.read_suffix hquantifier).length_le (Part.read_suffix hpart).2) ih
  | case7 s rest hpart e hquantifier =>
    exact .broken (agrees_part hpart) (agrees_quantifier.of_eq hquantifier)
  | case8 s rest hpart q rest' hquantifier ih =>
    exact .cons (agrees_part hpart) (agrees_quantifier.of_eq hquantifier) (Nat.lt_of_le_of_lt
        (Quantifier.read_suffix hquantifier).length_le (Part.read_suffix hpart).2) ih

end Cursor

/-! ## Trees -/

namespace TreeBuilder

open Cursor

variable {o : Options} {b : TreeBuilder} {s tail : Bytes} {e : ReadError} {found : List Event}

/-- More behind the text only changes where faults are placed. -/
theorem take_extendEvent (b : TreeBuilder) (event : Event) :
    b.take o (extendEvent tail event) = (b.take o event).mapError (·.map (· ++ tail)) := by
  have hplace : ∀ {b : TreeBuilder} {limit atom : Nat} {q : Quantifier},
      b.place limit atom q = (b.place limit atom q).mapError (·.map (· ++ tail)) := by
    intro b limit atom q
    rw [place_eq]
    split <;> rfl
  cases event with
  | atom atom q => exact hplace
  | openGroup kind => rfl
  | bar => rfl
  | closeGroup left q =>
    rw [extendEvent, take_closeGroup, take_closeGroup]
    split
    · rfl
    · split
      · rfl
      · exact hplace
  | failure e => rfl

theorem foldlM_extendEvent (b : TreeBuilder) :
    (found.map (extendEvent tail)).foldlM (TreeBuilder.take o) b =
      (found.foldlM (TreeBuilder.take o) b).mapError (·.map (· ++ tail)) := by
  induction found generalizing b with
  | nil => rfl
  | cons event found ih =>
    rw [List.map_cons, List.foldlM_cons, List.foldlM_cons, take_extendEvent]
    cases b.take o event with
    | error e => rfl
    | ok b' => exact ih b'

theorem placedIn_of_take {event : Event} (hinside : EventInside s event)
    (h : b.take o event = .error e) : e.PlacedIn s := by
  have hplace : ∀ {b : TreeBuilder} {limit atom : Nat} {q : Quantifier},
      b.place limit atom q = .error e → e.PlacedIn s := by
    intro b limit atom q h
    rw [of_place_error h]
    nofun
  cases event with
  | atom atom q => exact hplace h
  | openGroup kind => cases h
  | bar => cases h
  | closeGroup left q =>
    rw [take_closeGroup] at h
    have hleft : ∀ fault, (PatternError.located fault left : ReadError).PlacedIn s := by
      rintro fault _ _ heq
      cases heq
      exact hinside
    split at h
    · cases h
      exact hleft _
    · split at h
      · cases h
        exact hleft _
      · exact hplace h
  | failure e' =>
    cases h
    exact hinside

theorem placedIn_of_foldlM (hinside : ∀ event ∈ found, EventInside s event)
    (h : found.foldlM (TreeBuilder.take o) b = .error e) : e.PlacedIn s := by
  induction found generalizing b with
  | nil => cases h
  | cons event found ih =>
    obtain ⟨hevent, hfound⟩ := List.forall_mem_cons.1 hinside
    rw [List.foldlM_cons] at h
    cases htake : b.take o event with
    | error e' =>
      rw [htake] at h
      cases h
      exact placedIn_of_take hevent htake
    | ok b' =>
      rw [htake] at h
      exact ih hfound h

theorem not_mem_failure {b' : TreeBuilder} (h : found.foldlM (TreeBuilder.take o) b = .ok b') :
    .failure e ∉ found := by
  induction found generalizing b with
  | nil => nofun
  | cons event found ih =>
    rw [List.foldlM_cons] at h
    cases htake : b.take o event with
    | error e' =>
      rw [htake] at h
      cases h
    | ok b₁ =>
      rw [htake] at h
      intro hmem
      rcases List.mem_cons.1 hmem with rfl | hmem
      · cases htake
      · exact ih h hmem

end TreeBuilder

/-! ## Patterns -/

theorem Bytes.zero_notMem_untilZero (pattern : Bytes) : 0 ∉ pattern.untilZero := by
  intro hmem
  have hne : (0 : UInt8) ≠ 0 := bne_iff_ne.1 (List.mem_takeWhile_imp (p := (· != 0)) hmem)
  exact hne rfl

theorem Bytes.exists_untilZero_append (pattern junk : Bytes) :
    ∃ junk', pattern ++ 0 :: junk = pattern.untilZero ++ 0 :: junk' := by
  unfold Bytes.untilZero
  induction pattern with
  | nil => exact ⟨junk, rfl⟩
  | cons b pattern ih =>
    obtain ⟨junk', heq⟩ := ih
    by_cases hb : b = 0
    · subst hb
      exact ⟨pattern ++ 0 :: junk, rfl⟩
    · rw [List.takeWhile_cons, if_pos (bne_iff_ne.2 hb)]
      exact ⟨junk', by rw [List.cons_append, heq, List.cons_append]⟩

theorem Bytes.untilZero_append_zero (pattern junk : Bytes) :
    (pattern ++ 0 :: junk).untilZero = pattern.untilZero := by
  unfold Bytes.untilZero
  induction pattern with
  | nil => rfl
  | cons b pattern ih =>
    rw [List.cons_append, List.takeWhile_cons, List.takeWhile_cons, ih]

/-- How far the reader has moved when it fails is how much of the text is not left. -/
theorem PatternError.PlacedIn.map_eq {s tail : Bytes} {e : ReadError} (h : e.PlacedIn s) :
    (e.map (· ++ tail)).map (fun left ↦ ((s ++ tail).length : Int) - left.length) =
      (e.map (s.length - ·.length)).map fun n : Nat ↦ (n : Int) := by
  cases e with
  | located fault left =>
    have hle := (h fault left rfl).length_le
    simp only [PatternError.map, PatternError.located.injEq, true_and, List.length_append]
    omega
  | badUnicodeEscape => rfl
  | treeExplosion limit => rfl

theorem Tree.ofMemory_eq (o : Options) (pattern junk : Bytes) :
    Tree.ofMemory o (pattern ++ 0 :: junk) =
      some ((Tree.ofPattern o pattern).mapError (·.map fun n : Nat ↦ (n : Int))) := by
  obtain ⟨junk', heq⟩ := Bytes.exists_untilZero_append pattern junk
  obtain ⟨hevents, hinside⟩ :=
    Cursor.eventsAgree_read pattern.untilZero (Bytes.zero_notMem_untilZero pattern)
  obtain ⟨last, hrun, hends⟩ := hevents junk'
  rw [heq, Tree.ofMemory, hrun]
  simp only [Tree.ofPattern, Tree.ofEvents_eq, TreeBuilder.foldlM_extendEvent]
  cases hfold : (Event.read pattern.untilZero).foldlM (TreeBuilder.take o) .start with
  | error e =>
    have hplaced := TreeBuilder.placedIn_of_foldlM hinside hfold
    exact congrArg (fun e ↦ some (Except.error e)) hplaced.map_eq
  | ok b =>
    obtain rfl := hends fun e ↦ TreeBuilder.not_mem_failure hfold
    simp only [Except.mapError, TreeBuilder.finish_eq]
    cases b.outer with
    | nil => rfl
    | cons around outer =>
      have hplace : (((pattern.untilZero ++ 0 :: junk').length : Int) -
            ([] ++ 0 :: junk' : Bytes).length) =
          (pattern.untilZero.length - ([] : Bytes).length :) := by
        rw [List.length_append, List.nil_append, List.length_nil, Nat.sub_zero]
        omega
      exact congrArg (fun n ↦ some (Except.error (PatternError.located _ n))) hplace

/-- **The parser stays inside its text.** In memory it is never stuck: it looks at no byte behind
the first zero byte and does not move over that byte, and it comes to what the text comes to, with
faults placed by how far it has moved. So what is behind the zero byte makes no difference, and no
fault is placed beyond it. In front of a text every token moves on, and so does every round of
reading a class. -/
theorem Tree.ofPattern_inside (o : Options) (pattern junk : Bytes) :
    Tree.ofMemory o (pattern ++ 0 :: junk) =
        some ((Tree.ofPattern o pattern).mapError (·.map fun n : Nat ↦ (n : Int))) ∧
      Tree.ofPattern o (pattern ++ 0 :: junk) = Tree.ofPattern o pattern ∧
      (∀ fault n, Tree.ofPattern o pattern = .error (.located fault n) →
        n ≤ pattern.untilZero.length) ∧
      ∀ text : Bytes, 0 ∉ text → (text ≠ [] → Cursor.MovesIn Cursor.advance text) ∧
        Cursor.MovesIn Cursor.classRound text := by
  refine ⟨Tree.ofMemory_eq o pattern junk, ?_, fun fault n herror ↦ ?_, fun text hzero ↦
    ⟨Cursor.movesIn_advance hzero, Cursor.movesIn_classRound hzero⟩⟩
  · unfold Tree.ofPattern
    rw [Bytes.untilZero_append_zero]
  · unfold Tree.ofPattern at herror
    dsimp only at herror
    cases hevents : Tree.ofEvents o (Event.read pattern.untilZero) with
    | ok t =>
      rw [hevents] at herror
      cases herror
    | error e =>
      rw [hevents] at herror
      cases e with
      | located fault' left =>
        cases herror
        exact Nat.sub_le _ _
      | badUnicodeEscape => cases herror
      | treeExplosion limit => cases herror

end PatternAutomata
