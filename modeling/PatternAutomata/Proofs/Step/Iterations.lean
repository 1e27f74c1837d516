import PatternAutomata.Proofs.Step.Events
import PatternAutomata.Proofs.Tree.Nested

/-!
# What an iteration forgets

The slots of a capture group are concerned where a way comes to the start or the end of the group,
and where it starts an iteration of a loop that the group stands below: then whatever an earlier
iteration has captured is forgotten. These are all the slots that a step sets or clears.

So it takes a loop to forget captures. The copies that a counted repetition is made of stand one
behind the other in a sequence, and the way from one to the next leaves alone the groups that it
does not come by, although another copy may have captured them.
-/

namespace PatternAutomata

/-! ## Slots concerned -/

/-- A slot is set or cleared. -/
def Boundaries.Touches (b : Boundaries) (slot : Nat) : Prop := slot ∈ b.updates ∨ slot ∈ b.clears

/-- An event sets or clears a slot. -/
def SlotEvent.Concerns (slot : Nat) : SlotEvent → Prop
  | start c => slot = Boundaries.startSlot c
  | stop c => slot = Boundaries.endSlot c
  | forget captures => ∃ c ∈ captures,
      slot = Boundaries.startSlot c ∨ slot = Boundaries.endSlot c

namespace Boundaries

variable {b : Boundaries} {slot : Nat} {c c' : Nat}

theorem startSlot_inj : startSlot c = startSlot c' ↔ c = c' := by
  rw [startSlot, startSlot]
  omega

theorem endSlot_inj : endSlot c = endSlot c' ↔ c = c' := by
  rw [endSlot, endSlot]
  omega

theorem startSlot_ne_endSlot : startSlot c ≠ endSlot c' := by
  rw [startSlot, endSlot]
  omega

theorem not_touches_empty : ¬({} : Boundaries).Touches slot := by
  rintro (h | h) <;> exact IndexSet.not_mem_empty slot h

theorem touches_after {e : SlotEvent} :
    (b.after e).Touches slot ↔ b.Touches slot ∨ e.Concerns slot := by
  have hupdate : ∀ {i : Nat}, (b.update i).Touches slot ↔ b.Touches slot ∨ slot = i := by
    intro i
    rw [Touches, mem_updates_update, mem_clears_update, Touches]
    tauto
  cases e with
  | start c => exact hupdate
  | stop c => exact hupdate
  | forget captures =>
    rw [Touches, after, mem_updates_clear, mem_clears_clear, IndexSet.mem_ofList, List.mem_flatMap,
      Touches, SlotEvent.Concerns]
    simp only [IndexSet.mem_toList, List.mem_cons, List.not_mem_nil, or_false]
    generalize (∃ c ∈ captures, slot = startSlot c ∨ slot = endSlot c) = forgotten
    tauto

theorem touches_foldl_after (events : List SlotEvent) (b : Boundaries) :
    (events.foldl after b).Touches slot ↔ b.Touches slot ∨ ∃ e ∈ events, e.Concerns slot := by
  induction events generalizing b with
  | nil => simp
  | cons e events ih =>
    rw [List.foldl_cons, ih, touches_after, or_assoc]
    simp

end Boundaries

/-! ## Ways -/

namespace Path

variable {s : Stance} {p q : Path} {moves : List (Spot × Spot)}

theorem Travels.within {ok : CodePointSet → Prop} (ht : s.tree.Regular ok)
    (h : Travels s p moves q) (hholds : s.tree.Holds p.node) (hout : s.tree.arena.Outside p.node) :
    (s.tree.Holds q.node ∧ s.tree.arena.Outside q.node) ∧
      ∀ move ∈ moves, s.tree.Holds move.1.node ∧ s.tree.arena.Outside move.1.node := by
  induction h with
  | stay => exact ⟨⟨hholds, hout⟩, nofun⟩
  | @go moves q r hq hr ih =>
    obtain ⟨hwithin, hmoves⟩ := ih
    have hmove := (leads_of_mem_next ht.fits hr).move
    refine ⟨⟨(ht.holds_iff_of_move hmove).2 hwithin.1, fun l hl hbelow ↦ ?_⟩, ?_⟩
    · by_contra hne
      obtain ⟨hbelow, hne⟩ := Tree.move_properly_below ht.forest hl hmove ⟨hbelow, hne⟩
      exact hne (hwithin.2 l hl hbelow)
    · exact List.forall_mem_append.2 ⟨hmoves, fun move hmove ↦ List.mem_singleton.1 hmove ▸ hwithin⟩

end Path

namespace Tree

variable {t : Tree} {ok : CodePointSet → Prop} {held : MarkerSet} {mustAdvance : Bool}
  {d : Successor} {moves : List (Spot × Spot)} {marker c : Nat}

theorem Regular.outside_of_starts (h : t.Regular ok) {isAtStart : Bool} (hholds : t.Holds marker)
    (hstarts : t.Starts held marker isAtStart) : t.arena.Outside marker := by
  intro l hl hbelow
  by_contra hne
  have hmem : l ∈ t.lookBehinds :=
    h.mem_lookBehinds.2 ⟨hl, hbelow.below_of_loose hholds h.wrappedRoot_loose⟩
  exact h.not_below_of_starts hmem hstarts ⟨hbelow, hne⟩

theorem Regular.holds_of_isMarker (h : t.Regular ok) (hmarker : t.isMarker marker = true) :
    t.Holds marker := by
  rw [isMarker, Bool.and_eq_true, decide_eq_true_eq, List.contains_iff_mem] at hmarker
  exact (h.forest.mem_ancestors hmarker.1).1 hmarker.2

/-- Which slots a move concerns: that of the start of a capture group at its front, that of its end
there, and those of the captures below a loop at the start of an iteration. -/
theorem Finished.concerns_iff (h : t.Finished) {move : Spot × Spot} (hholds : t.Holds move.1.node)
    (hout : t.arena.Outside move.1.node) {slot : Nat} :
    (∃ e ∈ t.events move, e.Concerns slot) ↔
      (∃ c, t.StartsCapture move c ∧ slot = Boundaries.startSlot c) ∨
      (∃ c, t.EndsCapture move c ∧ slot = Boundaries.endSlot c) ∨
      ∃ loop, t.StartsIteration move loop ∧ ∃ c, t.Encloses loop c ∧
        (slot = Boundaries.startSlot c ∨ slot = Boundaries.endSlot c) := by
  have hnested : ∀ {loop : Nat} {g : Group}, t.StartsIteration move loop →
      (t.node loop).kind = .group g → ∀ c, c ∈ g.nested ↔ t.Encloses loop c := by
    rintro loop g ⟨-, rfl, ⟨g', hkind', hloop⟩, -⟩ hkind c
    cases hkind.symm.trans hkind'
    exact h.mem_nested hkind hloop hholds hout
  constructor
  · rintro ⟨e, he, hconcerns⟩
    rcases mem_events.1 he with ⟨c, hc, rfl⟩ | ⟨c, hc, rfl⟩ | ⟨loop, g, hstarts, hkind, rfl⟩
    · exact .inl ⟨c, hc, hconcerns⟩
    · exact .inr (.inl ⟨c, hc, hconcerns⟩)
    · obtain ⟨c, hc, hslot⟩ := hconcerns
      exact .inr (.inr ⟨loop, hstarts, c, (hnested hstarts hkind c).1 hc, hslot⟩)
  · rintro (⟨c, hc, hslot⟩ | ⟨c, hc, hslot⟩ | ⟨loop, hstarts, c, hc, hslot⟩)
    · exact ⟨_, mem_events.2 (.inl ⟨c, hc, rfl⟩), hslot⟩
    · exact ⟨_, mem_events.2 (.inr (.inl ⟨c, hc, rfl⟩)), hslot⟩
    · obtain ⟨g, hkind, -⟩ := hstarts.loops
      exact ⟨_, mem_events.2 (.inr (.inr ⟨loop, g, hstarts, hkind, rfl⟩)), c,
        (hnested hstarts hkind c).2 hc, hslot⟩

theorem Brings.touches_iff (h : t.Brings held mustAdvance moves d) {slot : Nat} :
    d.boundaries.Touches slot ↔ ∃ move ∈ moves, ∃ e ∈ t.events move, e.Concerns slot := by
  rw [h.carries.1, Boundaries.touches_foldl_after, or_iff_right Boundaries.not_touches_empty]
  simp only [List.mem_flatMap]
  constructor
  · rintro ⟨e, ⟨move, hmove, he⟩, hconcerns⟩
    exact ⟨move, hmove, e, he, hconcerns⟩
  · rintro ⟨move, hmove, e, he, hconcerns⟩
    exact ⟨e, ⟨move, hmove, he⟩, hconcerns⟩

/-- **Which slots a step concerns.** A way sets or clears the slots of a capture group if it comes
to the start or the end of the group, each for its own slot, or if it starts an iteration of a loop
that the group stands properly below; it concerns no other slots. -/
theorem Finished.touches_iff_of_mem_walk (h : t.Finished)
    (hheld : ∀ x ∈ held.members, t.isMarker x = true) (hd : d ∈ (t.walk held mustAdvance).found) :
    (∃ moves, t.Brings held mustAdvance moves d) ∧
      ∀ moves, t.Brings held mustAdvance moves d → ∀ c,
        (d.boundaries.Touches (Boundaries.startSlot c) ↔
          (∃ move ∈ moves, t.StartsCapture move c) ∨
            ∃ move ∈ moves, ∃ loop, t.StartsIteration move loop ∧ t.Encloses loop c) ∧
        (d.boundaries.Touches (Boundaries.endSlot c) ↔
          (∃ move ∈ moves, t.EndsCapture move c) ∨
            ∃ move ∈ moves, ∃ loop, t.StartsIteration move loop ∧ t.Encloses loop c) := by
  refine ⟨h.regular.exists_brings hd, fun moves hmoves c ↦ ?_⟩
  have hwithin : ∀ move ∈ moves, t.Holds move.1.node ∧ t.arena.Outside move.1.node := by
    obtain ⟨marker, isAtStart, hstarts, q, hq, -⟩ := hmoves
    have hmarker := h.regular.holds_of_isMarker (hheld marker (h.regular.starts_iff.1 hstarts).1)
    exact (hq.within h.regular hmarker (h.regular.outside_of_starts hmarker hstarts)).2
  have hconcerns : ∀ move ∈ moves, ∀ slot, (∃ e ∈ t.events move, e.Concerns slot) ↔ _ :=
    fun move hmove slot ↦
      h.concerns_iff (hwithin move hmove).1 (hwithin move hmove).2
  rw [hmoves.touches_iff, hmoves.touches_iff, ← exists_or, ← exists_or]
  refine ⟨exists_congr fun move ↦ ?_, exists_congr fun move ↦ ?_⟩ <;>
  · rw [← and_or_left]
    refine and_congr_right fun hmove ↦ (hconcerns move hmove _).trans ?_
    simp only [Boundaries.startSlot_inj, Boundaries.endSlot_inj, Boundaries.startSlot_ne_endSlot,
      Boundaries.startSlot_ne_endSlot.symm, and_false, exists_const, or_false, false_or,
      exists_eq_right']

/-- From one iteration of an open-ended repetition to the next, which captures nothing. -/
theorem touches_next_iteration :
    ∃ t, ofPattern {} (.ofString "(?:(a)|b){2,}") = .ok t ∧
      (∀ x ∈ (⟨t.size, .single 6⟩ : MarkerSet).members, t.isMarker x = true) ∧
      ∃ d ∈ (t.walk ⟨t.size, .single 6⟩ false).found, d.target = 15 ∧
        (∃ moves, t.Brings ⟨t.size, .single 6⟩ false moves d) ∧
        ∀ moves, t.Brings ⟨t.size, .single 6⟩ false moves d → ∀ c,
          (d.boundaries.Touches (Boundaries.startSlot c) ↔
            (∃ move ∈ moves, t.StartsCapture move c) ∨
              ∃ move ∈ moves, ∃ loop, t.StartsIteration move loop ∧ t.Encloses loop c) ∧
          (d.boundaries.Touches (Boundaries.endSlot c) ↔
            (∃ move ∈ moves, t.EndsCapture move c) ∨
              ∃ move ∈ moves, ∃ loop, t.StartsIteration move loop ∧ t.Encloses loop c) := by
  obtain ⟨t, ht, hmarker, d, hd, htarget⟩ := exists_found (·.isMarker 6) (.single 6) false
    (·.target == 15)
    (show (ofPattern {} (.ofString "(?:(a)|b){2,}")).toOption.any _ = true by decide +kernel)
  have hheld : ∀ x ∈ (⟨t.size, .single 6⟩ : MarkerSet).members, t.isMarker x = true :=
    fun x hx ↦ List.mem_singleton.1 hx ▸ hmarker
  exact ⟨t, ht, hheld, d, hd, eq_of_beq htarget,
    Finished.touches_iff_of_mem_walk (.ofPattern ht) hheld hd⟩

/-- The second of two copies leaves alone what the first one has captured: the node 15, in the
second copy 9, is reached from the node 6, in the first copy 2, with the old start of the capture
group. -/
theorem capture_kept_in_next_copy :
    ∃ t, ofPattern {} (.ofString "(?:(a)|b){2}") = .ok t ∧
      (t.node 1).children = #[2, 9] ∧ t.arena.Below 6 2 ∧ t.arena.Below 15 9 ∧
      (∃ x, t.arena.Below x 9 ∧ t.arena.HasCapture x 1) ∧
      ∃ d ∈ (t.walk ⟨t.size, .single 6⟩ false).found, d.target = 15 ∧
        ¬d.boundaries.Touches (Boundaries.startSlot 1) := by
  obtain ⟨t, ht, htests, d, hd, htarget⟩ := exists_found
    (fun t ↦ decide ((t.node 1).children = #[2, 9]) &&
      (decide (6 < t.size ∧ 11 < t.size ∧ 15 < t.size) &&
        (decide (2 ∈ t.arena.ancestors 6 ∧ 9 ∈ t.arena.ancestors 11 ∧ 9 ∈ t.arena.ancestors 15) &&
          decide ((t.node 11).kind = .group { capture := some 1 }))))
    (.single 6) false
    (fun d ↦ d.target == 15 && !(d.boundaries.updates.contains 2 || d.boundaries.clears.contains 2))
    (show (ofPattern {} (.ofString "(?:(a)|b){2}")).toOption.any _ = true by decide +kernel)
  simp only [Bool.and_eq_true, decide_eq_true_iff] at htests
  obtain ⟨hcopies, ⟨h6, h11, h15⟩, ⟨hfirst, hcapture, hsecond⟩, hkind⟩ := htests
  have hforest := (Finished.ofPattern ht).regular.forest
  rw [Bool.and_eq_true, beq_iff_eq, Bool.not_eq_true', Bool.or_eq_false_iff,
    Bool.eq_false_iff, Bool.eq_false_iff, ne_eq, ne_eq, IndexSet.contains_iff,
    IndexSet.contains_iff] at htarget
  exact ⟨t, ht, hcopies, (hforest.mem_ancestors h6).1 hfirst, (hforest.mem_ancestors h15).1 hsecond,
    ⟨11, (hforest.mem_ancestors h11).1 hcapture, _, hkind, rfl⟩, d, hd, htarget.1,
    not_or.2 htarget.2⟩

end Tree

end PatternAutomata
