import PatternAutomata.Proofs.Step.Completeness

/-!
# What a way does to the slots

A path sets and clears slots one after another, and of all that happens to a slot the last counts:
to set a slot is to have it cleared no longer, and the other way round. So no slot is both set and
cleared by one way, and what is cleared are slots of captures below a loop.
-/

namespace PatternAutomata

namespace Boundaries

variable {b : Boundaries} {slot i : Nat} {slots : IndexSet}

theorem mem_updates_update : i ∈ (b.update slot).updates ↔ i ∈ b.updates ∨ i = slot :=
  IndexSet.mem_insert

theorem mem_clears_update : i ∈ (b.update slot).clears ↔ i ∈ b.clears ∧ i ≠ slot := by
  rw [update, IndexSet.erase, IndexSet.mem_filter, bne_iff_ne]

theorem mem_updates_clear : i ∈ (b.clear slots).updates ↔ i ∈ b.updates ∧ i ∉ slots := by
  have hdiff : i ∈ b.updates \ slots ↔ i ∈ b.updates ∧ (!slots.contains i) = true :=
    IndexSet.mem_filter
  rw [clear, hdiff, Bool.not_eq_true', ← Bool.not_eq_true, IndexSet.contains_iff]

theorem mem_clears_clear : i ∈ (b.clear slots).clears ↔ i ∈ b.clears ∨ i ∈ slots :=
  IndexSet.mem_union

/-- No slot is both set and cleared. -/
def Consistent (b : Boundaries) : Prop := ∀ i ∈ b.updates, i ∉ b.clears

theorem consistent_empty : Consistent {} := fun i hi ↦ absurd hi (IndexSet.not_mem_empty i)

theorem Consistent.update (h : b.Consistent) : (b.update slot).Consistent := by
  intro i hi hclear
  obtain ⟨hclear, hne⟩ := mem_clears_update.1 hclear
  exact h i ((mem_updates_update.1 hi).resolve_right hne) hclear

theorem Consistent.clear (h : b.Consistent) : (b.clear slots).Consistent := by
  intro i hi hclear
  obtain ⟨hi, hout⟩ := mem_updates_clear.1 hi
  exact h i hi ((mem_clears_clear.1 hclear).resolve_right hout)

end Boundaries

/-- A slot of a capture group below a loop. -/
def Tree.IsNested (t : Tree) (slot : Nat) : Prop :=
  ∃ (loop : Nat) (g : Group), (t.node loop).kind = .group g ∧ g.loop.isSome = true ∧
    ∃ c ∈ g.nested, slot = Boundaries.startSlot c ∨ slot = Boundaries.endSlot c

/-- What a way does to the slots: none is both set and cleared, and those that are cleared belong to
captures below a loop. -/
structure Tree.Settles (t : Tree) (b : Boundaries) : Prop where
  consistent : b.Consistent
  nested : ∀ {slot}, slot ∈ b.clears → t.IsNested slot

theorem Tree.settles_empty (t : Tree) : t.Settles {} :=
  ⟨Boundaries.consistent_empty, fun h ↦ absurd h (IndexSet.not_mem_empty _)⟩

end PatternAutomata
