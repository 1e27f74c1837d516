import PatternAutomata.Proofs.Tree.Finish

/-!
# The classes of the lead-in

The classes of all characters that stand between the markers of the lead-in, by their places: each
one comes right behind the marker of a search that goes through at least one character of the
lead-in, and no other node does. None of them belongs to the pattern.
-/

namespace PatternAutomata

/-- The hard prefix is made of the classes behind the markers of the lead-in. -/
structure Tree.LeadsIn (t : Tree) : Prop where
  mem_iff : ∀ {x : Nat}, x ∈ t.hardPrefix.members ↔
    ∃ lead < t.leadLength, t.arena.Follows (t.start true (lead + 1)) x
  not_below_root : ∀ {x : Nat}, x ∈ t.hardPrefix.members → ¬t.arena.Below x t.root

namespace Arena

variable {a b : Arena} {full : CodePointSet} {ok : CodePointSet → Prop} {root lead : Nat}

theorem Follows.eq {x y y' : Nat} (h : a.Follows x y) (h' : a.Follows x y') : y = y' := by
  obtain ⟨s, hup, -, hy⟩ := h
  obtain ⟨s', hup', -, hy'⟩ := h'
  obtain rfl : s = s' := Option.some.inj (hup.symm.trans hup')
  exact Option.some.inj (hy.symm.trans hy')

theorem classes_addLeadIn (full : CodePointSet) (s lead : Nat) (l : LeadIn) :
    (addLeadIn full s lead l).classes =
      (List.range lead).map (fun i ↦ l.arena.size + (3 * (lead - (i + 1)) + 2)) ++ l.classes := by
  induction lead generalizing l with
  | zero => rfl
  | succ lead ih =>
    have hsize : (l.arena.withMarkers s (lead + 1)).size = l.arena.size + 2 := by
      simp [withMarkers]
    obtain ⟨l', hl', harena, -, -, hclasses⟩ := addLeadIn_succ full s lead l
    have hsize' : l'.arena.size = l.arena.size + 3 := by
      rw [harena, size_link, size_add, hsize]
    have hmap : (List.range lead).map (fun i ↦ l'.arena.size + (3 * (lead - (i + 1)) + 2)) =
        (List.range lead).map fun i ↦ l.arena.size + (3 * (lead + 1 - (i + 1)) + 2) := by
      refine List.map_congr_left fun i hi ↦ ?_
      have := List.mem_range.1 hi
      omega
    rw [hl', ih, hclasses, hsize, hmap, List.range_succ, List.map_append, List.map_singleton,
      List.append_assoc]
    simp

theorem Framed.follows_class (hf : Framed a full root lead b) {j : Nat} (hj : j < lead) :
    b.Follows (a.size + 3 + (3 * (lead - (j + 1)) + if true then 1 else 0))
      (a.size + 3 + (3 * (lead - (j + 1)) + 2)) := by
  have hnode := hf.node_start true (Nat.succ_le_of_lt hj)
  refine hf.follows_of_up (by rw [Up, hnode]) ?_
  rw [hnode, hf.getElem?, if_pos (by simp; omega)]
  simp

/-- **The hard prefix of a finished tree.** -/
theorem Ready.leadsIn_finish (h : Ready ok a root) (encoding : Encoding) (captureGroups : Nat) :
    (a.finish encoding root captureGroups).LeadsIn := by
  obtain ⟨hsize, -⟩ := h.complete_spec (x := 0)
  have ht := h.finishedFrom encoding captureGroups
  have hf := ht.framed
  have hmem : ∀ {x}, x ∈ (a.finish encoding root captureGroups).hardPrefix.members ↔
      ∃ j < a.reach root, x = a.size + 3 + (3 * (a.reach root - (j + 1)) + 2) := by
    intro x
    rw [finish_eq, MarkerSet.ofList, IndexSet.mem_ofList, leadIn, classes_addLeadIn]
    simp [hsize, eq_comm]
  constructor
  case mem_iff =>
    intro x
    rw [hmem, ht.leadLength_eq]
    refine exists_congr fun j ↦ and_congr_right fun hj ↦ ?_
    have hfollows := hf.follows_class hj
    rw [ht.start_eq (Nat.succ_le_of_lt hj)]
    exact ⟨fun hx ↦ hx ▸ hfollows, fun hx ↦ hx.eq hfollows⟩
  case not_below_root =>
    intro x hx hbelow
    obtain ⟨j, -, rfl⟩ := hmem.1 hx
    rw [ht.root_eq] at hbelow
    have := hf.lt_of_below_old h h.lt hbelow
    omega

end Arena

/-- The trees of patterns have the classes of their lead-in as hard prefix. -/
theorem Tree.leadsIn_of_ofPattern {o : Options} {pattern : Bytes} {t : Tree}
    (ht : Tree.ofPattern o pattern = .ok t) : t.LeadsIn := by
  obtain ⟨a, root, captures, hready, rfl⟩ :=
    ready_of_ofPattern (fun atom _ _ ↦ atom.plain_kind o.encoding) ht
  exact hready.leadsIn_finish o.encoding captures

end PatternAutomata
