import PatternAutomata.Proofs.Step.Completeness
import PatternAutomata.Proofs.Step.Partition

/-!
# Branches partition, in order of priority

A branch has the priority of its first successor. When a set is spread, every branch stays in its
place, or two with the same first successor take it, and what is new comes last: branches are in
the order of their priorities. Of the branches that find a match none is added or lost, so there is
one for each way to find one, in order.

Together with what a branch reads this is all there is to know about the branches of a step.
-/

namespace PatternAutomata

namespace Branch

variable {t : Tree} {index : Nat} {rest : CodePointSet} {branches : List Branch} {b : Branch}
  {before : List Successor} {s : Successor}

/-! ## First successors -/

def first (b : Branch) : Nat := b.contributors.getD 0 0

theorem first_push (hb : b.contributors ≠ #[]) (on : CodePointSet) (isFinal : Bool) :
    first { on, contributors := b.contributors.push index, isFinal } = b.first := by
  have hpos := Array.size_pos_iff.2 hb
  rw [first, first, Array.getD_eq_getD_getElem?, Array.getD_eq_getD_getElem?,
    Array.getElem?_push_lt hpos, Array.getElem?_eq_getElem hpos]

/-- Branches in the order of their first successors. -/
structure Ordered (branches : List Branch) : Prop where
  nonempty : ∀ b ∈ branches, b.contributors ≠ #[]
  first_le : branches.Pairwise fun a b ↦ a.first ≤ b.first

theorem first_of_mem_spread (h : ∀ b ∈ branches, b.contributors ≠ #[])
    (hb : b ∈ spread index rest branches) :
    b.contributors ≠ #[] ∧ (b.first = index ∨ ∃ a ∈ branches, b.first = a.first) := by
  induction branches generalizing rest with
  | nil =>
    rw [spread] at hb
    split at hb
    · cases hb
    · obtain rfl := List.mem_singleton.1 hb
      exact ⟨by simp, .inl rfl⟩
  | cons a branches ih =>
    obtain ⟨ha, hbranches⟩ := List.forall_mem_cons.1 h
    have hplace : b.contributors ≠ #[] ∧ b.first = a.first →
        b.contributors ≠ #[] ∧ (b.first = index ∨ ∃ a' ∈ a :: branches, b.first = a'.first) := by
      rintro ⟨hne, heq⟩
      exact ⟨hne, .inr ⟨a, List.mem_cons_self, heq⟩⟩
    have hlater : ∀ {rest : CodePointSet}, b ∈ spread index rest branches →
        b.contributors ≠ #[] ∧ (b.first = index ∨ ∃ a' ∈ a :: branches, b.first = a'.first) := by
      intro rest hb
      obtain ⟨hne, heq | ⟨a', ha', heq⟩⟩ := ih hbranches hb
      · exact ⟨hne, .inl heq⟩
      · exact ⟨hne, .inr ⟨a', List.mem_cons_of_mem _ ha', heq⟩⟩
    rw [spread] at hb
    split at hb
    · exact ⟨h b hb, .inr ⟨b, hb, rfl⟩⟩
    · split at hb
      · rcases List.mem_cons.1 hb with rfl | hb
        · exact hplace ⟨ha, rfl⟩
        · exact hlater hb
      · dsimp only at hb
        split at hb
        · rcases List.mem_cons.1 hb with rfl | hb
          · exact hplace ⟨Array.push_ne_empty, first_push ha _ _⟩
          · exact hlater hb
        · rcases List.mem_cons.1 hb with rfl | hb
          · exact hplace ⟨ha, rfl⟩
          · rcases List.mem_cons.1 hb with rfl | hb
            · exact hplace ⟨Array.push_ne_empty, first_push ha _ _⟩
            · exact hlater hb

/-- Spreading keeps branches in order: the new successor comes after all others. -/
theorem Ordered.spread (h : Ordered branches) (hindex : ∀ b ∈ branches, b.first ≤ index) :
    Ordered (Branch.spread index rest branches) := by
  refine ⟨fun b hb ↦ (first_of_mem_spread h.nonempty hb).1, ?_⟩
  induction branches generalizing rest with
  | nil =>
    rw [Branch.spread]
    split
    · exact .nil
    · exact List.pairwise_singleton _ _
  | cons a branches ih =>
    obtain ⟨ha, hnonempty⟩ := List.forall_mem_cons.1 h.nonempty
    obtain ⟨haindex, hindex⟩ := List.forall_mem_cons.1 hindex
    obtain ⟨hle, hlater⟩ := List.pairwise_cons.1 h.first_le
    have ih : ∀ {rest : CodePointSet},
        (Branch.spread index rest branches).Pairwise fun a b ↦ a.first ≤ b.first :=
      ih ⟨hnonempty, hlater⟩ hindex
    have hbehind : ∀ {rest : CodePointSet}, ∀ b ∈ Branch.spread index rest branches,
        a.first ≤ b.first := by
      intro rest b hb
      rcases (first_of_mem_spread hnonempty hb).2 with heq | ⟨a', ha', heq⟩
      · exact heq ▸ haindex
      · exact heq ▸ hle a' ha'
    have hpush : ∀ (on : CodePointSet) (isFinal : Bool) {rest : CodePointSet},
        ∀ b ∈ Branch.spread index rest branches,
        first { on, contributors := a.contributors.push index, isFinal } ≤ b.first :=
      fun on isFinal rest b hb ↦ first_push ha on isFinal ▸ hbehind b hb
    rw [Branch.spread]
    split
    · exact h.first_le
    · split
      · exact List.pairwise_cons.2 ⟨hbehind, ih⟩
      · dsimp only
        split
        · exact List.pairwise_cons.2 ⟨hpush _ _, ih⟩
        · refine List.pairwise_cons.2 ⟨?_, List.pairwise_cons.2 ⟨hpush _ _, ih⟩⟩
          exact List.forall_mem_cons.2 ⟨(first_push ha _ _).ge, hbehind⟩

theorem filter_isFinal_spread :
    (spread index rest branches).filter (·.isFinal) = branches.filter (·.isFinal) := by
  induction branches generalizing rest with
  | nil =>
    rw [spread]
    split <;> rfl
  | cons a branches ih =>
    rw [spread]
    split
    · rfl
    · split
      · rw [List.filter_cons, List.filter_cons, ih]
      · next hin =>
        rw [Bool.or_eq_true, not_or] at hin
        have ha := Bool.eq_false_iff.2 hin.1
        dsimp only
        split <;> simp [ha, ih]

/-! ## All successors -/

structure Ranked (t : Tree) (successors : List Successor) (branches : List Branch) : Prop where
  ordered : Ordered branches
  first_lt : ∀ b ∈ branches, b.first < successors.length
  final : branches.filter (·.isFinal) = (Successor.places (·.isFinal t) successors).map (ofFinal t)

theorem Ranked.empty : Ranked t [] [] := ⟨⟨nofun, .nil⟩, nofun, rfl⟩

theorem Ranked.add (h : Ranked t before branches) (s : Successor) :
    Ranked t (before ++ [s]) (Branch.add t branches s before.length) := by
  have hlength : (before ++ [s]).length = before.length + 1 := List.length_append
  unfold Branch.add
  split
  · next hfinal =>
    -- a way to find a match comes last
    constructor
    case ordered =>
      constructor
      · refine List.forall_mem_append.2 ⟨h.ordered.nonempty, fun b hb ↦ ?_⟩
        rw [List.mem_singleton.1 hb]
        exact nofun
      · refine List.pairwise_append.2 ⟨h.ordered.first_le, List.pairwise_singleton _ _,
          fun a ha b hb ↦ ?_⟩
        rw [List.mem_singleton.1 hb]
        exact Nat.le_of_lt (h.first_lt a ha)
    case first_lt =>
      rw [hlength]
      refine List.forall_mem_append.2 ⟨fun b hb ↦ Nat.lt_succ_of_lt (h.first_lt b hb),
        fun b hb ↦ ?_⟩
      rw [List.mem_singleton.1 hb]
      exact Nat.lt_succ_self _
    case final =>
      rw [List.filter_append, h.final, Successor.places_concat, if_pos hfinal, List.map_append]
      rfl
  · next hfinal =>
    constructor
    case ordered => exact h.ordered.spread fun b hb ↦ Nat.le_of_lt (h.first_lt b hb)
    case first_lt =>
      intro b hb
      rw [hlength]
      rcases (first_of_mem_spread h.ordered.nonempty hb).2 with heq | ⟨a, ha, heq⟩
      · exact heq ▸ Nat.lt_succ_self _
      · exact heq ▸ Nat.lt_succ_of_lt (h.first_lt a ha)
    case final =>
      rw [filter_isFinal_spread, h.final, Successor.places_concat, if_neg hfinal, List.append_nil]

/-- **The branches of a step are in order of priority**, and each way to find a match has one. -/
theorem ordered_ofSuccessors (t : Tree) (successors : Array Successor) :
    Ordered (ofSuccessors t successors) ∧ (ofSuccessors t successors).filter (·.isFinal) =
      (Successor.places (·.isFinal t) successors.toList).map (ofFinal t) := by
  have hranked := foldl_add_induction (t := t) (P := Ranked t) successors.toList
    .empty fun s _ h ↦ h.add s
  rw [List.nil_append, List.length_nil] at hranked
  unfold ofSuccessors
  rw [← Array.foldl_toList]
  dsimp only
  generalize (successors.toList.foldl _ _ : List Branch × Nat).1 = branches at hranked ⊢
  refine ⟨⟨fun b hb ↦ hranked.ordered.nonempty b (List.mem_filter.1 hb).1,
    hranked.ordered.first_le.filter _⟩, ?_⟩
  rw [← hranked.final, List.filter_filter]
  refine List.filter_congr fun b hb ↦ ?_
  cases hfinal : b.isFinal with
  | false => rfl
  | true =>
    -- to find a match is no look-behind progress
    have hmem := List.mem_filter.2 ⟨hb, hfinal⟩
    rw [hranked.final] at hmem
    obtain ⟨i, hi, heq⟩ := List.mem_map.1 hmem
    obtain ⟨s, hs, hsfinal⟩ := Successor.mem_places.1 hi
    rw [Array.getElem?_toList] at hs
    refine (Bool.true_and _).trans (leadsOn_iff.2 ⟨i, ?_, ?_⟩)
    · rw [← heq]
      exact List.mem_singleton_self i
    · rw [Array.getD_eq_getD_getElem?, hs, Option.getD_some]
      exact isProgress_of_isFinal hsfinal

/-! ## Partitions -/

/-- What the branches of some successors are. -/
structure Partitions (t : Tree) (successors : Array Successor) (branches : List Branch) :
    Prop where
  canonical : ∀ b ∈ branches, b.isFinal = false → b.on.Canonical ∧ b.on.isEmpty = false
  disjoint : branches.Pairwise fun a b ↦
    a.isFinal = false → b.isFinal = false → ∀ c ∈ a.on, c ∉ b.on
  /-- A character has a branch if it leads on by more than look-behind progress. -/
  covers : ∀ c, (∃ b ∈ branches, b.isFinal = false ∧ c ∈ b.on) ↔
    ∃ s ∈ successors, s.isFinal t = false ∧ s.isProgress t = false ∧ c ∈ s.chars t
  /-- A branch lists all successors that its characters lead on by, in order. -/
  contributors : ∀ b ∈ branches, b.isFinal = false →
    b.contributors.toList.Pairwise (· < ·) ∧ ∀ c ∈ b.on, ∀ i, i ∈ b.contributors ↔
      ∃ s, successors[i]? = some s ∧ s.isFinal t = false ∧ c ∈ s.chars t
  /-- Each way to find a match has a branch of its own, on all characters. -/
  final : branches.filter (·.isFinal) =
    (Successor.places (·.isFinal t) successors.toList).map (ofFinal t)
  /-- Branches come in the order of their first successors. -/
  ordered : Ordered branches
  /-- A branch leads to the targets of its successors, where a dollar stands for all dollars, and
  to the look-behind assertions passed on the way. -/
  target : ∀ b ∈ branches, ∀ x, x ∈ (target t successors b).members ↔
    ∃ i ∈ b.contributors, ∃ s, successors[i]? = some s ∧ (x ∈ s.lookBehinds ∨
      if (t.node s.target).kind = .dollar then x ∈ t.dollars else x = s.target)

theorem mem_markersOf (hcaret : (t.node s.target).kind ≠ .caret) {x : Nat} :
    x ∈ markersOf t s ↔ x ∈ s.lookBehinds ∨
      if (t.node s.target).kind = .dollar then x ∈ t.dollars else x = s.target := by
  rw [markersOf, List.mem_append, or_comm]
  refine or_congr_right ?_
  split
  · next hkind => exact absurd hkind hcaret
  · next hkind => rw [if_pos hkind, Array.mem_toList_iff]
  · next hkind => rw [if_neg hkind, List.mem_singleton]

/-- **Branches are a partition of the characters that lead on**, if classes have canonical sets. -/
theorem partitions_ofSuccessors {successors : Array Successor}
    (hchars : ∀ s ∈ successors, s.isFinal t = false → (s.chars t).Canonical)
    (hcaret : ∀ s ∈ successors, (t.node s.target).kind ≠ .caret) :
    Partitions t successors (ofSuccessors t successors) := by
  have hexact := exact_ofSuccessors hchars
  have hfilled := filled_ofSuccessors hchars
  obtain ⟨hordered, hfinal⟩ := ordered_ofSuccessors t successors
  have hreads : ∀ {s : Successor} {c : CodePoint},
      s.reads t c = true ↔ s.isFinal t = false ∧ c ∈ s.chars t := by
    intro s c
    rw [Successor.reads, Bool.and_eq_true, Bool.not_eq_true', decide_eq_true_iff]
  constructor
  case canonical =>
    intro b hb hbfinal
    obtain ⟨c, hc⟩ := hfilled b hb hbfinal
    refine ⟨hexact.separate.canonical b hb hbfinal, Bool.eq_false_iff.2 fun hempty ↦ ?_⟩
    exact CodePointSet.not_mem_of_isEmpty hempty hc
  case disjoint =>
    exact hexact.separate.disjoint.imp fun hab ha hb c hca hcb ↦ hab c ⟨ha, hca⟩ ⟨hb, hcb⟩
  case covers =>
    intro c
    refine hexact.reads_iff.trans (exists_congr fun s ↦ and_congr_right fun _ ↦ ?_)
    rw [hreads, and_assoc, and_comm (a := c ∈ s.chars t)]
  case contributors =>
    intro b hb hbfinal
    obtain ⟨c, hc⟩ := hfilled b hb hbfinal
    refine ⟨?_, fun c hc i ↦ ?_⟩
    · rw [hexact.contributors hb ⟨hbfinal, hc⟩]
      exact Successor.pairwise_places (p := fun s ↦ s.reads t c)
    · rw [← Array.mem_toList_iff, hexact.contributors hb ⟨hbfinal, hc⟩, Successor.mem_readers]
      simp only [hreads, Array.getElem?_toList]
  case final => exact hfinal
  case ordered => exact hordered
  case target =>
    intro b hb x
    -- what a branch lists is a successor, whether the branch finds a match or not
    have hlisted : ∀ i ∈ b.contributors, ∃ s, successors[i]? = some s := by
      intro i hi
      cases hbfinal : b.isFinal with
      | false => exact (hexact.reading hb hbfinal hi).imp fun _ ↦ And.left
      | true =>
        obtain ⟨j, s, hs, -, rfl⟩ := (hexact.final hbfinal).1 hb
        exact ⟨s, Array.mem_singleton.1 hi ▸ hs⟩
    refine mem_target.trans (exists_congr fun i ↦ and_congr_right fun hi ↦ ?_)
    obtain ⟨s, hs⟩ := hlisted i hi
    rw [Array.getD_eq_getD_getElem?, hs, Option.getD_some,
      mem_markersOf (hcaret s (Array.mem_of_getElem? hs))]
    simp only [Option.some.injEq, exists_eq_left']

end Branch

namespace Tree

variable {t : Tree} {held : MarkerSet} {mustAdvance : Bool}

/-- **The branches of a step partition the characters that lead on**, whatever markers it is made
from. -/
theorem Finished.partitions_step (h : t.Finished)
    (hcanonical : ∀ {x : Nat} {set : CodePointSet} {claim : Option Nat},
      (t.node x).kind = .chars set claim → set.Canonical) :
    Branch.Partitions t (t.step held mustAdvance)
      (Branch.ofSuccessors t (t.step held mustAdvance)) := by
  refine Branch.partitions_ofSuccessors (fun s _ _ ↦ ?_) fun s hs hcaret ↦ ?_
  · rw [Successor.chars]
    cases hkind : (t.node s.target).kind with
    | chars set claim => exact hcanonical hkind
    | _ => exact CodePointSet.canonical_nil
  · rcases h.regular.stepsCompletely.target s hs with hchars | hmatch | hdollar
    · rw [hcaret] at hchars
      cases hchars
    · rw [h.regular.matchFound_iff.2 hmatch] at hcaret
      cases hcaret
    · rw [hdollar] at hcaret
      cases hcaret

/-- Classes that overlap on both sides of a way to find a match, and look-behind progress at the
end. -/
theorem partitions_overlapping :
    ∃ t, ofPattern {} (.ofString "[ab]|d*$|[bc](?<=c)") = .ok t ∧
      (∀ {x : Nat} {set : CodePointSet} {claim : Option Nat},
        (t.node x).kind = .chars set claim → set.Canonical) ∧
      (t.step ⟨t.size, .single 18⟩ false).map (fun s ↦ (s.isFinal t, s.isProgress t)) =
        #[(false, false), (false, false), (true, false), (false, false), (false, true)] ∧
      Branch.Partitions t (t.step ⟨t.size, .single 18⟩ false)
        (Branch.ofSuccessors t (t.step ⟨t.size, .single 18⟩ false)) := by
  obtain ⟨t, ht, hsuccessors⟩ := exists_ofPattern
    (fun t ↦
      let held : MarkerSet := ⟨t.size, .single 18⟩
      (t.track held (t.firstWays held false)).map (fun s ↦ (s.isFinal t, s.isProgress t)) ==
        #[(false, false), (false, false), (true, false), (false, false), (false, true)])
    (show (ofPattern {} (.ofString "[ab]|d*$|[bc](?<=c)")).toOption.any _ = true by
      decide +kernel)
  have hregular := (Finished.ofPattern ht).regular
  have hcanonical : ∀ {x : Nat} {set : CodePointSet} {claim : Option Nat},
      (t.node x).kind = .chars set claim → set.Canonical :=
    fun hkind ↦ ((regular_of_ofPattern ht).2.fits_chars hkind).1
  refine ⟨t, ht, hcanonical, ?_, Finished.partitions_step (.ofPattern ht) hcanonical⟩
  rw [step_eq_track_ways hregular.forest hregular.fits]
  exact eq_of_beq hsuccessors

end Tree

end PatternAutomata
