import PatternAutomata.Proofs.Language.Mirrors
import PatternAutomata.Proofs.Tree.Filling

/-!
# What quantifiers mean

A quantified atom matches what the atom matches some number of times in a row. What a quantifier
places are uses of the atom, which are the atom itself or copies of it, and all of them match what
the atom does; so to know what is matched is to know how the uses are laid out: as terms one after
another, as optional groups within each other, or as the body of a loop.

The layout is described on its own here, with the order in which alternatives are preferred, and its
meaning is read off it, one part after another.
-/

namespace PatternAutomata

/-! ## Choices -/

namespace Arena

/-- A group with two alternatives, a body of some terms and a way out that is empty. The body comes
first, unless the group is lazy. -/
structure Choice (a : Arena) (loop : Option LoopKind) (isLazy : Bool) (terms : List Nat)
    (group body exit : Nat) : Prop where
  lt : group < a.size ∧ body < a.size ∧ exit < a.size
  kind : (a.node group).kind = .group { loop }
  order : (a.node group).children.toList = if isLazy then [exit, body] else [body, exit]
  kind_body : (a.node body).kind = .sequence
  terms_body : (a.node body).children.toList = terms
  kind_exit : (a.node exit).kind = .sequence
  terms_exit : (a.node exit).children.toList = []

/-- A group that offers some terms or nothing, in the order of preference. -/
def Offers (a : Arena) (loop : Option LoopKind) (isLazy : Bool) (terms : List Nat) (group : Nat) :
    Prop := ∃ body exit, a.Choice loop isLazy terms group body exit

end Arena

namespace Tree

variable {t : Tree} {w : List CodePoint} {anchored isLazy isAgain : Bool} {s e group u : Nat}
  {kind : LoopKind} {terms : List Nat}

theorem exists_alternatives {loop : Option LoopKind} (h : t.arena.Offers loop isLazy terms group) :
    ∃ body exit, (t.node group).kind = .group { loop } ∧
      (∀ {c}, c ∈ (t.node group).children ↔ c = body ∨ c = exit) ∧
      ((t.node body).isEmpty = terms.isEmpty ∧ (t.node exit).isEmpty = true) ∧
      ∀ {w anchored s e},
        (t.Matches w anchored (.node body) s e ↔ t.Matches w anchored (.terms terms) s e) ∧
          (t.Matches w anchored (.node exit) s e ↔ s = e) := by
  obtain ⟨body, exit, -, hkind, horder, hbody, hterms, hexit, hempty⟩ := h
  refine ⟨body, exit, hkind, fun {c} ↦ ?_, ⟨?_, ?_⟩, fun {w anchored s e} ↦ ⟨?_, ?_⟩⟩
  · rw [← Array.mem_toList_iff]
    refine (Eq.to_iff (congrArg (c ∈ ·) horder)).trans ?_
    cases isLazy <;> simp [or_comm]
  · exact Arena.isEmpty_eq.trans (congrArg List.isEmpty hterms)
  · exact Arena.isEmpty_eq.trans (congrArg List.isEmpty hempty)
  · exact matches_sequence_iff hbody hterms
  · exact (matches_sequence_iff hexit hempty).trans matches_nil_iff

theorem matches_optional_iff (h : t.arena.Offers none isLazy terms group) :
    t.Matches w anchored (.node group) s e ↔ t.Matches w anchored (.terms terms) s e ∨ s = e := by
  obtain ⟨body, exit, hkind, hmem, -, hmatch⟩ := exists_alternatives h
  rw [← hmatch.1, ← hmatch.2]
  constructor
  · intro hm
    obtain ⟨c, hc, hm⟩ := hm.of_group hkind rfl
    rcases hmem.1 hc with rfl | rfl
    · exact .inl hm
    · exact .inr hm
  · rintro (hm | hm)
    · exact .choice hkind rfl (hmem.2 (.inl rfl)) hm
    · exact .choice hkind rfl (hmem.2 (.inr rfl)) hm

/-- The iterations of a loop around a term match what the term does some number of times. -/
theorem matches_rounds_iff (h : t.arena.Offers (some kind) isLazy [u] group) :
    t.Matches w anchored (.rounds group isAgain) s e ↔
      ∃ k, (kind = .plus → isAgain = false → 1 ≤ k) ∧
        t.Matches w anchored (.terms (List.replicate k u)) s e := by
  obtain ⟨body, exit, hkind, hmem, ⟨hfull, hempty⟩, hmatch⟩ := exists_alternatives h
  simp only [matches_singleton_iff] at hmatch
  constructor
  · -- along the iterations, each of which is one more use
    intro hm
    generalize hpiece : Piece.rounds group isAgain = piece at hm
    induction hm generalizing isAgain with
    | exit hkind' hplus hc hempty' hm =>
      cases hpiece
      cases hkind.symm.trans hkind'
      rcases hmem.1 hc with rfl | rfl
      · rw [hfull] at hempty'
        cases hempty'
      · refine ⟨0, fun hk hagain ↦ ?_, matches_nil_iff.2 (hmatch.2.1 hm)⟩
        rw [hplus (congrArg some hk)] at hagain
        cases hagain
    | round hkind' _ hc hempty' hm _ _ ih =>
      cases hpiece
      rcases hmem.1 hc with rfl | rfl
      · obtain ⟨k, -, hk⟩ := ih rfl
        exact ⟨k + 1, fun _ _ ↦ Nat.le_add_left .., matches_cons_iff.2 ⟨_, hmatch.1.1 hm, hk⟩⟩
      · rw [hempty] at hempty'
        cases hempty'
    | _ => cases hpiece
  · rintro ⟨k, hk, hm⟩
    induction k generalizing s isAgain with
    | zero =>
      refine .exit hkind (fun hplus ↦ ?_) (hmem.2 (.inr rfl)) hempty (hmatch.2.2 hm.of_nil)
      by_contra hagain
      exact absurd (hk (Option.some.inj hplus) (Bool.eq_false_iff.2 hagain)) (by omega)
    | succ k ih =>
      obtain ⟨m, hu, hm⟩ := hm.of_cons
      exact .round hkind rfl (hmem.2 (.inl rfl)) hfull (hmatch.1.2 hu)
        (ih (fun _ hagain ↦ by cases hagain) hm)

theorem matches_loop_iff (h : t.arena.Offers (some kind) isLazy [u] group) :
    t.Matches w anchored (.node group) s e ↔
      ∃ k, (kind = .plus → 1 ≤ k) ∧ t.Matches w anchored (.terms (List.replicate k u)) s e := by
  have ⟨_, _, hchoice⟩ := h
  have hloop : t.Matches w anchored (.node group) s e ↔
      t.Matches w anchored (.rounds group false) s e :=
    ⟨(·.of_loop hchoice.kind rfl), .loop hchoice.kind rfl⟩
  rw [hloop, matches_rounds_iff h]
  simp

end Tree

/-! ## Layouts -/

/-- Terms that an atom of an arena `a` is unrolled to, to match what it matches a number of times in
a row, within bounds. All uses mirror the atom. -/
inductive Arena.Unrolled (a : Arena) (atom : Nat) (b : Arena) (isLazy : Bool) :
    Nat → Option Nat → List Nat → Prop
  | done : Unrolled a atom b isLazy 0 (some 0) []
  /-- A use, and some more. -/
  | once {u least : Nat} {greatest : Option Nat} {rest : List Nat} : a.Mirrors atom b u →
      Unrolled a atom b isLazy least greatest rest →
      Unrolled a atom b isLazy (least + 1) (greatest.map (· + 1)) (u :: rest)
  /-- A use and some more, all of which may be left out. -/
  | optional {group u n : Nat} {rest : List Nat} : a.Mirrors atom b u →
      Unrolled a atom b isLazy 0 (some n) rest → b.Offers none isLazy (u :: rest) group →
      Unrolled a atom b isLazy 0 (some (n + 1)) [group]
  /-- Any number of uses. -/
  | star {group u : Nat} : a.Mirrors atom b u → b.Offers (some .star) isLazy [u] group →
      Unrolled a atom b isLazy 0 none [group]
  /-- One use at least. -/
  | plus {group u : Nat} : a.Mirrors atom b u → b.Offers (some .plus) isLazy [u] group →
      Unrolled a atom b isLazy 1 none [group]

namespace Arena.Unrolled

variable {a b : Arena} {atom u group least : Nat} {isLazy : Bool} {greatest : Option Nat}
  {uses rest : List Nat}

theorem loop (hu : a.Mirrors atom b u)
    (hoffers : b.Offers (some (if least = 0 then .star else .plus)) isLazy [u] group) :
    a.Unrolled atom b isLazy (min least 1) none [group] := by
  cases least with
  | zero => exact .star hu hoffers
  | succ least =>
    rw [Nat.min_eq_right (Nat.le_add_left 1 least)]
    exact .plus hu hoffers

theorem times
    (h : a.Unrolled atom b isLazy least greatest rest) (huses : ∀ u ∈ uses, a.Mirrors atom b u) :
    a.Unrolled atom b isLazy (least + uses.length) (greatest.map (· + uses.length))
      (uses ++ rest) := by
  induction uses with
  | nil => simpa using h
  | cons u uses ih =>
    obtain ⟨hu, huses⟩ := List.forall_mem_cons.1 huses
    simpa [Function.comp_def, Nat.add_assoc] using Unrolled.once hu (ih huses)

end Arena.Unrolled

namespace Tree

variable {t t' : Tree} {w : List CodePoint} {anchored isLazy : Bool} {s e atom u k : Nat}
  {kind : LoopKind} {group least : Nat} {greatest : Option Nat} {terms : List Nat}

theorem matches_replicate_iff (h : t.arena.Mirrors atom t'.arena u) :
    t'.Matches w anchored (.terms (List.replicate k u)) s e ↔
      t.Matches w anchored (.terms (List.replicate k atom)) s e := by
  refine matches_terms_iff_of_mirrors ?_
  induction k with
  | zero => exact .nil
  | succ k ih => exact .cons h ih

theorem matches_loop_iff_of_mirrors (h : t.arena.Mirrors atom t'.arena u)
    (hoffers : t'.arena.Offers (some kind) isLazy [u] group) :
    t'.Matches w anchored (.node group) s e ↔
      ∃ k, (kind = .plus → 1 ≤ k) ∧
        t.Matches w anchored (.terms (List.replicate k atom)) s e := by
  rw [matches_loop_iff hoffers]
  exact exists_congr fun k ↦ and_congr_right fun _ ↦ matches_replicate_iff h

/-- **What a layout means.** The terms match what the atom matches some number of times in a row,
within the bounds. -/
theorem matches_unrolled_iff
    (h : t.arena.Unrolled atom t'.arena isLazy least greatest terms) :
    t'.Matches w anchored (.terms terms) s e ↔
      ∃ k, least ≤ k ∧ (∀ n ∈ greatest, k ≤ n) ∧
        t.Matches w anchored (.terms (List.replicate k atom)) s e := by
  -- along the layout: a use in front adds one to the number, whatever the rest stands for
  induction h generalizing s with
  | done =>
    constructor
    · exact fun hm ↦ ⟨0, Nat.le_refl _, fun _ _ ↦ Nat.zero_le _, matches_nil_iff.2 hm.of_nil⟩
    · rintro ⟨k, -, hk, hm⟩
      obtain rfl : k = 0 := Nat.le_zero.1 (hk 0 rfl)
      exact matches_nil_iff.2 hm.of_nil
  | once hu _ ih =>
    simp only [matches_cons_iff, matches_iff_of_mirrors hu, ih]
    constructor
    · rintro ⟨m, hfirst, k, hleast, hgreatest, hm⟩
      refine ⟨k + 1, Nat.succ_le_succ hleast, ?_, .cons hfirst hm⟩
      simpa using hgreatest
    · rintro ⟨k, hleast, hgreatest, hm⟩
      obtain ⟨k, rfl⟩ := Nat.exists_eq_add_of_le' (Nat.le_trans (Nat.le_add_left 1 _) hleast)
      obtain ⟨m, hfirst, hm⟩ := hm.of_cons
      exact ⟨m, hfirst, k, Nat.le_of_succ_le_succ hleast, by simpa using hgreatest, hm⟩
  | @optional group u n rest hu _ hoffers ih =>
    rw [matches_singleton_iff, matches_optional_iff hoffers, matches_cons_iff]
    simp only [matches_iff_of_mirrors hu, ih]
    constructor
    · rintro (⟨m, hfirst, k, -, hgreatest, hm⟩ | rfl)
      · refine ⟨k + 1, Nat.zero_le _, ?_, .cons hfirst hm⟩
        simpa using hgreatest
      · exact ⟨0, Nat.zero_le _, fun _ _ ↦ Nat.zero_le _, .nil⟩
    · rintro ⟨k, -, hgreatest, hm⟩
      cases k with
      | zero => exact .inr hm.of_nil
      | succ k =>
        obtain ⟨m, hfirst, hm⟩ := hm.of_cons
        exact .inl ⟨m, hfirst, k, Nat.zero_le _, by simpa using hgreatest, hm⟩
  | star hu hoffers | plus hu hoffers =>
    rw [matches_singleton_iff, matches_loop_iff_of_mirrors hu hoffers]
    simp

end Tree

end PatternAutomata
