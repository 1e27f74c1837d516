import PatternAutomata.Proofs.Automaton.Expansion
import PatternAutomata.Proofs.Pattern.Classes
import PatternAutomata.Proofs.Step.Completeness
import PatternAutomata.Proofs.Step.Partition

/-!
# Where branches lead

The branches of a step from markers of a regular tree. One that finds a match leads behind the
pattern. Any other leads to the classes that have just been read, and the look-behind assertions
passed on the way are the only markers besides.
-/

namespace PatternAutomata

namespace Tree

variable {t : Tree} {ok : CodePointSet → Prop} {held : MarkerSet} {mustAdvance : Bool}
  {d : Successor} {k : MarkerSet × Bool} {b : Branch} {x : Nat}

/-! ## Successors -/

theorem Regular.isLookBehind_of_mem (h : t.Regular ok) (hd : d ∈ t.step held mustAdvance) {l : Nat}
    (hl : l ∈ d.lookBehinds) : (t.node l).kind.isLookBehind = true := by
  -- whatever a path takes along on its way
  have hpath : ∀ {s : Stance} {p q : Path}, Path.Continues s p q → p.lookBehinds = [] →
      l ∈ q.lookBehinds → (s.tree.node l).kind.isLookBehind = true := by
    intro s p q hq hp hl
    induction hq with
    | refl => rw [hp] at hl; cases hl
    | tail _ hq ih => exact (Path.lookBehinds_of_mem_next hq hl).elim ih id
  rcases h.mem_step_iff.1 hd with hd | ⟨-, x, -, rfl⟩
  · have hway := (Successor.mem_of_mem_foldl_addFirst hd).resolve_left (Array.not_mem_empty _)
    obtain ⟨marker, isAtStart, -, q, hq, hdelivery⟩ := h.mem_ways.1 hway
    obtain ⟨y, -, rfl⟩ := Option.map_eq_some_iff.1 hdelivery
    exact hpath hq rfl hl
  · cases hl

theorem Regular.isFinal_eq (h : t.Regular ok) (hd : d ∈ t.step held mustAdvance) :
    d.isFinal t = !(t.node d.target).kind.isChars := by
  rw [Successor.isFinal, isFinal]
  rcases h.stepsCompletely.target d hd with hchars | hmatch | hdollar
  · obtain ⟨set, claim, hkind⟩ := NodeKind.isChars_iff.1 hchars
    rw [hkind]
    rfl
  · rw [h.matchFound_iff.2 hmatch]
    rfl
  · rw [hdollar]
    rfl

theorem Regular.canonical_chars (h : t.Regular t.encoding.Fits) (d : Successor) :
    (d.chars t).Canonical := by
  rw [Successor.chars]
  cases hkind : (t.node d.target).kind with
  | chars set claim => exact (h.fits_chars hkind).1
  | _ => exact CodePointSet.canonical_nil

theorem markersOf_of_isChars (hchars : (t.node d.target).kind.isChars = true) :
    Branch.markersOf t d = d.target :: d.lookBehinds := by
  obtain ⟨set, claim, hkind⟩ := NodeKind.isChars_iff.1 hchars
  rw [Branch.markersOf, hkind]
  rfl

/-! ## Branches -/

theorem Regular.exact_branches (h : t.Regular t.encoding.Fits) (k : MarkerSet × Bool) :
    Branch.Exact t (t.step k.1 k.2) (t.branches k) :=
  Branch.exact_ofSuccessors fun d _ _ ↦ h.canonical_chars d

theorem mem_targetOf : x ∈ (t.targetOf k b).members ↔
    ∃ i ∈ b.contributors, x ∈ Branch.markersOf t ((t.step k.1 k.2).getD i default) :=
  Branch.mem_target

/-- Where a branch leads that finds a match, everything is behind the pattern. -/
theorem Regular.ends_of_isFinal (h : t.Regular t.encoding.Fits) (hb : b ∈ t.branches k)
    (hfinal : b.isFinal = true) : t.Ends (t.targetOf k b) := by
  intro x hmem
  obtain ⟨i, d, hi, hd, rfl⟩ := ((h.exact_branches k).final hfinal).1 hb
  obtain ⟨j, hj, hx⟩ := mem_targetOf.1 hmem
  obtain rfl := Array.mem_singleton.1 hj
  rw [Array.getD_eq_getD_getElem?, hi, Option.getD_some, Branch.markersOf] at hx
  have hd := Array.mem_of_getElem? hi
  -- a caret and a dollar stand for all dollars, and any other target for itself
  rcases List.mem_append.1 hx with hx | hx
  · left
    split at hx
    · next hcaret =>
      have hdollar := (h.mem_dollars.1 (Array.mem_toList_iff.1 hx)).1
      rw [isFinal, hdollar]
    · have hdollar := (h.mem_dollars.1 (Array.mem_toList_iff.1 hx)).1
      rw [isFinal, hdollar]
    · rw [List.mem_singleton.1 hx]
      assumption
  · exact .inr (h.isLookBehind_of_mem hd hx)

theorem Regular.exists_chars_of_branch (h : t.Regular t.encoding.Fits) (hb : b ∈ t.branches k)
    (hfinal : b.isFinal = false) :
    ∃ x ∈ (t.targetOf k b).members, ∃ set, (t.node x).kind = .chars set none := by
  obtain ⟨i, hi, d, hd, hreads, hprogress⟩ := (h.exact_branches k).leadsOn hb hfinal
  have hmem := Array.mem_of_getElem? hd
  rw [h.isFinal_eq hmem, Bool.not_eq_false'] at hreads
  refine ⟨d.target, mem_targetOf.2 ⟨i, hi, ?_⟩, ?_⟩
  · rw [Array.getD_eq_getD_getElem?, hd, Option.getD_some, markersOf_of_isChars hreads]
    exact List.mem_cons_self
  · obtain ⟨set, claim, hkind⟩ := NodeKind.isChars_iff.1 hreads
    rw [Successor.isProgress, lookBehindOf, hkind, Option.isSome_eq_false_iff,
      Option.isNone_iff_eq_none] at hprogress
    exact ⟨set, by rw [hkind]; exact congrArg _ hprogress⟩

theorem Regular.exists_origin_of_branch (h : t.Regular t.encoding.Fits) (hb : b ∈ t.branches k) :
    ∃ x ∈ k.1.members, t.origin? x ≠ none := by
  have hway : ∀ {d}, d ∈ t.firstWays k.1 k.2 → ∃ x ∈ k.1.members, t.origin? x ≠ none := by
    intro d hd
    have hway := (Successor.mem_of_mem_foldl_addFirst hd).resolve_left (Array.not_mem_empty _)
    obtain ⟨x, isAtStart, hstarts, -⟩ := h.mem_ways.1 hway
    obtain ⟨hx, horigin⟩ := h.starts_iff.1 hstarts
    exact ⟨x, hx, by rw [horigin]; exact Option.some_ne_none _⟩
  have hstep : ∃ d, d ∈ t.step k.1 k.2 := by
    cases hfinal : b.isFinal with
    | true =>
      obtain ⟨i, d, hd, -⟩ := ((h.exact_branches k).final hfinal).1 hb
      exact ⟨d, Array.mem_of_getElem? hd⟩
    | false =>
      obtain ⟨i, -, d, hd, -⟩ := (h.exact_branches k).leadsOn hb hfinal
      exact ⟨d, Array.mem_of_getElem? hd⟩
  -- classes of look-behind bodies come along with something that is found
  obtain ⟨d, hd⟩ := hstep
  rcases h.mem_step_iff.1 hd with hd | ⟨hall, -⟩
  · exact hway hd
  · rw [Bool.eq_false_iff, ne_eq, Array.all_eq_true_iff_forall_mem] at hall
    push Not at hall
    obtain ⟨e, he, -⟩ := hall
    exact hway he

/-- Any other branch leads to the classes that its successors read and to the look-behind assertions
that these have passed. -/
theorem Regular.exists_successor_of_mem (h : t.Regular t.encoding.Fits) (hb : b ∈ t.branches k)
    (hfinal : b.isFinal = false) (hx : x ∈ (t.targetOf k b).members) : ∃ d ∈ t.step k.1 k.2,
      (t.node d.target).kind.isChars = true ∧ (x = d.target ∨ x ∈ d.lookBehinds) := by
  obtain ⟨i, hi, hmarker⟩ := mem_targetOf.1 hx
  obtain ⟨d, hd, hreads⟩ := (h.exact_branches k).reading hb hfinal hi
  rw [Array.getD_eq_getD_getElem?, hd, Option.getD_some] at hmarker
  have hd := Array.mem_of_getElem? hd
  rw [h.isFinal_eq hd, Bool.not_eq_false'] at hreads
  rw [markersOf_of_isChars hreads, List.mem_cons] at hmarker
  exact ⟨d, hd, hreads, hmarker⟩

theorem Regular.not_concludes_of_branch (h : t.Regular t.encoding.Fits) (hb : b ∈ t.branches k)
    (hfinal : b.isFinal = false) : ¬t.Concludes (t.targetOf k b) := by
  rintro ⟨x, hmem, hx⟩
  have hkind : (t.node x).kind = .matchFound ∨ (t.node x).kind = .dollar :=
    hx.imp_left h.matchFound_iff.2
  obtain ⟨d, hd, hreads, rfl | hlookBehind⟩ := h.exists_successor_of_mem hb hfinal hmem
  · rcases hkind with hkind | hkind <;> (rw [hkind] at hreads; cases hreads)
  · have hlookBehind := h.isLookBehind_of_mem hd hlookBehind
    rcases hkind with hkind | hkind <;> (rw [hkind] at hlookBehind; cases hlookBehind)

theorem Regular.concludes_of_isFinal (h : t.Regular t.encoding.Fits) (hb : b ∈ t.branches k)
    (hfinal : b.isFinal = true) : t.Concludes (t.targetOf k b) := by
  obtain ⟨i, d, hi, hd, rfl⟩ := ((h.exact_branches k).final hfinal).1 hb
  have hmem : ∀ {x}, x ∈ Branch.markersOf t d →
      x ∈ (t.targetOf k (Branch.ofFinal t i)).members := by
    intro x hx
    refine mem_targetOf.2 ⟨i, Array.mem_singleton.2 rfl, ?_⟩
    rwa [Array.getD_eq_getD_getElem?, hi, Option.getD_some]
  have hstep := Array.mem_of_getElem? hi
  rw [h.isFinal_eq hstep, Bool.not_eq_true'] at hd
  rcases h.stepsCompletely.target d hstep with hchars | hmatch | hdollar
  · exact Bool.noConfusion (hchars.symm.trans hd)
  · refine ⟨t.matchFound, hmem ?_, .inl rfl⟩
    rw [Branch.markersOf, h.matchFound_iff.2 hmatch, hmatch]
    exact List.mem_cons_self
  · obtain ⟨x, hx⟩ := h.exists_mem_dollars hstep hdollar
    refine ⟨x, hmem ?_, .inr (h.mem_dollars.1 hx).1⟩
    rw [Branch.markersOf, hdollar]
    exact List.mem_append_left _ (Array.mem_toList_iff.2 hx)

/-- **Branches that find a match lead behind the pattern, and no others do.** -/
theorem Regular.discerns (h : t.Regular t.encoding.Fits) : t.Discerns where
  ends {k b} hb := by
    refine ⟨h.ends_of_isFinal hb, fun hends ↦ ?_⟩
    by_contra hfinal
    obtain ⟨x, hx, set, hkind⟩ := h.exists_chars_of_branch hb (Bool.eq_false_iff.2 hfinal)
    rcases hends x hx with hmatch | hlookBehind
    · rw [isFinal, hkind] at hmatch
      cases hmatch
    · rw [hkind] at hlookBehind
      cases hlookBehind
  concludes {k b} hb := by
    refine ⟨h.concludes_of_isFinal hb, fun hconcludes ↦ ?_⟩
    by_contra hfinal
    exact h.not_concludes_of_branch hb (Bool.eq_false_iff.2 hfinal) hconcludes

/-- **Where a character leads.** The classes among the markers that a branch leads to are those
that read the character. -/
theorem Regular.mem_targetOf_iff (h : t.Regular t.encoding.Fits) (hb : b ∈ t.branches k)
    {c : CodePoint} (hc : b.Reads c) (hx : (t.node x).kind.isLookBehind = false) :
    x ∈ (t.targetOf k b).members ↔
      ∃ d ∈ t.step k.1 k.2, d.target = x ∧ d.reads t c = true := by
  have hcontributors : ∀ {i}, i ∈ b.contributors ↔
      ∃ d, (t.step k.1 k.2)[i]? = some d ∧ d.reads t c = true := by
    intro i
    rw [← Array.mem_toList_iff, (h.exact_branches k).contributors hb hc, Successor.mem_readers,
      Array.getElem?_toList]
  have hmarkers : ∀ {d}, d ∈ t.step k.1 k.2 → d.reads t c = true →
      (x ∈ Branch.markersOf t d ↔ d.target = x) := by
    intro d hd hreads
    rw [Successor.reads, Bool.and_eq_true, Bool.not_eq_true', h.isFinal_eq hd,
      Bool.not_eq_false'] at hreads
    rw [markersOf_of_isChars hreads.1, List.mem_cons]
    refine ⟨fun hmem ↦ ?_, fun heq ↦ .inl heq.symm⟩
    rcases hmem with rfl | hmem
    · rfl
    · rw [h.isLookBehind_of_mem hd hmem] at hx
      cases hx
  rw [mem_targetOf]
  constructor
  · rintro ⟨i, hi, hmem⟩
    obtain ⟨d, hd, hreads⟩ := hcontributors.1 hi
    rw [Array.getD_eq_getD_getElem?, hd, Option.getD_some] at hmem
    have hd := Array.mem_of_getElem? hd
    exact ⟨d, hd, (hmarkers hd hreads).1 hmem, hreads⟩
  · rintro ⟨d, hd, heq, hreads⟩
    obtain ⟨i, hi⟩ := Array.mem_iff_getElem?.1 hd
    refine ⟨i, hcontributors.2 ⟨d, hi, hreads⟩, ?_⟩
    rw [Array.getD_eq_getD_getElem?, hi, Option.getD_some]
    exact (hmarkers hd hreads).2 heq

end Tree

end PatternAutomata
