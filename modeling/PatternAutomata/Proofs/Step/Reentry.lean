import Mathlib.Data.Finset.Powerset
import Mathlib.Data.Fintype.Prod
import Mathlib.Data.List.Sort
import Mathlib.Tactic.Ring
import PatternAutomata.Proofs.Language.Walks
import PatternAutomata.Proofs.Step.Contexts

/-!
# Which loops a path starts again

A path starts a loop again from the end of an iteration. Either the iteration has been gone through
without a character, or the path has started within it: then the loop surrounds the marker, and
these loops are started again from the innermost one outward. So of the loops that a path has
started again, those around the marker are known by their number, and all others can be idle.
-/

namespace PatternAutomata

/-- A loop surrounds a node: the node stands within one of its iterations. -/
def Tree.Surrounds (t : Tree) (loop x : Nat) : Prop :=
  ∃ body, Repeats t (.back body) loop ∧ t.arena.Below x body

/-- A loop can be idle: an iteration can be gone through without reading a character. -/
def Stance.Idles (s : Stance) (loop : Nat) : Prop :=
  ∃ body, Repeats s.tree (.back body) loop ∧ s.Reaches (.front body) (.back body)

namespace Tree

variable {t : Tree} {loop loop' x : Nat}

theorem Surrounds.below (h : t.Surrounds loop x) : t.arena.Below x loop := by
  obtain ⟨body, hrepeats, hbelow⟩ := h
  exact hbelow.tail hrepeats.parent

theorem Surrounds.ne (h : t.Surrounds loop x) (hforest : t.arena.Forest) : loop ≠ x := by
  rintro rfl
  obtain ⟨body, hrepeats, hbelow⟩ := h
  exact hforest.not_below_parent hrepeats.parent hbelow

end Tree

theorem Repeats.mem_loops {t : Tree} {u : Spot} {loop : Nat} (h : Repeats t u loop)
    (hforest : t.arena.Forest) : loop ∈ t.arena.loops :=
  Finset.mem_filter.2 ⟨Finset.mem_range.2 (hforest.parent_lt h.parent), h.isLoop⟩

section Moves

variable {t : Tree} {passes : Nat → Prop} {isAtStart : Prop} {u v : Spot} {x loop : Nat}

theorem Move.below_or_front (hforest : t.arena.Forest) (hproper : t.Proper u)
    (h : Move t passes isAtStart u v) (hv : t.arena.Below v.node x) :
    t.arena.Below u.node x ∨ v = .front x := by
  have hdown : ∀ {c p : Nat}, t.arena.Up c p → t.arena.Below c x →
      t.arena.Below p x ∨ Spot.front c = .front x :=
    fun hup hc ↦ (hc.eq_or_of_up hup).symm.imp_right (congrArg Spot.front)
  cases h with
  | again hrepeats => exact .inl (.head hrepeats.parent hv)
  | onward h =>
    cases h with
    | first hkind hc =>
      obtain rfl := hproper.eq_false_of_kind hkind rfl
      exact hdown (hforest.child hc).1 hv
    | choose _ hc _ => exact hdown (hforest.up_of_mem hc) hv
    | next hparent _ hc =>
      obtain rfl := hproper.eq_false_of_leaving
      exact (hdown (hforest.child hc).1 hv).imp_left (.head hparent ·)
    | last hparent _ _ => exact .inl (.head hparent hv)
    | out hparent _ _ => exact .inl (.head hparent hv)
    | _ => exact .inl hv

theorem Move.below_or_back (hforest : t.arena.Forest) (h : Move t passes isAtStart u v)
    (hu : t.arena.Below u.node x) :
    t.arena.Below v.node x ∨ u.node = x ∧ u.isLeaving = true := by
  have hup : ∀ {c p : Nat}, t.arena.Up c p → t.arena.Below c x → t.arena.Below p x ∨ c = x :=
    fun hup hc ↦ (hc.eq_or_of_up hup).symm
  cases h with
  | again hrepeats => exact (hup hrepeats.parent hu).imp_right (⟨·, hrepeats.isLeaving⟩)
  | onward h =>
    cases h with
    | first _ hc => exact .inl (.head (hforest.child hc).1 hu)
    | choose _ hc _ => exact .inl (.head (hforest.up_of_mem hc) hu)
    | next hparent _ hc =>
      exact (hup hparent hu).imp (.head (hforest.child hc).1 ·) (⟨·, rfl⟩)
    | last hparent _ _ => exact (hup hparent hu).imp_right (⟨·, rfl⟩)
    | out hparent _ _ => exact (hup hparent hu).imp_right (⟨·, rfl⟩)
    | _ => exact .inl hu

/-- From the end of an iteration there is one way only, back to the front of the loop. -/
theorem Repeats.not_onward (h : Repeats t u loop) : ¬Onward t passes isAtStart u v := by
  obtain ⟨hleaving, hparent, ⟨g, hkind, hloop⟩, hnonempty⟩ := h
  intro honward
  cases honward with
  | next hparent' hkind' _ =>
    obtain rfl := Option.some.inj (hparent.symm.trans hparent')
    cases hkind.symm.trans hkind'
  | last hparent' hkind' _ =>
    obtain rfl := Option.some.inj (hparent.symm.trans hparent')
    cases hkind.symm.trans hkind'
  | out hparent' hkind' hempty =>
    obtain rfl := Option.some.inj (hparent.symm.trans hparent')
    cases hkind.symm.trans hkind'
    exact Bool.noConfusion (hnonempty.symm.trans (hempty hloop))
  | _ => cases hleaving

/-- Whether a move starts a loop again is decided by the end that it comes from. -/
theorem Repeats.of_node_eq (h : Repeats t u loop) (hnode : v.node = u.node)
    (hleaving : v.isLeaving = true) : Repeats t v loop where
  isLeaving := hleaving
  parent := hnode ▸ h.parent
  loops := h.loops
  nonempty := hnode ▸ h.nonempty

end Moves

/-! ## Where a path has come from -/

/-- What is known about a path that has started from a marker. -/
structure Path.Returns (s : Stance) (marker : Nat) (p : Path) : Prop where
  proper : s.tree.Proper p.spot
  /-- It has come into every node by its front, save for the nodes around the marker. -/
  entered : ∀ {x : Nat}, s.tree.arena.Below p.node x →
    s.tree.arena.Below marker x ∨ s.Reaches (.front x) p.spot
  /-- When it leaves an iteration that it has started in, it starts the loop again. -/
  left : ∀ {body loop : Nat}, Repeats s.tree (.back body) loop → s.tree.arena.Below marker body →
    s.tree.arena.Below p.node body ∨ loop ∈ p.reentered
  /-- The loops that it has started again surround the marker, or they can be idle. -/
  reentered : ∀ {loop : Nat}, loop ∈ p.reentered → s.tree.Surrounds loop marker ∨ s.Idles loop
  /-- Those around the marker have been started again from the innermost one outward. -/
  outward : ∀ {loop inner : Nat}, loop ∈ p.reentered → s.tree.Surrounds inner marker →
    s.tree.arena.Below inner loop → inner ∈ p.reentered

namespace Path

variable {s : Stance} {marker : Nat} {p q : Path}

theorem returns_start : Returns s marker { node := marker, isLeaving := true } where
  proper := nofun
  entered := .inl
  left _ := .inl
  reentered h := absurd h (IndexSet.not_mem_empty _)
  outward h := absurd h (IndexSet.not_mem_empty _)

theorem Returns.entered_of_mem_next (h : p.Returns s marker) (hforest : s.tree.arena.Forest)
    (hmove : s.Move p.spot q.spot) {x : Nat} (hx : s.tree.arena.Below q.node x) :
    s.tree.arena.Below marker x ∨ s.Reaches (.front x) q.spot := by
  rcases hmove.below_or_front hforest h.proper hx with hp | hfront
  · exact (h.entered hp).imp_right (.tail · hmove)
  · exact .inr (hfront ▸ .refl)

/-- **The step lemma of paths from a marker.** -/
theorem Returns.of_mem_next (h : p.Returns s marker) (hforest : s.tree.arena.Forest)
    (hfit : s.tree.LengthsFit) (hq : q ∈ p.next s) : q.Returns s marker := by
  have hleads := leads_of_mem_next hfit hq
  have hmove := hleads.move
  cases hleads with
  | onward honward hsame =>
    refine ⟨h.proper.move hmove, h.entered_of_mem_next hforest hmove, ?_, ?_, ?_⟩
    · intro body loop hrepeats hmarker
      rw [hsame]
      rcases h.left hrepeats hmarker with hp | hloop
      · refine (hmove.below_or_back hforest hp).imp_right ?_
        rintro ⟨hnode, hleaving⟩
        exact absurd honward (hrepeats.of_node_eq hnode hleaving).not_onward
      · exact .inr hloop
    · rw [hsame]
      exact h.reentered
    · rw [hsame]
      exact h.outward
  | @again loop hrepeats hnew hspot hmore =>
    have hleaving : p.spot = .back p.node := by
      rw [spot, show p.isLeaving = true from hrepeats.isLeaving, show p.isReentry = false from
        h.proper.isReentry_eq_false (.inl hrepeats.isLeaving)]
    refine ⟨h.proper.move hmove, h.entered_of_mem_next hforest hmove, ?_, ?_, ?_⟩
    · intro body loop' hrepeats' hmarker
      rw [hmore, IndexSet.mem_insert]
      rcases h.left hrepeats' hmarker with hp | hloop
      · refine (hmove.below_or_back hforest hp).imp_right ?_
        rintro ⟨hnode, -⟩
        have hnode : p.node = body := hnode
        exact .inr (Option.some.inj (hrepeats'.parent.symm.trans (hnode ▸ hrepeats.parent)))
      · exact .inr (.inl hloop)
    · intro loop' hloop'
      rw [hmore, IndexSet.mem_insert] at hloop'
      rcases hloop' with hloop' | rfl
      · exact h.reentered hloop'
      -- the iteration that ends has been entered on the way, or the path has started within it
      rw [hleaving] at hrepeats
      rcases h.entered (x := p.node) .refl with hmarker | hreaches
      · exact .inl ⟨_, hrepeats, hmarker⟩
      · exact .inr ⟨_, hrepeats, hleaving ▸ hreaches⟩
    · intro loop' inner hloop' hsurrounds hbelow
      rw [hmore, IndexSet.mem_insert] at hloop' ⊢
      rcases hloop' with hloop' | rfl
      · exact .inl (h.outward hloop' hsurrounds hbelow)
      by_cases hsame : inner = loop'
      · exact .inr hsame
      obtain ⟨body, hbody, hmarker⟩ := hsurrounds
      -- an iteration of an inner loop has been left before the end of one of the outer loop
      refine .inl ((h.left hbody hmarker).resolve_left fun hp ↦ ?_)
      rcases Arena.Below.eq_or_of_up hp hrepeats.parent with heq | hloop
      · exact hsame (Option.some.inj (hbody.parent.symm.trans (heq ▸ hrepeats.parent)))
      · exact hforest.not_below_parent hbody.parent (hbelow.trans hloop)

theorem Continues.returns (hforest : s.tree.arena.Forest) (hfit : s.tree.LengthsFit)
    (h : Continues s { node := marker, isLeaving := true } q) : q.Returns s marker := by
  induction h with
  | refl => exact returns_start
  | tail _ hq ih => exact ih.of_mem_next hforest hfit hq

end Path

/-! ## How many contexts there are -/

namespace IndexSet

theorem eq_of_mem_iff {s t : IndexSet} (h : ∀ i, i ∈ s ↔ i ∈ t) : s = t := by
  obtain ⟨l, hl⟩ := s
  obtain ⟨l', hl'⟩ := t
  obtain rfl : l = l' := by
    have hperm : l.Perm l' := (List.perm_ext_iff_of_nodup (hl.imp Nat.ne_of_lt)
      (hl'.imp Nat.ne_of_lt)).2 h
    exact hperm.eq_of_pairwise (fun _ _ _ _ hab hba ↦ absurd hba (Nat.lt_asymm hab)) hl hl'
  rfl

end IndexSet

namespace Path

open Classical in
/-- The loops around a marker that have been started again. -/
noncomputable def Context.around (s : Stance) (marker : Nat) (c : Context) : Finset Nat :=
  s.tree.arena.loops.filter fun loop ↦ loop ∈ c.reentered ∧ s.tree.Surrounds loop marker

variable {s : Stance} {marker loop : Nat} {p q : Path} {c : Context}

open Classical in
theorem Context.mem_around (hforest : s.tree.arena.Forest) : loop ∈ c.around s marker ↔
    loop ∈ c.reentered ∧ s.tree.Surrounds loop marker := by
  rw [around, Finset.mem_filter, and_iff_right_iff_imp]
  rintro ⟨-, body, hrepeats, -⟩
  exact hrepeats.mem_loops hforest

theorem Context.card_around_lt (hforest : s.tree.arena.Forest) (hmarker : marker < s.tree.size) :
    (c.around s marker).card < s.tree.size := by
  have hsubset : c.around s marker ⊆ (Finset.range s.tree.size).erase marker := by
    intro loop hloop
    obtain ⟨-, hsurrounds⟩ := (mem_around hforest).1 hloop
    exact Finset.mem_erase.2 ⟨hsurrounds.ne hforest,
      Finset.mem_range.2 (hforest.lt_of_below hsurrounds.below hmarker)⟩
  calc (c.around s marker).card ≤ ((Finset.range s.tree.size).erase marker).card :=
        Finset.card_le_card hsubset
    _ < (Finset.range s.tree.size).card :=
        Finset.card_erase_lt_of_mem (Finset.mem_range.2 hmarker)
    _ = s.tree.size := Finset.card_range _

/-- Of the loops around a marker the same number makes the same loops. -/
theorem Returns.around_eq (hforest : s.tree.arena.Forest) (hp : p.Returns s marker)
    (hq : q.Returns s marker)
    (hcard : (p.context.around s marker).card = (q.context.around s marker).card) :
    p.context.around s marker = q.context.around s marker := by
  have hinto : ∀ {p q : Path}, p.Returns s marker → q.Returns s marker → ∀ {loop},
      loop ∈ p.context.around s marker → loop ∉ q.context.around s marker →
      q.context.around s marker ⊆ p.context.around s marker := by
    intro p q hp hq loop hloop hnot other hother
    obtain ⟨hreentered, hloop⟩ := (Context.mem_around hforest).1 hloop
    obtain ⟨hreentered', hother⟩ := (Context.mem_around hforest).1 hother
    rw [Context.mem_around hforest] at hnot ⊢
    rcases hloop.below.total hother.below with hinner | houter
    · exact absurd ⟨hq.outward hreentered' hloop hinner, hloop⟩ hnot
    · exact ⟨hp.outward hreentered hother houter, hother⟩
  by_cases hsubset : p.context.around s marker ⊆ q.context.around s marker
  · exact Finset.eq_of_subset_of_card_le hsubset hcard.ge
  · obtain ⟨loop, hloop, hnot⟩ := Finset.not_subset.1 hsubset
    exact (Finset.eq_of_subset_of_card_le (hinto hp hq hloop hnot) hcard.le).symm

/-- What a context is known by: where a path stands, whether it has passed a dollar, how many loops
around the marker it has started again, and which of those that can be idle. -/
noncomputable def Context.code (s : Stance) (marker : Nat) (idle : Finset Nat) (c : Context) :
    (Nat × Bool × Bool × Bool) × Nat × Finset Nat :=
  ((c.node, c.isLeaving, c.isReentry, c.isAfterDollar), (c.around s marker).card,
    idle.filter (· ∈ c.reentered))

/-- All codes that there may be. -/
def Context.codes (t : Tree) (idle : Finset Nat) :
    Finset ((Nat × Bool × Bool × Bool) × Nat × Finset Nat) :=
  (Finset.range t.size ×ˢ Finset.univ) ×ˢ Finset.range t.size ×ˢ idle.powerset

theorem Context.card_codes (t : Tree) (idle : Finset Nat) :
    (codes t idle).card = 8 * t.size * t.size * 2 ^ idle.card := by
  simp only [codes, Finset.card_product, Finset.card_range, Finset.card_powerset,
    Finset.card_univ, Fintype.card_prod, Fintype.card_bool]
  ring

theorem Returns.context_eq_of_code_eq (hforest : s.tree.arena.Forest) {idle : Finset Nat}
    (hidle : ∀ {loop}, s.Idles loop → loop ∈ idle) (hp : p.Returns s marker)
    (hq : q.Returns s marker)
    (h : p.context.code s marker idle = q.context.code s marker idle) : p.context = q.context := by
  simp only [Context.code, Prod.mk.injEq] at h
  obtain ⟨⟨hnode, hleaving, hreentry, hdollar⟩, hcard, hfilter⟩ := h
  have haround := hp.around_eq hforest hq hcard
  have hreentered : p.context.reentered = q.context.reentered := by
    have hinto : ∀ {p q : Path}, p.Returns s marker →
        p.context.around s marker = q.context.around s marker →
        idle.filter (· ∈ p.context.reentered) = idle.filter (· ∈ q.context.reentered) →
        ∀ loop, loop ∈ p.context.reentered → loop ∈ q.context.reentered := by
      intro p q hp haround hfilter loop hloop
      rcases hp.reentered hloop with hsurrounds | hidles
      · exact ((Context.mem_around hforest).1
          (haround ▸ (Context.mem_around hforest).2 ⟨hloop, hsurrounds⟩)).1
      · exact (Finset.mem_filter.1 (hfilter ▸ Finset.mem_filter.2 ⟨hidle hidles, hloop⟩)).2
    exact IndexSet.eq_of_mem_iff fun loop ↦
      ⟨hinto hp haround hfilter loop, hinto hq haround.symm hfilter.symm loop⟩
  rw [Context.mk.injEq]
  exact ⟨hnode, hleaving, hreentry, hdollar, hreentered⟩

end Path

namespace Walk

variable {s : Stance} {marker : Nat} {w : Walk}

theorem nodup_visited (w : Walk) : w.visited.toList.Nodup :=
  w.visited.distinct_toList.imp fun h ↦ by simpa using h

theorem card_visited (w : Walk) : w.visited.toList.toFinset.card = w.visited.size := by
  rw [List.toFinset_card_of_nodup w.nodup_visited, Std.HashSet.length_toList]

/-- **What is seen from a marker** is bounded by the square of the number of nodes, doubled for
every loop that can be idle. -/
theorem size_visited_le (hforest : s.tree.arena.Forest) (hfit : s.tree.LengthsFit)
    (hmarker : marker < s.tree.size) {idle : Finset Nat}
    (hidle : ∀ {loop}, s.Idles loop → loop ∈ idle) :
    (w.fromMarker s marker).visited.size ≤ 8 * s.tree.size * s.tree.size * 2 ^ idle.card := by
  have hseen : ∀ c ∈ (w.fromMarker s marker).visited.toList.toFinset,
      ∃ p : Path, p.Returns s marker ∧ p.node < s.tree.size ∧ p.context = c := by
    intro c hc
    rw [List.mem_toFinset, Std.HashSet.mem_toList, ← Std.HashSet.contains_iff_mem,
      contains_visited_fromMarker hforest hfit hmarker] at hc
    obtain ⟨p, hp, hcontext⟩ := hc
    have hsound := hp.sound hforest hfit ⟨hmarker, fun _ hdollar ↦ nomatch hdollar⟩
    exact ⟨p, hp.returns hforest hfit, hsound.node_lt, hcontext⟩
  rw [← card_visited, ← Path.Context.card_codes]
  refine Finset.card_le_card_of_injOn (Path.Context.code s marker idle) (fun c hc ↦ ?_) ?_
  · obtain ⟨p, -, hp, rfl⟩ := hseen c hc
    simp only [Path.Context.codes, Path.Context.code, Finset.coe_product, Set.mem_prod,
      Finset.mem_coe, Finset.mem_range, Finset.mem_univ, Finset.mem_powerset,
      Finset.filter_subset, and_true]
    exact ⟨hp, Path.Context.card_around_lt hforest hmarker⟩
  · intro c hc c' hc' hcode
    obtain ⟨p, hp, -, rfl⟩ := hseen c hc
    obtain ⟨q, hq, -, rfl⟩ := hseen c' hc'
    exact hp.context_eq_of_code_eq hforest hidle hq hcode

end Walk

end PatternAutomata
