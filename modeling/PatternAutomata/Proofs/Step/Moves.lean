import Mathlib.Tactic.Common
import PatternAutomata.Step.Path

/-!
# Moves through a tree

The moves that a path can make without reading a character, told from what it takes along. A spot
is where a path stands: in front of a node or at its end, and in front of a loop also whether it
comes from the end of an iteration. Most moves lead onward around the tree. The one that does not
is to start a loop again; how often a path may do that is no matter of the spot, so here nothing
limits it.

The ways a path can go on are the moves from its spot, save for loops that it has entered again
before.
-/

namespace PatternAutomata

/-- Where a path stands. -/
structure Spot where
  /-- The node. -/
  node : Nat
  /-- Whether the spot is at the end of the node, and not in front of it. -/
  isLeaving : Bool
  /-- Whether the spot is in front of a loop that is started again. -/
  isReentry : Bool := false
deriving DecidableEq

def Path.spot (p : Path) : Spot := ⟨p.node, p.isLeaving, p.isReentry⟩

namespace Spot

/-- The spot in front of a node. -/
abbrev front (id : Nat) : Spot := ⟨id, false, false⟩

/-- The spot at the end of a node. -/
abbrev back (id : Nat) : Spot := ⟨id, true, false⟩

/-- The spot in front of a loop, at the end of an iteration. -/
abbrev again (id : Nat) : Spot := ⟨id, false, true⟩

end Spot

/-- Whether a look-behind assertion can be passed: its body has no characters, or the last class of
the body is held. -/
def Stance.Passes (s : Stance) (lookBehind : Nat) : Prop :=
  ∀ c, (s.tree.body lookBehind).back? = some c → s.held.contains c = true

/-- Whether a group lets a path into an alternative: the empty way out of a loop that has to run
once is closed to those that do not come from an iteration. -/
def Tree.Admits (t : Tree) (g : Group) (isReentry : Bool) (alternative : Nat) : Prop :=
  g.loop = some .plus → (t.node alternative).isEmpty = true → isReentry = true

/-- The moves that lead onward around the tree, where `passes` are the look-behind assertions that
hold and `isAtStart` says whether carets do. -/
inductive Onward (t : Tree) (passes : Nat → Prop) (isAtStart : Prop) : Spot → Spot → Prop
  | first {id c : Nat} {r : Bool} : (t.node id).kind = .sequence →
      (t.node id).children[0]? = some c → Onward t passes isAtStart ⟨id, false, r⟩ ⟨c, false, r⟩
  | skip {id : Nat} {r : Bool} : (t.node id).kind = .sequence →
      (t.node id).children[0]? = none → Onward t passes isAtStart ⟨id, false, r⟩ ⟨id, true, r⟩
  | choose {id c : Nat} {r : Bool} {g : Group} : (t.node id).kind = .group g →
      c ∈ (t.node id).children → t.Admits g r c →
      Onward t passes isAtStart ⟨id, false, r⟩ (.front c)
  | caret {id : Nat} {r : Bool} : (t.node id).kind = .caret → isAtStart →
      Onward t passes isAtStart ⟨id, false, r⟩ ⟨id, true, r⟩
  | dollar {id : Nat} {r : Bool} : (t.node id).kind = .dollar →
      Onward t passes isAtStart ⟨id, false, r⟩ ⟨id, true, r⟩
  | lookBehind {id length : Nat} {r : Bool} : (t.node id).kind = .lookBehind length → passes id →
      Onward t passes isAtStart ⟨id, false, r⟩ ⟨id, true, r⟩
  | marker {id lead : Nat} {anchored r : Bool} : (t.node id).kind = .marker anchored lead →
      Onward t passes isAtStart ⟨id, false, r⟩ ⟨id, true, r⟩
  | next {id p c : Nat} {r : Bool} : (t.node id).parent = some p →
      (t.node p).kind = .sequence → (t.node p).children[(t.node id).index + 1]? = some c →
      Onward t passes isAtStart ⟨id, true, r⟩ ⟨c, false, r⟩
  | last {id p : Nat} {r : Bool} : (t.node id).parent = some p →
      (t.node p).kind = .sequence → (t.node p).children[(t.node id).index + 1]? = none →
      Onward t passes isAtStart ⟨id, true, r⟩ ⟨p, true, r⟩
  | out {id p : Nat} {r : Bool} {g : Group} : (t.node id).parent = some p →
      (t.node p).kind = .group g → (g.loop.isSome = true → (t.node id).isEmpty = true) →
      Onward t passes isAtStart ⟨id, true, r⟩ ⟨p, true, r⟩

/-- The move by which a loop is started again: from the end of an alternative that is not empty. -/
structure Repeats (t : Tree) (u : Spot) (loop : Nat) : Prop where
  isLeaving : u.isLeaving = true
  parent : (t.node u.node).parent = some loop
  loops : ∃ g, (t.node loop).kind = .group g ∧ g.loop.isSome = true
  nonempty : (t.node u.node).isEmpty = false

/-- A move: onward, or back to the front of a loop. -/
inductive Move (t : Tree) (passes : Nat → Prop) (isAtStart : Prop) (u : Spot) : Spot → Prop
  | onward {v : Spot} : Onward t passes isAtStart u v → Move t passes isAtStart u v
  | again {loop : Nat} : Repeats t u loop → Move t passes isAtStart u (.again loop)

namespace Move

variable {t : Tree} {passes : Nat → Prop} {isAtStart : Prop} {id : Nat} {r : Bool} {v : Spot}

theorem onward_of_front (h : Move t passes isAtStart ⟨id, false, r⟩ v) :
    Onward t passes isAtStart ⟨id, false, r⟩ v := by
  cases h with
  | onward h => exact h
  | again hrepeats => exact Bool.noConfusion hrepeats.isLeaving

theorem kind_of_front (h : Move t passes isAtStart ⟨id, false, r⟩ v) :
    (∀ set claim, (t.node id).kind ≠ .chars set claim) ∧ (t.node id).kind ≠ .matchFound := by
  cases h.onward_of_front with
  | first hkind | skip hkind | choose hkind | caret hkind | dollar hkind | lookBehind hkind
  | marker hkind =>
    rw [hkind]
    exact ⟨nofun, nofun⟩

end Move

abbrev Stance.Onward (s : Stance) : Spot → Spot → Prop :=
  PatternAutomata.Onward s.tree s.Passes (s.isAtStart = true)

abbrev Stance.Move (s : Stance) : Spot → Spot → Prop :=
  PatternAutomata.Move s.tree s.Passes (s.isAtStart = true)

/-- The numbers that look-behind assertions carry are the sizes of their bodies. -/
def Tree.LengthsFit (t : Tree) : Prop :=
  ∀ id length, (t.node id).kind = .lookBehind length → (t.body id).size = length

/-! ## How paths go on -/

namespace Path

variable {s : Stance} {t : Tree} {p : Path} {g : Group} {id : Nat}

@[simp] theorem spot_startAlternative :
    (p.startAlternative t g id).spot = ⟨id, false, p.isReentry⟩ := by
  unfold startAlternative
  dsimp only
  split <;> rfl

@[simp] theorem reentered_startAlternative :
    (p.startAlternative t g id).reentered = p.reentered := by
  unfold startAlternative
  dsimp only
  split <;> rfl

@[simp] theorem dollar_startAlternative : (p.startAlternative t g id).dollar = p.dollar := by
  unfold startAlternative
  dsimp only
  split <;> rfl

@[simp] theorem isReentry_startGroup : (p.startGroup g).isReentry = false := by
  unfold startGroup
  split <;> rfl

@[simp] theorem reentered_startGroup : (p.startGroup g).reentered = p.reentered := by
  unfold startGroup
  split <;> rfl

@[simp] theorem dollar_startGroup : (p.startGroup g).dollar = p.dollar := by
  unfold startGroup
  split <;> rfl

@[simp] theorem reentered_endGroup : (p.endGroup g).reentered = p.reentered := by
  unfold endGroup
  split <;> rfl

@[simp] theorem isReentry_endGroup : (p.endGroup g).isReentry = p.isReentry := by
  unfold endGroup
  split <;> rfl

@[simp] theorem isLeaving_endGroup : (p.endGroup g).isLeaving = p.isLeaving := by
  unfold endGroup
  split <;> rfl

@[simp] theorem dollar_endGroup : (p.endGroup g).dollar = p.dollar := by
  unfold endGroup
  split <;> rfl

theorem isOpen_iff {r : Bool} : isOpen t g r id = true ↔ t.Admits g r id := by
  cases r <;> simp [isOpen, Tree.Admits, imp_iff_not_or]

theorem holds_iff (hfit : s.tree.LengthsFit) {length : Nat}
    (hkind : (s.tree.node id).kind = .lookBehind length) :
    holds s id length = true ↔ s.Passes id := by
  have hsize := hfit id length hkind
  unfold holds Stance.Passes
  cases hback : (s.tree.body id).back? with
  | none =>
    have hempty : (s.tree.body id).size = 0 := by
      rw [Array.back?_eq_getElem?, Array.getElem?_eq_none_iff] at hback
      omega
    simp [← hsize, hempty]
  | some c =>
    have hlength : length ≠ 0 := by
      rintro rfl
      rw [Array.eq_empty_of_size_eq_zero hsize] at hback
      cases hback
    simp [hlength]

/-- What a way to go on is: a move onward, or the start of a loop that has not been started again
before. -/
inductive Leads (s : Stance) (p q : Path) : Prop
  | onward : s.Onward p.spot q.spot → q.reentered = p.reentered → Leads s p q
  | again {loop : Nat} : Repeats s.tree p.spot loop → loop ∉ p.reentered → q.spot = .again loop →
      q.reentered = p.reentered.insert loop → Leads s p q

theorem onward_of_mem_enter (hfit : s.tree.LengthsFit) {q : Path} (hp : p.isLeaving = false)
    (h : q ∈ p.enter s) : s.Onward p.spot q.spot ∧ q.reentered = p.reentered := by
  have hspot : p.spot = ⟨p.node, false, p.isReentry⟩ := by rw [spot, hp]
  rw [hspot]
  unfold enter at h
  dsimp only at h
  split at h
  · cases h
  · cases h
  · next hkind =>
    split at h
    · next hnone =>
      rw [List.mem_singleton] at h
      subst h
      exact ⟨.skip hkind hnone, rfl⟩
    · next c hc =>
      rw [List.mem_singleton] at h
      subst h
      exact ⟨.first hkind hc, rfl⟩
  · next g hkind =>
    obtain ⟨c, hc, rfl⟩ := List.mem_map.1 h
    obtain ⟨hmem, hopen⟩ := List.mem_filter.1 hc
    rw [spot_startAlternative, isReentry_startGroup, reentered_startAlternative,
      reentered_startGroup]
    exact ⟨.choose hkind (Array.mem_toList_iff.1 hmem) (isOpen_iff.1 hopen), rfl⟩
  · next hkind =>
    split at h
    · next hstart =>
      rw [List.mem_singleton] at h
      subst h
      exact ⟨.caret hkind hstart, rfl⟩
    · cases h
  · next hkind =>
    rw [List.mem_singleton] at h
    subst h
    exact ⟨.dollar hkind, rfl⟩
  · next length hkind =>
    split at h
    · next hholds =>
      rw [List.mem_singleton] at h
      subst h
      exact ⟨.lookBehind hkind ((holds_iff hfit hkind).1 hholds), rfl⟩
    · cases h
  · next hkind =>
    rw [List.mem_singleton] at h
    subst h
    exact ⟨.marker hkind, rfl⟩

theorem leads_of_mem_leave {q : Path} (hp : p.isLeaving = true) (h : p.leave s.tree = some q) :
    p.Leads s q := by
  have hspot : p.spot = ⟨p.node, true, p.isReentry⟩ := by rw [spot, hp]
  obtain ⟨parent, hparent, h⟩ := Option.bind_eq_some_iff.1 h
  unfold leaveFor at h
  dsimp only at h
  split at h
  · next hkind =>
    split at h
    · next c hc =>
      cases h
      refine .onward ?_ rfl
      rw [hspot]
      exact .next hparent hkind hc
    · next hnone =>
      cases h
      refine .onward ?_ rfl
      rw [hspot, spot]
      dsimp only
      rw [hp]
      exact .last hparent hkind hnone
  · next g hkind =>
    split at h
    · next hloop =>
      rw [Bool.and_eq_true, Bool.not_eq_true'] at hloop
      split at h
      · cases h
      · next hnew =>
        cases h
        exact .again ⟨hp, hparent, ⟨g, hkind, hloop.1⟩, hloop.2⟩
          (fun hmem ↦ hnew (IndexSet.contains_iff.2 hmem)) rfl rfl
    · next hloop =>
      cases h
      refine .onward ?_ reentered_endGroup
      rw [hspot, spot]
      dsimp only
      rw [isLeaving_endGroup, isReentry_endGroup, hp]
      refine .out hparent hkind fun hsome ↦ ?_
      simpa [hsome] using hloop
  · cases h

/-- **How paths go on.** -/
theorem leads_of_mem_next (hfit : s.tree.LengthsFit) {q : Path} (h : q ∈ p.next s) :
    p.Leads s q := by
  unfold next at h
  split at h
  · next hp => exact leads_of_mem_leave hp (Option.mem_toList.1 h)
  · next hp =>
    have := onward_of_mem_enter hfit (Bool.eq_false_iff.2 hp) h
    exact .onward this.1 this.2

theorem exists_mem_next_of_onward (hfit : s.tree.LengthsFit) {v : Spot} (h : s.Onward p.spot v) :
    ∃ q ∈ p.next s, q.spot = v ∧ q.reentered = p.reentered := by
  obtain ⟨node, isLeaving, isReentry, boundaries, lastGroup, lookBehinds, reentered, dollar⟩ := p
  unfold next
  cases h with
  | first hkind hc => simp [enter, hkind, hc, spot, inFrontOf]
  | skip hkind hc => simp [enter, hkind, hc, spot, leaving]
  | @choose _ c _ g hkind hc hadmits =>
    let p : Path := ⟨node, false, isReentry, boundaries, lastGroup, lookBehinds, reentered, dollar⟩
    refine ⟨(p.startGroup g).startAlternative s.tree g c, ?_, ?_, ?_⟩
    · have hmem : c ∈ (s.tree.node node).children.toList.filter (isOpen s.tree g isReentry) :=
        List.mem_filter.2 ⟨Array.mem_toList_iff.2 hc, isOpen_iff.2 hadmits⟩
      simp only [enter, hkind, enterGroup]
      exact List.mem_map_of_mem hmem
    · rw [spot_startAlternative, isReentry_startGroup]
    · rw [reentered_startAlternative, reentered_startGroup]
  | caret hkind hstart => simp [enter, hkind, hstart, spot, leaving]
  | dollar hkind => simp [enter, hkind, spot, leaving]
  | lookBehind hkind hpasses =>
    simp [enter, hkind, (holds_iff hfit hkind).2 hpasses, spot, leaving]
  | marker hkind => simp [enter, hkind, spot, leaving]
  | next hparent hkind hc => simp [leave, leaveFor, hparent, hkind, hc, spot, inFrontOf]
  | last hparent hkind hc => simp [leave, leaveFor, hparent, hkind, hc, spot]
  | @out _ p _ g hparent hkind hempty =>
    have hstay : ¬(g.loop.isSome && !(s.tree.node node).isEmpty) = true := by
      rw [Bool.and_eq_true, Bool.not_eq_true', not_and, Bool.not_eq_false]
      exact hempty
    simp [leave, leaveFor, hparent, hkind, hstay, spot]

theorem exists_mem_next_of_repeats {loop : Nat} (h : Repeats s.tree p.spot loop)
    (hnew : loop ∉ p.reentered) :
    ∃ q ∈ p.next s, q.spot = .again loop ∧ q.reentered = p.reentered.insert loop := by
  obtain ⟨hleaving, hparent, ⟨g, hkind, hloop⟩, hnonempty⟩ := h
  have hp : p.isLeaving = true := hleaving
  have hparent : (s.tree.node p.node).parent = some loop := hparent
  have hnonempty : (s.tree.node p.node).isEmpty = false := hnonempty
  have hcontains : p.reentered.contains loop = false := by
    rw [Bool.eq_false_iff]
    exact fun hmem ↦ hnew (IndexSet.contains_iff.1 hmem)
  refine ⟨{ p.inFrontOf loop with
    isReentry := true, reentered := p.reentered.insert loop }, ?_, rfl, rfl⟩
  unfold next leave
  rw [if_pos hp, hparent, Option.bind_some, leaveFor]
  simp [hkind, hloop, hnonempty, hcontains]

theorem dollar_of_mem_next {q : Path} (h : q ∈ p.next s) :
    q.dollar = if p.isLeaving = false ∧ (s.tree.node p.node).kind = .dollar
      then p.dollar <|> some p.node else p.dollar := by
  unfold next at h
  split at h
  · next hp =>
    rw [if_neg (by simp [hp])]
    obtain ⟨parent, -, h⟩ := Option.bind_eq_some_iff.1 (Option.mem_toList.1 h)
    unfold leaveFor at h
    dsimp only at h
    split at h
    · split at h <;> (cases h; rfl)
    · split at h
      · split at h
        · cases h
        · cases h; rfl
      · cases h
        exact dollar_endGroup
    · cases h
  · next hp =>
    unfold enter at h
    dsimp only at h
    split at h
    · cases h
    · cases h
    · next hkind =>
      rw [hkind, if_neg (by simp)]
      split at h <;> (rw [List.mem_singleton] at h; subst h; rfl)
    · next g hkind =>
      rw [hkind, if_neg (by simp)]
      obtain ⟨c, -, rfl⟩ := List.mem_map.1 h
      rw [dollar_startAlternative, dollar_startGroup]
    · next hkind =>
      rw [hkind, if_neg (by simp)]
      split at h
      · rw [List.mem_singleton] at h; subst h; rfl
      · cases h
    · next hkind =>
      rw [hkind, if_pos ⟨Bool.eq_false_iff.2 hp, rfl⟩]
      rw [List.mem_singleton] at h; subst h; rfl
    · next hkind =>
      rw [hkind, if_neg (by simp)]
      split at h
      · rw [List.mem_singleton] at h; subst h; rfl
      · cases h
    · next hkind =>
      rw [hkind, if_neg (by simp)]
      rw [List.mem_singleton] at h; subst h; rfl

@[simp] theorem lookBehinds_startAlternative :
    (p.startAlternative t g id).lookBehinds = p.lookBehinds := by
  unfold startAlternative
  dsimp only
  split <;> rfl

@[simp] theorem lookBehinds_startGroup : (p.startGroup g).lookBehinds = p.lookBehinds := by
  unfold startGroup
  split <;> rfl

@[simp] theorem lookBehinds_endGroup : (p.endGroup g).lookBehinds = p.lookBehinds := by
  unfold endGroup
  split <;> rfl

theorem lookBehinds_of_mem_next {q : Path} (h : q ∈ p.next s) {l : Nat} (hl : l ∈ q.lookBehinds) :
    l ∈ p.lookBehinds ∨ (s.tree.node l).kind.isLookBehind = true := by
  unfold next at h
  split at h
  · obtain ⟨parent, -, h⟩ := Option.bind_eq_some_iff.1 (Option.mem_toList.1 h)
    unfold leaveFor at h
    dsimp only at h
    split at h
    · split at h <;> (cases h; exact .inl hl)
    · split at h
      · split at h
        · cases h
        · cases h; exact .inl hl
      · cases h
        exact .inl (lookBehinds_endGroup ▸ hl)
    · cases h
  · unfold enter at h
    dsimp only at h
    split at h
    · cases h
    · cases h
    · split at h <;> (rw [List.mem_singleton] at h; subst h; exact .inl hl)
    · obtain ⟨c, -, rfl⟩ := List.mem_map.1 h
      rw [lookBehinds_startAlternative, lookBehinds_startGroup] at hl
      exact .inl hl
    · split at h
      · rw [List.mem_singleton] at h; subst h; exact .inl hl
      · cases h
    · rw [List.mem_singleton] at h; subst h; exact .inl hl
    · next hkind =>
      split at h
      · rw [List.mem_singleton] at h
        subst h
        dsimp only at hl
        split at hl
        · exact .inl hl
        · rcases List.mem_append.1 hl with hl | hl
          · exact .inl hl
          · rw [List.mem_singleton.1 hl, hkind]
            exact .inr rfl
      · cases h
    · rw [List.mem_singleton] at h; subst h; exact .inl hl

end Path

end PatternAutomata
