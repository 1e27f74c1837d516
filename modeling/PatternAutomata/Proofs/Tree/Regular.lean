import PatternAutomata.Proofs.Step.Moves
import PatternAutomata.Proofs.Tree.Descent
import PatternAutomata.Proofs.Tree.Sources
import PatternAutomata.Proofs.Tree.Wrap

/-!
# Finished trees

What all finished trees have in common, whatever they have been made of. The rest of the theory
looks at trees only through this.
-/

namespace PatternAutomata

/-- `y` comes right behind `x` in a sequence. -/
def Arena.Follows (a : Arena) (x y : Nat) : Prop :=
  ∃ s, a.Up x s ∧ (a.node s).kind = .sequence ∧
    (a.node s).children[(a.node x).index + 1]? = some y

def Tree.Holds (t : Tree) (x : Nat) : Prop := t.arena.Below x t.wrappedRoot

/-- What is known about a finished tree whose classes have good sets. -/
structure Tree.Regular (ok : CodePointSet → Prop) (t : Tree) : Prop where
  forest : t.arena.Forest
  fits : t.LengthsFit
  /-- The alternatives of a group are sequences. -/
  sequences : ∀ {c p : Nat} {g : Group}, t.arena.Up c p → (t.node p).kind = .group g →
    (t.node c).kind = .sequence
  /-- The pattern is made of sequences and terms. -/
  inner : ∀ {x : Nat}, t.arena.Below x t.root →
    (t.node x).kind.isTerm = true ∨ (t.node x).kind = .sequence
  root_group : (t.node t.root).kind.isGroup = true
  root_holds : t.Holds t.root
  wrappedRoot_group : (t.node t.wrappedRoot).kind.isGroup = true
  wrappedRoot_loose : (t.node t.wrappedRoot).parent = none
  mem_lookBehinds : ∀ {x : Nat}, x ∈ t.lookBehinds ↔
    (t.node x).kind.isLookBehind = true ∧ t.Holds x
  nodup_lookBehinds : t.lookBehinds.toList.Nodup
  mem_dollars : ∀ {x : Nat}, x ∈ t.dollars ↔ (t.node x).kind = .dollar ∧ t.Holds x
  mem_carets : ∀ {x : Nat}, x ∈ t.carets ↔
    (t.node x).kind = .caret ∧ t.Holds x ∧ (t.node x).minPath = 0
  /-- A look-behind assertion claims the classes of its body. -/
  body : ∀ {x lookBehind : Nat}, lookBehind ∈ t.lookBehinds → x ∈ t.body lookBehind →
    (t.arena.Below x lookBehind ∧ x ≠ lookBehind) ∧
      ∃ set, (t.node x).kind = .chars set (some lookBehind)
  /-- No other classes are claimed. -/
  claims : ∀ {x lookBehind : Nat} {set : CodePointSet},
    (t.node x).kind = .chars set (some lookBehind) →
      lookBehind ∈ t.lookBehinds ∧ x ∈ t.body lookBehind
  /-- Below a look-behind assertion are a group, a sequence and the body. -/
  below_lookBehind : ∀ {x lookBehind : Nat}, t.arena.Below x lookBehind →
    (t.node lookBehind).kind.isLookBehind = true → x = lookBehind ∨
      (t.node x).kind.isGroup = true ∨ (t.node x).kind = .sequence ∨ x ∈ t.body lookBehind
  matchFound_iff : ∀ {x : Nat}, (t.node x).kind = .matchFound ↔ x = t.matchFound
  matchFound_holds : t.Holds t.matchFound
  start_kind : ∀ {anchored : Bool} {lead : Nat}, lead ≤ t.leadLength →
    (t.node (t.start anchored lead)).kind = .marker anchored lead
  start_holds : ∀ {anchored : Bool} {lead : Nat}, lead ≤ t.leadLength →
    t.Holds (t.start anchored lead)
  marker : ∀ {x lead : Nat} {anchored : Bool}, (t.node x).kind = .marker anchored lead →
    lead ≤ t.leadLength ∧ x = t.start anchored lead
  start_follows : ∀ {lead : Nat}, lead ≤ t.leadLength →
    t.arena.Follows (t.start false lead) (t.start true lead)
  lead_follows : ∀ {lead : Nat}, lead < t.leadLength →
    ∃ p, t.arena.Follows (t.start true (lead + 1)) p ∧
      (t.node p).kind = .chars t.encoding.fullSet none ∧ t.arena.Follows p (t.start false lead)
  root_follows : t.arena.Follows (t.start true 0) t.root
  matchFound_follows : t.arena.Follows t.root t.matchFound
  chars : ∀ {x : Nat} {set : CodePointSet} {claim : Option Nat},
    (t.node x).kind = .chars set claim → ok set ∨ set = t.encoding.fullSet

namespace Arena

variable {a b : Arena} {full : CodePointSet} {root lead : Nat}

/-! ## Wrapped arenas -/

/-- A node of a wrapped arena is an old one, one of the three new ones, or one of the lead-in. -/
theorem cases_of_size (hsize : b.size = a.size + 3 + (3 * lead + 2)) {x : Nat} (hx : x < b.size) :
    x < a.size ∨ x = a.size ∨ x = a.size + 1 ∨ x = a.size + 2 ∨
      ∃ i k, x = a.size + 3 + i ∧ (leadKinds full lead)[i]? = some k := by
  by_cases hlead : a.size + 3 ≤ x
  · have hlt : x - (a.size + 3) < (leadKinds full lead).length := by
      rw [length_leadKinds]
      omega
    exact .inr (.inr (.inr (.inr ⟨x - (a.size + 3), _, by omega,
      List.getElem?_eq_getElem hlt⟩)))
  · omega

namespace Wrapped

theorem cases_lt (h : Wrapped a full root lead b) {x : Nat} (hx : x < b.size) :
    x < a.size ∨ x = a.size ∨ x = a.size + 1 ∨ x = a.size + 2 ∨
      ∃ i k, x = a.size + 3 + i ∧ (leadKinds full lead)[i]? = some k := cases_of_size h.size hx

theorem kind_old (h : Wrapped a full root lead b) {x : Nat} (hx : x < a.size) :
    (b.node x).kind = (a.node x).kind ∧ (b.node x).children = (a.node x).children ∧
      (b.node x).minPath = (a.node x).minPath := by
  by_cases hroot : x = root
  · rw [hroot, h.rootNode]
    exact ⟨rfl, rfl, rfl⟩
  · rw [h.old x hx hroot]
    exact ⟨rfl, rfl, rfl⟩

theorem up_old (h : Wrapped a full root lead b) {c p : Nat} (hc : c < a.size) (hne : c ≠ root) :
    b.Up c p ↔ a.Up c p := by
  rw [Up, Up, h.old c hc hne]

theorem getElem?_sequence (h : Wrapped a full root lead b) (i : Nat) :
    (b.node (a.size + 2)).children[i]? =
      if i < 3 * lead + 2 then some (a.size + 3 + i)
      else if i = 3 * lead + 2 then some root
      else if i = 3 * lead + 3 then some a.size else none := by
  rw [h.sequence]
  simp only [List.getElem?_toArray]
  by_cases hi : i < 3 * lead + 2
  · rw [if_pos hi, List.getElem?_append_left (by simpa using hi), List.getElem?_range' hi]
    simp
  · rw [if_neg hi, List.getElem?_append_right (by simpa using hi), List.length_range']
    by_cases hi' : i = 3 * lead + 2
    · rw [if_pos hi', hi', Nat.sub_self]
      rfl
    · rw [if_neg hi']
      by_cases hi'' : i = 3 * lead + 3
      · rw [if_pos hi'', hi'', show 3 * lead + 3 - (3 * lead + 2) = 1 by omega]
        rfl
      · rw [if_neg hi'', List.getElem?_eq_none (by simp; omega)]

theorem child_cases (h : Wrapped a full root lead b) {p i c : Nat}
    (hc : (b.node p).children[i]? = some c) :
    p < a.size ∨ p = a.size + 1 ∨ p = a.size + 2 := by
  rcases h.cases_lt (lt_size_of_child hc) with hp | rfl | rfl | rfl | ⟨j, k, rfl, hk⟩
  · exact .inl hp
  · rw [h.matchFound] at hc; cases hc
  · exact .inr (.inl rfl)
  · exact .inr (.inr rfl)
  · rw [h.leadNode j k hk] at hc; cases hc

/-- There is always an end on the way up: the new node at the top, which has no parent. -/
theorem grounded (h : Wrapped a full root lead b) (ha : a.Forest) (id : Nat) :
    Acc (fun p c ↦ b.Up c p) id := by
  have htop : Acc (fun p c ↦ b.Up c p) (a.size + 1) := by
    refine .intro _ fun p hp ↦ ?_
    rw [Up, h.top] at hp
    cases hp
  have hsequence : Acc (fun p c ↦ b.Up c p) (a.size + 2) := by
    refine .intro _ fun p hp ↦ ?_
    rw [Up, h.sequence] at hp
    cases hp
    exact htop
  have hplaced : ∀ c, b.Up c (a.size + 2) → Acc (fun p c ↦ b.Up c p) c := by
    refine fun c hc ↦ .intro _ fun p hp ↦ ?_
    obtain rfl : p = a.size + 2 := Option.some.inj (hp.symm.trans hc)
    exact hsequence
  -- old nodes go up to the old root as before, and from there into the new sequence
  have hold : ∀ x, Acc (fun p c ↦ a.Up c p) x → x < a.size → Acc (fun p c ↦ b.Up c p) x := by
    intro x hacc
    induction hacc with
    | intro x _ ih =>
      intro hx
      by_cases hne : x = root
      · refine hplaced x ?_
        rw [Up, hne, h.rootNode]
      · refine .intro _ fun p hp ↦ ?_
        have hup := (h.up_old hx hne).1 hp
        exact ih p hup (ha.parent_lt hup)
  by_cases hid : id < b.size
  · rcases h.cases_lt hid with hid | rfl | rfl | rfl | ⟨j, k, rfl, hk⟩
    · exact hold id (ha.grounded id) hid
    · refine hplaced _ ?_
      rw [Up, h.matchFound]
    · exact htop
    · exact hsequence
    · refine hplaced _ ?_
      rw [Up, h.leadNode j k hk]
  · refine .intro _ fun p hp ↦ ?_
    rw [Up, node_of_size_le (Nat.not_lt.1 hid)] at hp
    cases hp

theorem forest (h : Wrapped a full root lead b) (ha : a.Forest) (hroot : root < a.size)
    (hloose : (a.node root).parent = none) : b.Forest where
  child {p i c} hc := by
    rcases h.child_cases hc with hp | rfl | rfl
    · rw [(h.kind_old hp).2.1] at hc
      have hchild := ha.child hc
      have hne : c ≠ root := by
        rintro rfl
        rw [hchild.1] at hloose
        cases hloose
      rw [h.old c (ha.child_lt hc) hne]
      exact hchild
    · rw [h.top] at hc
      obtain ⟨hi, rfl⟩ := Array.getElem?_eq_some_iff.1 hc
      obtain rfl : i = 0 := Nat.lt_one_iff.1 hi
      rw [show #[a.size + 2][0] = a.size + 2 from rfl, h.sequence]
      exact ⟨rfl, rfl⟩
    · rw [h.getElem?_sequence] at hc
      split at hc
      · next hi =>
        cases hc
        rw [h.leadNode i _ (List.getElem?_eq_getElem (by rw [length_leadKinds]; exact hi))]
        exact ⟨rfl, rfl⟩
      · split at hc
        · next hi => cases hc; rw [h.rootNode, hi]; exact ⟨rfl, rfl⟩
        · split at hc
          · next hi => cases hc; rw [h.matchFound, hi]; exact ⟨rfl, rfl⟩
          · cases hc
  parent {c p} hup := by
    rcases h.cases_lt (lt_size_of_parent hup) with hc | rfl | rfl | rfl | ⟨j, k, rfl, hk⟩
    · by_cases hne : c = root
      · subst hne
        rw [Up, h.rootNode] at hup
        cases hup
        rw [h.getElem?_sequence, h.rootNode]
        simp
      · have hup := (h.up_old hc hne).1 hup
        rw [(h.kind_old (ha.parent_lt hup)).2.1, h.old c hc hne]
        exact ha.parent hup
    · rw [Up, h.matchFound] at hup
      cases hup
      rw [h.getElem?_sequence, h.matchFound]
      simp
    · rw [Up, h.top] at hup; cases hup
    · rw [Up, h.sequence] at hup
      cases hup
      rw [h.top, h.sequence]
      rfl
    · rw [Up, h.leadNode j k hk] at hup
      cases hup
      have hj := (List.getElem?_eq_some_iff.1 hk).1
      rw [length_leadKinds] at hj
      rw [h.getElem?_sequence, h.leadNode j k hk, if_pos hj]
  grounded := h.grounded ha

/-- What is above an old node: what was, and for the nodes below the root the two new nodes at the
top. -/
theorem below_old (h : Wrapped a full root lead b) (ha : a.Forest)
    (hloose : (a.node root).parent = none) {x y : Nat} (hx : x < a.size) :
    b.Below x y ↔ a.Below x y ∨ a.Below x root ∧ (y = a.size + 2 ∨ y = a.size + 1) := by
  have hup_root : b.Up root (a.size + 2) := by rw [Up, h.rootNode]
  have hup_sequence : b.Up (a.size + 2) (a.size + 1) := by rw [Up, h.sequence]
  have hforth : ∀ y, a.Below x y → b.Below x y := by
    intro y hy
    induction hy with
    | refl => exact .refl
    | tail hy hup ih =>
      refine ih.tail ((h.up_old (ha.lt_of_below hy hx) ?_).2 hup)
      rintro rfl
      rw [Up, hloose] at hup
      cases hup
  constructor
  · intro hy
    induction hy with
    | refl => exact .inl .refl
    | @tail y z _ hup ih =>
      rcases ih with hxy | ⟨hxroot, rfl | rfl⟩
      · by_cases hne : y = root
        · subst hne
          rw [Up, h.rootNode] at hup
          cases hup
          exact .inr ⟨hxy, .inl rfl⟩
        · exact .inl (hxy.tail ((h.up_old (ha.lt_of_below hxy hx) hne).1 hup))
      · rw [Up, h.sequence] at hup
        cases hup
        exact .inr ⟨hxroot, .inr rfl⟩
      · rw [Up, h.top] at hup
        cases hup
  · rintro (hy | ⟨hxroot, rfl | rfl⟩)
    · exact hforth y hy
    · exact (hforth root hxroot).tail hup_root
    · exact ((hforth root hxroot).tail hup_root).tail hup_sequence

end Wrapped

end Arena

end PatternAutomata
