import PatternAutomata.Proofs.Tree.Filling

/-!
# What unrolling adds to an arena

A copy has as many nodes as what it is a copy of. While an atom is unrolled nothing is placed below
it, so all its copies are of the same size, and unrolling adds no more nodes than are reckoned
beforehand: for each use the nodes of a copy, and three for a group with two sequences around it.
-/

namespace PatternAutomata

namespace Quantifier

/-- No more uses are asked for than are allowed. -/
def Ordered : Quantifier → Prop
  | counted least greatest _ => ∀ n ∈ greatest, least ≤ n
  | once | star _ | plus _ | optional _ => True

/-- The quantifier is counted and has something to place. -/
def IsUnrolled : Quantifier → Prop
  | counted _ greatest _ => greatest ≠ some 0
  | once | star _ | plus _ | optional _ => False

instance : DecidablePred IsUnrolled
  | counted _ greatest _ => inferInstanceAs (Decidable (greatest ≠ some 0))
  | once | star _ | plus _ | optional _ => inferInstanceAs (Decidable False)

/-- The nodes that a quantifier may add whatever the bound is. -/
def cost : Quantifier → Nat
  | star _ | plus _ | optional _ => 3
  | once | counted _ _ _ => 0

end Quantifier

namespace Arena

variable {ok : CodePointSet → Prop} {a b c : Arena} {atom top sequence : Nat} {new : List Nat}

/-! ## Sizes of trees within an arena -/

/-- Walks that go down in the same steps visit equally many nodes. -/
theorem length_visited_congr {below below' : Nat → List Nat} {start : Nat}
    {visited visited' : List Nat} (h : a.Descent below start visited [])
    (h' : b.Descent below' start visited' [])
    (hsame : ∀ x, Reaches below start x → below' x = below x) :
    visited'.length = visited.length := by
  have hreaches : ∀ x, Reaches below' start x ↔ Reaches below start x := by
    refine fun x ↦ ⟨fun hx ↦ ?_, fun hx ↦ ?_⟩
    · induction hx with
      | refl => exact .refl
      | tail _ hc ih => exact ih.tail (hsame _ ih ▸ hc)
    · induction hx with
      | refl => exact .refl
      | tail hx hc ih => exact ih.tail ((hsame _ hx).symm ▸ hc)
  refine ((List.perm_ext_iff_of_nodup h'.nodup h.nodup).2 fun x ↦ ?_).length_eq
  rw [h'.mem_visited_iff, h.mem_visited_iff, hreaches]

theorem collectedBelow_true : a.collectedBelow true = a.childrenOf := by
  funext id
  rw [collectedBelow, Bool.not_true, Bool.and_false, if_neg Bool.false_ne_true, childrenOf]

theorem Forest.exists_subtree (h : a.Forest) {id : Nat} (hid : id < a.size) :
    ∃ visited, (a.subtree id).size = visited.length ∧ a.Descent a.childrenOf id visited [] := by
  obtain ⟨visited, hcollect, hdescent⟩ := exists_collect h true hid
  rw [collectedBelow_true] at hdescent
  exact ⟨visited, by rw [subtree, hcollect, List.size_toArray], hdescent⟩

/-- **A copy is as large as what it is a copy of.** -/
theorem Forest.size_copy (h : a.Forest) {id : Nat} (hid : id < a.size) :
    (a.copy id).size = a.size + (a.subtree id).size := by
  obtain ⟨visited, hcopying, hcopied⟩ := exists_copying h hid
  obtain ⟨visited', hsize, hdescent⟩ := h.exists_subtree hid
  rw [hcopying.size, hsize, length_visited_congr hdescent hcopied fun _ _ ↦ rfl]

theorem Forest.below_of_reaches (h : a.Forest) {id x : Nat} (hx : Reaches a.childrenOf id x) :
    a.Below x id := by
  induction hx with
  | refl => exact .refl
  | tail _ hc ih => exact .head (h.up_of_mem_toList hc) ih

theorem Filling.size_subtree (h : Filling ok atom sequence new b c) (hforest : b.Forest)
    (hlt : atom < b.size) (hout : ¬b.Below sequence atom) :
    (c.subtree atom).size = (b.subtree atom).size := by
  obtain ⟨visited, hsize, hdescent⟩ := hforest.exists_subtree hlt
  obtain ⟨visited', hsize', hdescent'⟩ := h.placing.shaped.forest.exists_subtree
    (Nat.lt_of_lt_of_le hlt h.placing.grows.size_le)
  rw [hsize, hsize', length_visited_congr hdescent hdescent' fun x hx ↦ ?_]
  have hbelow := hforest.below_of_reaches hx
  have hne : x ≠ sequence := by
    rintro rfl
    exact hout hbelow
  have hx : x < b.size := hbelow.lt_size hlt
  rw [childrenOf, h.children x hx, if_neg hne, List.append_nil, childrenOf]

/-! ## Uses of an atom -/

theorem size_addLoop (kind : LoopKind) (isLazy : Bool) :
    (a.addLoop kind isLazy atom).size = a.size + 3 := by
  rw [addLoop, addAround_eq, size_linkChoice, size_link, size_addChoice]

theorem size_linkLoop (use : Nat × Arena) (kind : LoopKind) (isLazy : Bool) :
    ((use.2.addLoop kind isLazy use.1).link sequence use.2.size).size = use.2.size + 3 := by
  rw [size_link, size_addLoop]

theorem size_addOptional (isLazy : Bool) : (a.addOptional isLazy atom).size = a.size + 3 := by
  rw [addOptional, addAround_eq, size_linkChoice, size_link, size_addChoice]

/-- An atom that is being unrolled into a sequence, which does not stand below it. -/
structure Unrolls (ok : CodePointSet → Prop) (atom top sequence : Nat) (isUsed : Bool) (b : Arena) :
    Prop where
  shaped : b.Shaped ok
  usable : Usable atom isUsed b
  fillable : b.Fillable top sequence
  ne : top ≠ atom
  outside : ¬b.Below sequence atom

theorem Usable.size_useAtom_le {isUsed : Bool} (h : Usable atom isUsed b) (hforest : b.Forest) :
    (b.useAtom atom isUsed).2.size ≤ b.size + (b.subtree atom).size := by
  cases isUsed with
  | false => exact Nat.le_add_right _ _
  | true => exact Nat.le_of_eq (hforest.size_copy h.lt)

/-- **One use.** -/
theorem Unrolls.useIn {isUsed : Bool} (h : Unrolls ok atom top sequence isUsed b) :
    let c := (b.useAtom atom isUsed).2.link sequence (b.useAtom atom isUsed).1
    Unrolls ok atom top sequence true c ∧ c.size ≤ b.size + (b.subtree atom).size ∧
      (c.subtree atom).size = (b.subtree atom).size := by
  intro c
  have hforest := h.shaped.forest
  obtain ⟨hfilling, -⟩ := Filling.useIn h.shaped h.usable h.fillable h.ne
  obtain ⟨hplacing, hatom, hstay⟩ := (Placing.refl h.shaped).useIn h.usable h.fillable h.ne
  refine ⟨⟨hplacing.shaped, hatom, hstay _ _ h.fillable h.ne, h.ne, ?_⟩, ?_,
    hfilling.size_subtree hforest h.usable.lt h.outside⟩
  · rw [hplacing.grows.below_iff hforest h.fillable.isOpen.lt h.outside]
    exact h.outside
  · rw [size_link]
    exact h.usable.size_useAtom_le hforest

theorem Unrolls.placeTimes {isUsed : Bool} (h : Unrolls ok atom top sequence isUsed b) (n : Nat) :
    let c := placeTimes sequence atom n isUsed b
    Unrolls ok atom top sequence (isUsed || decide (0 < n)) c ∧
      c.size ≤ b.size + n * (b.subtree atom).size ∧
      (c.subtree atom).size = (b.subtree atom).size := by
  induction n generalizing isUsed b with
  | zero =>
    rw [placeTimes_zero, show (isUsed || decide (0 < 0)) = isUsed by simp]
    exact ⟨h, Nat.le_add_right _ _, rfl⟩
  | succ n ih =>
    obtain ⟨hfirst, hsize, hsubtree⟩ := h.useIn
    obtain ⟨hrest, hsize', hsubtree'⟩ := ih hfirst
    rw [Bool.true_or] at hrest
    rw [hsubtree] at hsize'
    rw [placeTimes_succ, show (isUsed || decide (0 < n + 1)) = true by simp]
    refine ⟨hrest, Nat.le_trans hsize' ?_, hsubtree'.trans hsubtree⟩
    rw [Nat.succ_mul]
    omega

/-- The body of a new optional group is no more below the atom than the sequence is that the group
goes into. -/
theorem Unrolls.openOptional {isUsed : Bool} (h : Unrolls ok atom top sequence isUsed b)
    (isLazy : Bool) :
    let d := (b.addChoice {}).linkChoice b.size (b.size + 1) (b.size + 2) isLazy
    Unrolls ok atom top (b.size + 1) isUsed (d.link sequence b.size) ∧
      (d.link sequence b.size).size = b.size + 3 ∧
      ((d.link sequence b.size).subtree atom).size = (b.subtree atom).size := by
  intro d
  have hforest := h.shaped.forest
  obtain ⟨hfilling, -⟩ := Filling.openOptional h.shaped h.usable h.fillable isLazy
  obtain ⟨-, hpd, hspare, he, hbody, hatom⟩ : Placing ok atom b d ∧ d.Fillable top sequence ∧
      Spare atom b d b.size ∧ Placing ok atom b (d.link sequence b.size) ∧
      (d.link sequence b.size).Fillable top (b.size + 1) ∧
      Usable atom isUsed (d.link sequence b.size) :=
    (Placing.refl h.shaped).openOptional h.usable h.fillable isLazy
  have hsize : (d.link sequence b.size).size = b.size + 3 := by
    rw [size_link, size_linkChoice, size_addChoice]
  refine ⟨⟨he.shaped, hatom, hbody, h.ne, fun hbelow ↦ ?_⟩, hsize,
    hfilling.size_subtree hforest h.usable.lt h.outside⟩
  have hlt := h.usable.lt
  -- from the body the way up leads by the group and the sequence
  have hgroup : (d.link sequence b.size).Up (b.size + 1) b.size := by
    refine he.shaped.forest.up_of_mem ?_
    rw [← Array.mem_toList_iff, children_link hpd.isOpen.lt hspare.lt,
      (node_choice (b := b) {} isLazy).2, if_pos rfl]
    cases isLazy <;> simp
  have hsequence : (d.link sequence b.size).Up b.size sequence := by
    refine he.shaped.forest.up_of_mem ?_
    rw [← Array.mem_toList_iff, children_link hpd.isOpen.lt hspare.lt, if_pos rfl]
    exact List.mem_append_right _ (List.mem_singleton_self _)
  have houtside : ¬(d.link sequence b.size).Below sequence atom := by
    rw [hfilling.placing.grows.below_iff hforest h.fillable.isOpen.lt h.outside]
    exact h.outside
  rcases hbelow.eq_or_of_up hgroup with heq | hbelow
  · omega
  rcases hbelow.eq_or_of_up hsequence with heq | hbelow
  · omega
  · exact houtside hbelow

theorem Unrolls.size_placeOptional_le {isUsed : Bool} (h : Unrolls ok atom top sequence isUsed b)
    (isLazy : Bool) (n : Nat) :
    (placeOptional atom isLazy n sequence isUsed b).size ≤
      b.size + n * ((b.subtree atom).size + 3) := by
  induction n generalizing sequence isUsed b with
  | zero => exact Nat.le_add_right _ _
  | succ n ih =>
    obtain ⟨hopen, hsize, hsubtree⟩ := h.openOptional isLazy
    obtain ⟨huse, hsize', hsubtree'⟩ := hopen.useIn
    have hrest := ih huse
    rw [hsubtree', hsubtree] at hrest
    rw [hsize, hsubtree] at hsize'
    rw [placeOptional_succ, Nat.succ_mul]
    refine Nat.le_trans hrest ?_
    omega

/-! ## Quantifiers -/

theorem le_of_hasRoom {limit uses : Nat} (h : a.hasRoom limit atom uses = true) (huses : 0 < uses) :
    a.size + uses * ((a.subtree atom).size + 3) ≤ limit := by
  rw [hasRoom, Bool.and_eq_true, decide_eq_true_eq, decide_eq_true_eq,
    Nat.le_div_iff_mul_le huses] at h
  rw [Nat.mul_comm]
  omega

/-- **Unrolling stays within the bound.** Unless nothing is to be placed at all, the arena has no
more nodes afterwards than the bound says. -/
theorem size_placeCounted_le {limit least : Nat} {greatest : Option Nat} {isLazy : Bool}
    (h : Unrolls ok atom top sequence false a) (hle : ∀ n ∈ greatest, least ≤ n)
    (hpos : greatest ≠ some 0)
    (hc : a.placeCounted limit sequence atom least greatest isLazy = some c) : c.size ≤ limit := by
  rcases placeCounted_cases hc with
    ⟨rfl, -⟩ | ⟨greatest, hzero, rfl, hroom, rfl⟩ | ⟨rfl, hroom, rfl⟩
  · exact absurd rfl hpos
  · have hlimit := le_of_hasRoom hroom (Nat.pos_of_ne_zero hzero)
    obtain ⟨hplaced, hsize, hsubtree⟩ := h.placeTimes least
    rw [Bool.false_or] at hplaced
    have hoptional := hplaced.size_placeOptional_le isLazy (greatest - least)
    rw [hsubtree] at hoptional
    obtain ⟨more, rfl⟩ := Nat.exists_eq_add_of_le (hle _ rfl)
    rw [Nat.add_sub_cancel_left] at hoptional
    rw [Nat.add_mul] at hlimit
    have := Nat.mul_le_mul_left least (Nat.le_add_right (a.subtree atom).size 3)
    rw [Nat.add_sub_cancel_left]
    omega
  · have hlimit := le_of_hasRoom hroom (Nat.succ_pos least)
    obtain ⟨hplaced, hsize, hsubtree⟩ := h.placeTimes (least - 1)
    rw [used_pred] at hplaced
    have huse := hplaced.usable.size_useAtom_le hplaced.shaped.forest
    rw [hsubtree] at huse
    have huses := Nat.mul_le_mul (Nat.sub_le least 1) (Nat.le_add_right (a.subtree atom).size 3)
    rw [Nat.succ_mul] at hlimit
    rw [size_linkLoop]
    omega

/-- Placing an atom with an ordered quantifier adds no more nodes than the quantifier is reckoned
at, unless the arena stays within the bound. -/
theorem size_place_le {limit : Nat} {q : Quantifier} (h : Unrolls ok atom top sequence false a)
    (hq : q.Ordered) (hc : a.place limit sequence atom q = some c) :
    c.size ≤ max a.size limit + q.cost := by
  rw [place_eq] at hc
  cases q with
  | once =>
    cases hc
    rw [size_link]
    exact Nat.le_trans (Nat.le_max_left _ _) (Nat.le_add_right _ _)
  | star isLazy =>
    cases hc
    rw [size_link, size_addLoop]
    exact Nat.add_le_add_right (Nat.le_max_left _ _) 3
  | plus isLazy =>
    cases hc
    rw [size_link, size_addLoop]
    exact Nat.add_le_add_right (Nat.le_max_left _ _) 3
  | optional isLazy =>
    cases hc
    rw [size_link, size_addOptional]
    exact Nat.add_le_add_right (Nat.le_max_left _ _) 3
  | counted least greatest isLazy =>
    by_cases hzero : greatest = some 0
    · subst hzero
      cases hc
      exact Nat.le_max_left _ _
    · exact Nat.le_trans (size_placeCounted_le h hq hzero hc) (Nat.le_max_right _ _)

end Arena

end PatternAutomata
