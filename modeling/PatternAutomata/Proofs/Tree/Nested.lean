import PatternAutomata.Proofs.Tree.Whole

/-!
# Captures below loops

Captures are passed on upward, from every node to its parent, and every node has its turn after all
those below it. So when a node has its turn, what has been noted for it are the captures properly
below it. A loop keeps just these; what it passes on is that and its own capture.

Nodes within look-behind assertions have no turn, so what is said here is about the captures outside
of them.
-/

namespace PatternAutomata

namespace Arena

variable {a b : Arena} {root id x y c : Nat} {before rest order : List Nat}
  {s : Arena × Array IndexSet}

/-- A node is a capture group of a number. -/
def HasCapture (a : Arena) (x c : Nat) : Prop :=
  ∃ g, (a.node x).kind = .group g ∧ g.capture = some c

/-- A node of a list stands properly below `x` and has the capture. -/
def Encloses (a : Arena) (order : List Nat) (x c : Nat) : Prop :=
  ∃ y ∈ order, y ≠ x ∧ a.Below y x ∧ a.HasCapture y c

/-- A list of nodes below a root that has every node behind its parent. -/
structure Downward (a : Arena) (root : Nat) (order : List Nat) : Prop where
  lt_size : ∀ x ∈ order, x < a.size
  loose : (a.node root).parent = none
  apart : order.Pairwise fun x y ↦ ¬a.Below x y
  parent : ∀ x ∈ order, x ≠ root → ∃ p ∈ order, a.Up x p

namespace Downward

variable (h : Downward a root order)
include h

theorem mem_of_below (hx : x ∈ order) (hxy : a.Below x y) : y ∈ order := by
  induction hxy using Relation.ReflTransGen.head_induction_on with
  | refl => exact hx
  | @head x p hup _ ih =>
    have hne : x ≠ root := by
      rintro rfl
      cases hup.symm.trans h.loose
    obtain ⟨q, hq, hup'⟩ := h.parent x hx hne
    obtain rfl : q = p := Option.some.inj (hup'.symm.trans hup)
    exact ih hq

theorem mem_behind (horder : order = before ++ id :: rest) (hy : y ∈ order) (hne : y ≠ id)
    (hbelow : a.Below y id) : y ∈ rest := by
  have hapart := h.apart
  rw [horder] at hapart hy
  rcases List.mem_append.1 hy with hy | hy
  · exact absurd hbelow ((List.pairwise_append.1 hapart).2.2 y hy id List.mem_cons_self)
  · exact (List.mem_cons.1 hy).resolve_left hne

/-- What is properly below a node is one of the nodes right below it or properly below one, and
these come behind it. -/
theorem encloses_iff (hforest : a.Forest) (horder : order = before ++ id :: rest) :
    a.Encloses order id c ↔ ∃ y ∈ rest, a.Up y id ∧ (a.HasCapture y c ∨ a.Encloses order y c) := by
  constructor
  · rintro ⟨x, hx, hne, hbelow, hcapture⟩
    rcases hbelow.cases_tail with heq | ⟨y, hxy, hup⟩
    · exact absurd heq.symm hne
    · have hyne : y ≠ id := fun heq ↦ hforest.not_below_parent hup (heq ▸ .refl)
      refine ⟨y, h.mem_behind horder (h.mem_of_below hx hxy) hyne (.single hup), hup, ?_⟩
      by_cases heq : x = y
      · exact .inl (heq ▸ hcapture)
      · exact .inr ⟨x, hx, heq, hxy, hcapture⟩
  · rintro ⟨y, hy, hup, hcapture | ⟨x, hx, hne, hxy, hcapture⟩⟩
    · have hmem : y ∈ order := by
        rw [horder]
        exact List.mem_append_right _ (List.mem_cons_of_mem _ hy)
      exact ⟨y, hmem, fun heq ↦ hforest.not_below_parent hup (heq ▸ .refl), .single hup, hcapture⟩
    · refine ⟨x, hx, ?_, hxy.tail hup, hcapture⟩
      rintro rfl
      exact hforest.not_below_parent hup hxy

end Downward

/-! ## One turn -/

/-- What a node passes on of what has been noted for it: that and its own capture. -/
def passedOn (k : NodeKind) (noted : IndexSet) : IndexSet :=
  match k.group? with
  | some { capture := some c, .. } => noted.insert c
  | _ => noted

theorem mem_passedOn {noted : IndexSet} :
    c ∈ passedOn (a.node x).kind noted ↔ a.HasCapture x c ∨ c ∈ noted := by
  rw [passedOn, HasCapture]
  cases (a.node x).kind with
  | group g =>
    obtain ⟨capture, loop, nested⟩ := g
    cases capture <;> simp [NodeKind.group?, or_comm, eq_comm]
  | _ => simp [NodeKind.group?]

theorem snd_passCaptures (root : Nat) (s : Arena × Array IndexSet) (id : Nat) :
    (passCaptures root s id).2 =
      match (s.1.node id).parent with
      | none => s.2
      | some parent =>
        if id = root || (passedOn (s.1.node id).kind (s.2.getD id ∅)).isEmpty then s.2
        else s.2.modify parent (· ∪ passedOn (s.1.node id).kind (s.2.getD id ∅)) := by
  obtain ⟨b, below⟩ := s
  unfold passCaptures passedOn
  dsimp only
  cases (b.node id).parent with
  | none => rfl
  | some parent =>
    cases (b.node id).kind with
    | group g =>
      obtain ⟨capture, loop, nested⟩ := g
      cases capture <;> exact apply_ite Prod.snd ..
    | _ => exact apply_ite Prod.snd ..

/-- What is noted for a node after a turn: what has been noted before and, for the parent of the
node whose turn it has been, what that passes on. -/
theorem mem_snd_passCaptures {p : Nat} (hp : p < s.2.size) :
    c ∈ (passCaptures root s id).2.getD p ∅ ↔ c ∈ s.2.getD p ∅ ∨
      id ≠ root ∧ s.1.Up id p ∧ (s.1.HasCapture id c ∨ c ∈ s.2.getD id ∅) := by
  rw [snd_passCaptures, ← mem_passedOn, Up]
  generalize passedOn (s.1.node id).kind (s.2.getD id ∅) = mine
  cases (s.1.node id).parent with
  | none => simp
  | some parent =>
    dsimp only
    by_cases hstays : (decide (id = root) || mine.isEmpty) = true
    · rw [if_pos hstays]
      refine (or_iff_left ?_).symm
      rintro ⟨hne, -, hc⟩
      rw [Bool.or_eq_true, decide_eq_true_iff] at hstays
      have hempty := hstays.resolve_left hne
      rw [IndexSet.isEmpty, List.isEmpty_iff] at hempty
      rw [← IndexSet.mem_toList, hempty] at hc
      cases hc
    · rw [if_neg hstays]
      rw [Bool.or_eq_true, decide_eq_true_iff, not_or] at hstays
      rw [Array.getD_eq_getD_getElem?, Array.getElem?_modify, Array.getElem?_eq_getElem hp,
        Array.getD_eq_getD_getElem?, Array.getElem?_eq_getElem hp, Option.some_inj]
      split
      · next heq => simp [heq, hstays.1]
      · next hne => simp [hne]

theorem hasCapture_passCaptures :
    (passCaptures root s id).1.HasCapture x c ↔ s.1.HasCapture x c := by
  rcases fst_passCaptures root s id with heq | ⟨g, hkind, heq⟩
  · rw [heq]
  · rw [heq]
    rcases node_modify_or s.1 id ({ · with kind := .group { g with nested := s.2.getD id ∅ } }) x
      with h | ⟨rfl, h⟩
    · rw [HasCapture, h, HasCapture]
    · rw [HasCapture, h, HasCapture, hkind]
      simp

theorem node_passCaptures_of_ne (hne : x ≠ id) :
    (passCaptures root s id).1.node x = s.1.node x := by
  rcases fst_passCaptures root s id with heq | ⟨g, -, heq⟩
  · rw [heq]
  · rw [heq, node_modify_of_ne _ hne]

theorem nested_passCaptures (hid : id < s.1.size) {g : Group}
    (hkind : ((passCaptures root s id).1.node id).kind = .group g) (hloop : g.loop.isSome = true) :
    g.nested = s.2.getD id ∅ := by
  cases hold : (s.1.node id).kind with
  | group g' =>
    rw [fst_passCaptures_of_group hold] at hkind
    split at hkind
    · rw [node_modify _ hid, if_pos rfl] at hkind
      cases hkind
      rfl
    · next hnot =>
      rw [hold] at hkind
      cases hkind
      exact absurd hloop hnot
  | _ =>
    rw [fst_passCaptures_of_not_group (by rw [hold]; rfl), hold] at hkind
    cases hkind

/-! ## All turns -/

/-- What holds when the nodes at the end of a list have had their turns. -/
structure Passed (a : Arena) (order rest : List Nat) (s : Arena × Array IndexSet) : Prop where
  alike : Alike a s.1
  captures : ∀ x c, s.1.HasCapture x c ↔ a.HasCapture x c
  size : s.2.size = a.size
  /-- For every node it has been noted what those right below it pass on. -/
  noted : ∀ p < a.size, ∀ c, c ∈ s.2.getD p ∅ ↔
    ∃ y ∈ rest, a.Up y p ∧ (a.HasCapture y c ∨ a.Encloses order y c)
  /-- A loop keeps the captures properly below it. -/
  kept : ∀ x ∈ rest, ∀ g, (s.1.node x).kind = .group g → g.loop.isSome = true →
    ∀ c, c ∈ g.nested ↔ a.Encloses order x c

theorem passed_start : Passed a order [] (a, Array.replicate a.size ∅) where
  alike := .refl a
  captures _ _ := Iff.rfl
  size := Array.size_replicate
  noted p hp c := by
    rw [Array.getD_eq_getD_getElem?, Array.getElem?_replicate, if_pos hp]
    simp
  kept := nofun

/-- **The step lemma**: one more node has its turn. -/
theorem Passed.passCaptures (hs : Passed a order rest s) (hforest : a.Forest)
    (h : Downward a root order) (horder : order = before ++ id :: rest) :
    Passed a order (id :: rest) (Arena.passCaptures root s id) := by
  have hid : id < a.size := h.lt_size id (by rw [horder]; simp)
  have hnoted : ∀ c, c ∈ s.2.getD id ∅ ↔ a.Encloses order id c := fun c ↦
    (hs.noted id hid c).trans (h.encloses_iff hforest horder).symm
  constructor
  case alike => exact hs.alike.passCaptures id
  case captures => exact fun x c ↦ hasCapture_passCaptures.trans (hs.captures x c)
  case size =>
    rw [snd_passCaptures]
    split
    · exact hs.size
    · split
      · exact hs.size
      · rw [Array.size_modify, hs.size]
  case noted =>
    intro p hp c
    rw [mem_snd_passCaptures (hs.size ▸ hp), hs.noted p hp, hs.alike.places.up_iff, hs.captures,
      hnoted]
    have hroot : a.Up id p → id ≠ root := by
      rintro hup rfl
      cases hup.symm.trans h.loose
    simp only [List.mem_cons, exists_eq_or_imp]
    rw [or_comm]
    exact or_congr_left ⟨And.right, fun hpasses ↦ ⟨hroot hpasses.1, hpasses⟩⟩
  case kept =>
    intro x hx g hkind hloop c
    rcases List.mem_cons.1 hx with rfl | hrest
    · rw [nested_passCaptures (hs.alike.size ▸ hid) hkind hloop, hnoted]
    · have hne : x ≠ id := by
        rintro rfl
        have hapart := h.apart
        rw [horder] at hapart
        have hbehind := (List.pairwise_cons.1 (List.pairwise_append.1 hapart).2.1).1
        exact hbehind x hrest .refl
      rw [node_passCaptures_of_ne hne] at hkind
      exact hs.kept x hrest g hkind hloop c

/-- **Loops keep the captures properly below them.** -/
theorem mem_nested_setNested (hforest : a.Forest) {order : Array Nat}
    (h : Downward a root order.toList) (hx : x ∈ order) {g : Group}
    (hkind : ((a.setNested root order).node x).kind = .group g) (hloop : g.loop.isSome = true) :
    c ∈ g.nested ↔ a.Encloses order.toList x c := by
  have hall : ∀ before rest, order.toList = before ++ rest → Passed a order.toList rest
      (rest.foldr (fun id s ↦ passCaptures root s id) (a, Array.replicate a.size ∅)) := by
    intro before rest
    induction rest generalizing before with
    | nil => exact fun _ ↦ passed_start
    | cons id rest ih =>
      intro horder
      exact (ih (before ++ [id]) (by rw [horder]; simp)).passCaptures hforest h horder
  rw [setNested, ← Array.foldr_toList] at hkind
  exact (hall [] _ rfl).kept x (Array.mem_toList_iff.2 hx) g hkind hloop c

theorem hasCapture_setNested (order : Array Nat) :
    (a.setNested root order).HasCapture x c ↔ a.HasCapture x c := by
  rw [setNested, ← Array.foldr_toList]
  exact List.foldrRecOn (motive := fun s : Arena × Array IndexSet ↦
    s.1.HasCapture x c ↔ a.HasCapture x c) _ _ Iff.rfl
    fun s hs _ _ ↦ hasCapture_passCaptures.trans hs

/-! ## Finished trees -/

variable {ok : CodePointSet → Prop} {full : CodePointSet} {lead : Nat}

/-- A node does not stand within a look-behind assertion. -/
def Outside (a : Arena) (x : Nat) : Prop :=
  ∀ l, (a.node l).kind.isLookBehind = true → a.Below x l → x = l

theorem Ready.downward_order (h : Ready ok a root) (hab : Alike a b) :
    Downward b root (a.order root).toList where
  lt_size x hx := by
    rw [hab.size]
    exact (h.mem_order.1 (Array.mem_toList_iff.1 hx)).1.lt_size h.lt
  loose := by rw [hab.places.parent, h.loose]
  apart := h.pairwise_order.imp fun hxy hbelow ↦ hxy (hab.places.below_iff.1 hbelow)
  parent x hx hne := by
    obtain ⟨hbelow, hout⟩ := h.mem_order.1 (Array.mem_toList_iff.1 hx)
    rcases hbelow.cases_head with heq | ⟨p, hup, hproot⟩
    · exact absurd heq hne
    · refine ⟨p, ?_, hab.places.up_iff.2 hup⟩
      refine Array.mem_toList_iff.2 (h.mem_order.2 ⟨hproot, fun l hl hpl ↦ ?_⟩)
      have heq := hout l hl (.head hup hpl)
      exact absurd hpl (heq ▸ h.shaped.forest.not_below_parent hup)

namespace Framed

variable (hf : Framed a full root lead b) (h : Ready ok a root)
include hf h

theorem hasCapture_old (hx : x < a.size) :
    b.HasCapture x c ↔ (a.measured root).HasCapture x c := by
  have hold : ∀ {g}, (b.node x).kind = .group g → ((a.measured root).node x).kind = .group g := by
    intro g hkind
    rcases hf.kind_group h hkind with ⟨heq, -⟩ | ⟨-, hold⟩
    · omega
    · exact hold
  constructor
  · rintro ⟨g, hkind, hcapture⟩
    exact ⟨g, hold hkind, hcapture⟩
  · rintro ⟨g, hkind, hcapture⟩
    have hgroup : (b.node x).kind.isGroup = true := by
      rw [NodeKind.isGroup_of_bare_eq (hf.bare x hx),
        ← NodeKind.isGroup_of_core_eq ((alike_measured a root).core x), hkind]
      rfl
    obtain ⟨g', hkind'⟩ := NodeKind.isGroup_iff.1 hgroup
    cases (hold hkind').symm.trans hkind
    exact ⟨g, hkind', hcapture⟩

theorem outside_old (hx : x < a.size) : b.Outside x ↔
    ∀ l, (a.node l).kind.isLookBehind = true → a.Below x l → x = l := by
  constructor
  · intro hout l hl hxl
    have hlt := h.shaped.forest.lt_of_below hxl hx
    refine hout l ?_ ((hf.below_old hx hlt).2 hxl)
    rw [NodeKind.isLookBehind_of_bare_eq (hf.bare l hlt), hl]
  · intro hout l hl hxl
    obtain ⟨hlt, hl⟩ := hf.lt_of_isLookBehind hl
    exact hout l hl ((hf.below_old hx hlt).1 hxl)

/-- Loops of a finished tree keep the captures that stand properly below them. -/
theorem mem_nested_iff {g : Group} (hkind : (b.node x).kind = .group g)
    (hloop : g.loop.isSome = true) (hholds : b.Below x (a.size + 1)) (hout : b.Outside x) :
    c ∈ g.nested ↔ ∃ y, y ≠ x ∧ b.Below y x ∧ b.Outside y ∧ b.HasCapture y c := by
  obtain ⟨hx, hmeasured⟩ : x < a.size ∧ ((a.measured root).node x).kind = .group g := by
    rcases hf.kind_group h hkind with ⟨-, rfl⟩ | hold
    · cases hloop
    · exact hold
  have halike : Alike a ((a.makeRoot root).setMinPaths (a.order root)) :=
    (alike_makeRoot root).trans (alike_setMinPaths _)
  have hmem : ∀ {y}, y < a.size → b.Below y (a.size + 1) → b.Outside y → y ∈ a.order root :=
    fun hy hyholds hyout ↦
      h.mem_order.2 ⟨(hf.holds_old h hy).1 hyholds, (hf.outside_old h hy).1 hyout⟩
  rw [mem_nested_setNested (halike.places.forest h.shaped.forest) (h.downward_order halike)
    (hmem hx hholds hout) hmeasured hloop, Encloses]
  refine exists_congr fun y ↦ ?_
  constructor
  · rintro ⟨hy, hne, hyx, hcapture⟩
    obtain ⟨hyroot, hyout⟩ := h.mem_order.1 (Array.mem_toList_iff.1 hy)
    have hylt : y < a.size := halike.size ▸ (h.downward_order halike).lt_size y hy
    refine ⟨hne, (hf.below_old hylt hx).2 (halike.places.below_iff.1 hyx),
      (hf.outside_old h hylt).2 hyout, (hf.hasCapture_old h hylt).2 ?_⟩
    exact (hasCapture_setNested _).2 hcapture
  · rintro ⟨hne, hyx, hyout, hcapture⟩
    have hylt := hf.lt_of_below_old h hx hyx
    refine ⟨Array.mem_toList_iff.2 (hmem hylt (hyx.trans hholds) hyout), hne,
      halike.places.below_iff.2 ((hf.below_old hylt hx).1 hyx), ?_⟩
    exact (hasCapture_setNested _).1 ((hf.hasCapture_old h hylt).1 hcapture)

end Framed

end Arena

namespace Tree

variable {t : Tree} {x c : Nat}

/-- A capture group of a number stands properly below a node, and outside of look-behind
assertions. -/
def Encloses (t : Tree) (x c : Nat) : Prop :=
  ∃ y, y ≠ x ∧ t.arena.Below y x ∧ t.arena.Outside y ∧ t.arena.HasCapture y c

/-- **Loops of finished trees keep the captures that stand properly below them.** -/
theorem Finished.mem_nested (h : t.Finished) {g : Group} (hkind : (t.node x).kind = .group g)
    (hloop : g.loop.isSome = true) (hholds : t.Holds x) (hout : t.arena.Outside x) :
    c ∈ g.nested ↔ t.Encloses x c := by
  obtain ⟨a, encoding, root, captures, hready, rfl⟩ := h.ready
  have ht := hready.finishedFrom encoding captures
  rw [Holds, ht.wrappedRoot_eq] at hholds
  exact ht.framed.mem_nested_iff hready hkind hloop hholds hout

end Tree

end PatternAutomata
