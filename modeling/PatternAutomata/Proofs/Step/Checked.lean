import PatternAutomata.Proofs.Step.Moves
import PatternAutomata.Proofs.Tree.WellFormed
import PatternAutomata.Step.Step

/-!
# Steps with all checks

A step that looks at nothing without finding out first whether it is there. Every node is looked up
in the arena, every slot in the table of slots, and every body on the way down from its assertion. A
path may only leave a node that has a parent, and only to a sequence or a group. Where a check fails
there is no result.

In a well-formed tree no check fails as long as the markers held belong to the tree. What carries
this is where paths stand: outside of all look-behind assertions, and never at the end of the whole.
-/

namespace PatternAutomata

/-! ## Checks one after another -/

section Checks

variable {α β : Type} {l : List α}

theorem length_le_of_filterMapM {f : α → Option (Option β)} {l' : List β}
    (h : l.filterMapM f = some l') : l'.length ≤ l.length := by
  induction l generalizing l' with
  | nil =>
    cases h
    exact Nat.le_refl 0
  | cons x l ih =>
    rw [List.filterMapM_cons] at h
    obtain ⟨y, -, h⟩ := Option.bind_eq_some_iff.1 h
    cases y with
    | none => exact Nat.le_succ_of_le (ih h)
    | some y =>
      obtain ⟨l'', hl'', h⟩ := Option.bind_eq_some_iff.1 h
      cases h
      exact Nat.succ_le_succ (ih hl'')

theorem mapM_eq {f : α → Option β} {g : α → β} (hf : ∀ x ∈ l, f x = some (g x)) :
    l.mapM f = some (l.map g) := by
  induction l with
  | nil => rfl
  | cons x l ih =>
    obtain ⟨hx, hl⟩ := List.forall_mem_cons.1 hf
    rw [List.mapM_cons, hx, ih hl]
    rfl

theorem filterMapM_eq {f : α → Option (Option β)} {q : α → Bool} {k : α → β}
    (hf : ∀ x ∈ l, f x = some (if q x then some (k x) else none)) :
    l.filterMapM f = some ((l.filter q).map k) := by
  induction l with
  | nil => rfl
  | cons x l ih =>
    obtain ⟨hx, hl⟩ := List.forall_mem_cons.1 hf
    rw [List.filterMapM_cons, hx, ih hl]
    cases hq : q x <;> simp [hq]

theorem foldlM_eq {P : β → Prop} {f : β → α → Option β} {g : β → α → β} {b : β}
    (hstep : ∀ b, P b → ∀ x ∈ l, f b x = some (g b x) ∧ P (g b x)) (hb : P b) :
    l.foldlM f b = some (l.foldl g b) ∧ P (l.foldl g b) := by
  induction l generalizing b with
  | nil => exact ⟨rfl, hb⟩
  | cons x l ih =>
    obtain ⟨hx, hP⟩ := hstep b hb x List.mem_cons_self
    rw [List.foldlM_cons, hx]
    exact ih (fun b hb y hy ↦ hstep b hb y (List.mem_cons_of_mem _ hy)) hP

end Checks

/-! ## Looking things up -/

namespace Tree

variable (t : Tree)

/-- The node of a number, if there is one. -/
def node? (id : Nat) : Option Node := t.arena.nodes[id]?

/-- A slot, if it is one of the two of some capture group. -/
def slot? (slot : Nat) : Option Nat :=
  if slot < 2 * t.captureGroups then some slot else none

/-- The classes of the body of a look-behind assertion, if there is a group with a sequence. -/
def body? (lookBehind : Nat) : Option (Array Nat) := do
  let assertion ← t.node? lookBehind
  let group ← t.node? (← assertion.children[0]?)
  let sequence ← t.node? (← group.children[0]?)
  return sequence.children

end Tree

/-! ## Moves -/

namespace Path

def startGroup? (p : Path) (t : Tree) (g : Group) : Option Path :=
  match g.capture with
  | none => return { p with isReentry := false }
  | some c => do
    let slot ← t.slot? (Boundaries.startSlot c)
    return { p with isReentry := false, boundaries := p.boundaries.update slot }

def endGroup? (p : Path) (t : Tree) (g : Group) : Option Path :=
  match g.capture with
  | none => return p
  | some c => do
    let slot ← t.slot? (Boundaries.endSlot c)
    return { p with
      boundaries := p.boundaries.update slot
      lastGroup := if 0 < c then some c else p.lastGroup }

def nestedSlots? (t : Tree) (g : Group) : Option IndexSet := do
  let slots ← (g.nested.toList.flatMap fun c ↦
    [Boundaries.startSlot c, Boundaries.endSlot c]).mapM t.slot?
  return .ofList slots

def startAlternative? (p : Path) (t : Tree) (g : Group) (alternative : Nat) : Option Path := do
  let n ← t.node? alternative
  let p := p.inFrontOf alternative
  if g.loop.isSome && !n.isEmpty then
    return { p with boundaries := p.boundaries.clear (← nestedSlots? t g) }
  else return p

def tryAlternative? (started : Path) (t : Tree) (g : Group) (isReentry : Bool)
    (alternative : Nat) : Option (Option Path) := do
  let n ← t.node? alternative
  if g.loop == some .plus && !isReentry && n.isEmpty then return none
  else (started.startAlternative? t g alternative).map some

def enterGroup? (p : Path) (t : Tree) (g : Group) (alternatives : Array Nat) :
    Option (List Path) := do
  let started ← p.startGroup? t g
  alternatives.toList.filterMapM (started.tryAlternative? t g p.isReentry)

def holds? (s : Stance) (lookBehind length : Nat) : Option Bool :=
  if length = 0 then some true
  else do
    let last ← (← s.tree.body? lookBehind).back?
    return s.held.contains last

def enter? (s : Stance) (p : Path) : Option (List Path) := do
  let n ← s.tree.node? p.node
  match n.kind with
  | .chars _ _ | .matchFound => return []
  | .sequence =>
    match n.children[0]? with
    | none => return [p.leaving]
    | some first => return [p.inFrontOf first]
  | .group g => p.enterGroup? s.tree g n.children
  | .caret => return if s.isAtStart then [p.leaving] else []
  | .dollar => return [{ p.leaving with dollar := p.dollar <|> some p.node }]
  | .lookBehind length =>
    if ← holds? s p.node length then
      return [{ p.leaving with
        lookBehinds :=
          if p.lookBehinds.contains p.node then p.lookBehinds else p.lookBehinds ++ [p.node] }]
    else return []
  | .marker _ _ => return [p.leaving]

/-- The way to go on from the end of a node: it has a parent, which is a sequence or a group. -/
def leave? (t : Tree) (p : Path) : Option (Option Path) := do
  let child ← t.node? p.node
  let parent ← child.parent
  let above ← t.node? parent
  match above.kind with
  | .sequence =>
    match above.children[child.index + 1]? with
    | some next => return some (p.inFrontOf next)
    | none => return some { p with node := parent }
  | .group g =>
    if g.loop.isSome && !child.isEmpty then
      if p.reentered.contains parent then return none
      else return some { p.inFrontOf parent with
        isReentry := true
        reentered := p.reentered.insert parent }
    else return some { (← p.endGroup? t g) with node := parent }
  | _ => none

def next? (s : Stance) (p : Path) : Option (List Path) :=
  if p.isLeaving then (p.leave? s.tree).map (·.toList) else p.enter? s

/-- The target that a path has arrived at, if it has, which is a node of the arena. -/
def target? (s : Stance) (p : Path) : Option (Option Nat) := do
  let _ ← s.tree.node? p.node
  match p.arrival? s with
  | none => return none
  | some target =>
    let _ ← s.tree.node? target
    return some target

/-- With all checks, too, a path goes on in no more ways than a node has children, or in one. -/
theorem length_next?_le {s : Stance} {p : Path} {ways : List Path} (h : p.next? s = some ways) :
    ways.length ≤ s.tree.arena.arity + 1 := by
  unfold next? at h
  split at h
  · obtain ⟨way, -, rfl⟩ := Option.map_eq_some_iff.1 h
    exact Nat.le_trans Option.length_toList_le (Nat.le_add_left _ _)
  · obtain ⟨n, hn, h⟩ := Option.bind_eq_some_iff.1 h
    have hnode : s.tree.arena.node p.node = n := by
      rw [Arena.node, Array.getD_eq_getD_getElem?,
        show s.tree.arena.nodes[p.node]? = some n from hn]
      rfl
    have harity := s.tree.arena.size_children_le_arity p.node
    rw [hnode] at harity
    split at h
    case h_4 g _ =>
      obtain ⟨started, -, h⟩ := Option.bind_eq_some_iff.1 h
      exact Nat.le_succ_of_le (Nat.le_trans (length_le_of_filterMapM h) harity)
    case h_7 length _ =>
      obtain ⟨holds, -, h⟩ := Option.bind_eq_some_iff.1 h
      split at h <;> (cases h; simp)
    all_goals (try split at h) <;> (cases h; try split) <;> simp

end Path

/-! ## Walks and steps -/

namespace Walk

def visit? (w : Walk) (s : Stance) (p : Path) : Option Walk := do
  let w := { w with visited := w.visited.insert p.context }
  match ← p.target? s with
  | none => return w
  | some target => return w.arrive s.tree (.ofPath p target)

def run? (s : Stance) : List (Nat × Path) → Walk → Option Walk
  | [], w => some w
  | (0, _) :: pending, w => run? s pending w
  | (left + 1, p) :: pending, w =>
    if w.visited.contains p.context then run? s pending w
    else match _h : p.next? s, w.visit? s p with
      | some ways, some w => run? s (ways.map (left, ·) ++ pending) w
      | _, _ => none
termination_by pending => pendingWeight (s.tree.arena.arity + 2) pending
decreasing_by
  all_goals have hpos : ∀ n, 0 < Nat.pow (s.tree.arena.arity + 2) n :=
    fun n ↦ Nat.pow_pos (Nat.succ_pos _)
  · exact Nat.lt_add_of_pos_left (hpos 0)
  · exact Nat.lt_add_of_pos_left (hpos (left + 1))
  · rw [pendingWeight_map_append]
    refine Nat.add_lt_add_right (Nat.lt_of_lt_of_eq ?_ (Nat.mul_comm _ _)) _
    exact Nat.mul_lt_mul_of_pos_right (Nat.lt_succ_of_le (Path.length_next?_le _h)) (hpos left)

def fromMarker? (w : Walk) (s : Stance) (marker : Nat) : Option Walk :=
  run? s [(s.tree.allowance, { node := marker, isLeaving := true })] { w with visited := {} }

end Walk

namespace Tree

variable (t : Tree) (held : MarkerSet) (mustAdvance : Bool)

def walk? : Option Walk :=
  held.toList.foldlM (fun w marker ↦ do
    let _ ← t.node? marker
    match t.origin? marker with
    | none => return w
    | some isAtStart => w.fromMarker? { tree := t, held, mustAdvance, isAtStart } marker) {}

def bodyProgress? (lookBehind : Nat) : Option (List Nat) := do
  let body ← t.body? lookBehind
  return (List.range body.size).filterMap fun i ↦
    if i = 0 || held.contains (body.getD (i - 1) 0) then body[i]? else none

def track? (found : Array Successor) : Option (Array Successor) := do
  let _ ← found.toList.mapM fun s ↦ t.node? s.target
  if found.all (·.isFinal t) then return found
  else
    t.lookBehinds.toList.foldlM (fun found lookBehind ↦ do
      let targets ← t.bodyProgress? held lookBehind
      return targets.foldl (fun found target ↦ found.push { target }) found) found

/-- A step with all checks. -/
def step? : Option (Array Successor) := do
  let w ← t.walk? held mustAdvance
  t.track? held w.found

/-! ## Where paths stand -/

/-- The nodes that the ways down come by without going into a look-behind assertion. -/
def Outer : Nat → Prop :=
  Relation.ReflTransGen (fun p c ↦ t.Holding p c ∧ (t.node p).kind.isLookBehind = false)
    t.wrappedRoot

/-- A spot that a path from a marker can come to: outside of look-behind assertions, and never at
the end of the place behind the pattern or of what ends with it. -/
structure Stands (u : Spot) : Prop where
  outer : t.Outer u.node
  leaving : u.isLeaving = true →
    u.node ≠ t.wrappedRoot ∧ ¬t.Holding t.wrappedRoot u.node ∧ u.node ≠ t.matchFound

variable {t held mustAdvance} {x p c : Nat}

theorem node?_of_lt (hx : x < t.size) : t.node? x = some (t.node x) := by
  have hlt : x < t.arena.nodes.size := hx
  rw [node?, node, Arena.node, Array.getD_eq_getD_getElem?, Array.getElem?_eq_getElem hlt]
  rfl

theorem slot?_eq {slot : Nat} (hslot : slot < 2 * t.captureGroups) : t.slot? slot = some slot :=
  if_pos hslot

theorem Outer.reachable (h : t.Outer x) : t.Reachable x := by
  induction h with
  | refl => exact .refl
  | tail _ hstep ih => exact ih.tail hstep.1

theorem Outer.child (h : t.Outer p) (hkind : (t.node p).kind.isLookBehind = false)
    (hc : t.Holding p c) : t.Outer c :=
  h.tail ⟨hc, hkind⟩

namespace WellFormed

variable (h : t.WellFormed)
include h

theorem outer_parent (hx : t.Outer x) (hparent : (t.node x).parent = some p) :
    t.Outer p ∧ (t.node p).children[(t.node x).index]? = some x ∧
      ((t.node p).kind = .sequence ∨ ∃ g, (t.node p).kind = .group g) := by
  rcases hx.cases_tail with rfl | ⟨q, hq, hholding, hkind⟩
  · rw [h.root_loose] at hparent
    cases hparent
  · have hq : t.Outer q := hq
    obtain ⟨i, hi⟩ := Array.mem_iff_getElem?.1 hholding
    obtain ⟨hup, hindex⟩ := h.child hq.reachable hi
    obtain rfl : q = p := Option.some.inj (hup.symm.trans hparent)
    have hmay := h.kinds hq.reachable hholding
    refine ⟨hq, hindex ▸ hi, ?_⟩
    cases hk : (t.node q).kind with
    | group g => exact .inr ⟨g, rfl⟩
    | sequence => exact .inl rfl
    | lookBehind _ =>
      rw [hk] at hkind
      cases hkind
    | _ =>
      rw [hk] at hmay
      cases hmay

theorem sequence_of_holding (hp : t.Reachable p) (hkind : (t.node p).kind.isGroup = true)
    (hc : t.Holding p c) : (t.node c).kind = .sequence := by
  obtain ⟨g, hg⟩ := NodeKind.isGroup_iff.1 hkind
  have hmay := h.kinds hp hc
  rw [hg] at hmay
  cases hk : (t.node c).kind <;> rw [hk] at hmay <;> first | rfl | cases hmay

theorem group_of_holding (hp : t.Reachable p) (hkind : (t.node p).kind.isLookBehind = true)
    (hc : t.Holding p c) : (t.node c).kind.isGroup = true := by
  obtain ⟨length, hlength⟩ := NodeKind.isLookBehind_iff.1 hkind
  have hmay := h.kinds hp hc
  rw [hlength] at hmay
  cases hk : (t.node c).kind <;> rw [hk] at hmay <;> first | rfl | cases hmay

theorem sequence_of_holding_root (hx : t.Holding t.wrappedRoot x) :
    (t.node x).kind = .sequence ∧ (t.node x).children.back? = some t.matchFound := by
  obtain ⟨s, hkind, hs, hback⟩ := h.top
  refine ⟨h.sequence_of_holding .refl (by rw [hkind]; rfl) hx, ?_⟩
  rw [Holding, hs, Array.mem_singleton] at hx
  rw [hx, hback]

theorem stands_of_term (hx : t.Outer x) {k : NodeKind} (hkind : (t.node x).kind = k)
    (hk : k.isGroup = false ∧ k ≠ .sequence ∧ k ≠ .matchFound) {r : Bool} :
    t.Stands ⟨x, true, r⟩ where
  outer := hx
  leaving _ := by
    obtain ⟨hgroup, hsequence, hmatch⟩ := hk
    refine ⟨?_, fun hholding ↦ hsequence ?_, fun heq ↦ hmatch ?_⟩
    · rintro rfl
      obtain ⟨s, htop, -⟩ := h.top
      rw [← hkind, htop] at hgroup
      cases hgroup
    · exact hkind.symm.trans (h.sequence_of_holding_root hholding).1
    · exact hkind.symm.trans (h.matchFound_iff.2 heq)

/-- **What one move preserves.** -/
theorem stands_of_move {passes : Nat → Prop} {isAtStart : Prop} {u v : Spot} (hu : t.Stands u)
    (hmove : Move t passes isAtStart u v) : t.Stands v := by
  have hfront : ∀ {x : Nat} {r : Bool}, t.Outer x → t.Stands ⟨x, false, r⟩ := fun hx ↦
    ⟨hx, nofun⟩
  cases hmove with
  | again hrepeats => exact hfront (h.outer_parent hu.outer hrepeats.parent).1
  | onward honward =>
    cases honward with
    | first hkind hc =>
      exact hfront (hu.outer.child (by rw [hkind]; rfl) (Array.mem_of_getElem? hc))
    | @skip id r hkind hnone =>
      refine ⟨hu.outer, fun _ ↦ ⟨?_, fun hholding ↦ ?_, fun heq ↦ ?_⟩⟩
      · rintro rfl
        obtain ⟨s, hgroup, -⟩ := h.top
        cases hkind.symm.trans hgroup
      · have hback := (h.sequence_of_holding_root hholding).2
        rw [Array.back?_eq_getElem?, Array.eq_empty_of_size_eq_zero
          (Nat.le_zero.1 (Array.getElem?_eq_none_iff.1 hnone))] at hback
        cases hback
      · cases hkind.symm.trans (h.matchFound_iff.2 heq)
    | choose hkind hc _ => exact hfront (hu.outer.child (by rw [hkind]; rfl) hc)
    | caret hkind _ => exact h.stands_of_term hu.outer hkind ⟨rfl, nofun, nofun⟩
    | dollar hkind => exact h.stands_of_term hu.outer hkind ⟨rfl, nofun, nofun⟩
    | lookBehind hkind _ => exact h.stands_of_term hu.outer hkind ⟨rfl, nofun, nofun⟩
    | marker hkind => exact h.stands_of_term hu.outer hkind ⟨rfl, nofun, nofun⟩
    | next hparent hkind hc =>
      exact hfront ((h.outer_parent hu.outer hparent).1.child (by rw [hkind]; rfl)
        (Array.mem_of_getElem? hc))
    | @last id p r hparent hkind hnone =>
      obtain ⟨hp, hplace, -⟩ := h.outer_parent hu.outer hparent
      refine ⟨hp, fun _ ↦ ⟨?_, fun hholding ↦ ?_, fun heq ↦ ?_⟩⟩
      · rintro rfl
        obtain ⟨s, hgroup, -⟩ := h.top
        cases hkind.symm.trans hgroup
      · -- the last term of the sequence at the top is the place behind the pattern
        have hback := (h.sequence_of_holding_root hholding).2
        have hlt := (Array.getElem?_eq_some_iff.1 hplace).1
        have hle := Array.getElem?_eq_none_iff.1 hnone
        rw [Array.back?_eq_getElem?,
          show (t.node p).children.size - 1 = (t.node id).index from
            Nat.le_antisymm (Nat.sub_le_of_le_add hle) (Nat.le_sub_one_of_lt hlt), hplace] at hback
        exact (hu.leaving rfl).2.2 (Option.some.inj hback)
      · cases hkind.symm.trans (h.matchFound_iff.2 heq)
    | @out id p r g hparent hkind _ =>
      obtain ⟨hp, hplace, -⟩ := h.outer_parent hu.outer hparent
      refine ⟨hp, fun _ ↦ ⟨?_, fun hholding ↦ ?_, fun heq ↦ ?_⟩⟩
      · rintro rfl
        exact (hu.leaving rfl).2.1 (Array.mem_of_getElem? hplace)
      · cases hkind.symm.trans (h.sequence_of_holding_root hholding).1
      · cases hkind.symm.trans (h.matchFound_iff.2 heq)

/-! ## No check fails -/

theorem node?_eq (hx : t.Reachable x) : t.node? x = some (t.node x) :=
  node?_of_lt (h.lt_size hx)

theorem body?_eq (hx : t.Reachable x) {length : Nat}
    (hkind : (t.node x).kind = .lookBehind length) : t.body? x = some (t.body x) := by
  obtain ⟨g, s, hg, hs, hbody, -⟩ := h.lookBehind hkind
  have hgr : t.Reachable g := hx.tail (by rw [Holding, hg]; exact Array.mem_singleton_self g)
  have hsr : t.Reachable s := hgr.tail (by rw [Holding, hs]; exact Array.mem_singleton_self s)
  rw [hbody]
  simp [body?, h.node?_eq hx, h.node?_eq hgr, h.node?_eq hsr, hg, hs]

end WellFormed

end Tree

namespace Path

variable {t : Tree} {s : Stance} {p : Path} {g : Group} {id : Nat}

theorem startGroup?_eq (hg : ∀ c, g.capture = some c → c < t.captureGroups) :
    p.startGroup? t g = some (p.startGroup g) := by
  unfold startGroup? startGroup
  cases hcapture : g.capture with
  | none => rfl
  | some c =>
    have hslot : Boundaries.startSlot c < 2 * t.captureGroups :=
      Nat.mul_lt_mul_of_pos_left (hg c hcapture) Nat.two_pos
    simp [Tree.slot?_eq hslot]

theorem endGroup?_eq (hg : ∀ c, g.capture = some c → c < t.captureGroups) :
    p.endGroup? t g = some (p.endGroup g) := by
  unfold endGroup? endGroup
  cases hcapture : g.capture with
  | none => rfl
  | some c =>
    have hslot : Boundaries.endSlot c < 2 * t.captureGroups := by
      have := hg c hcapture
      unfold Boundaries.endSlot
      omega
    simp [Tree.slot?_eq hslot]

theorem nestedSlots?_eq (hg : ∀ c ∈ g.nested, c < t.captureGroups) :
    nestedSlots? t g = some (nestedSlots g) := by
  unfold nestedSlots?
  rw [mapM_eq (g := id)]
  · rw [List.map_id]
    rfl
  · intro slot hslot
    refine Tree.slot?_eq ?_
    obtain ⟨c, hc, hslot⟩ := List.mem_flatMap.1 hslot
    have := hg c hc
    simp only [Boundaries.startSlot, Boundaries.endSlot, List.mem_cons, List.not_mem_nil,
      or_false] at hslot
    omega

theorem startAlternative?_eq (hg : ∀ c ∈ g.nested, c < t.captureGroups)
    (hid : t.node? id = some (t.node id)) :
    p.startAlternative? t g id = some (p.startAlternative t g id) := by
  unfold startAlternative? startAlternative
  rw [hid, nestedSlots?_eq hg]
  dsimp only [Option.bind_eq_bind, Option.bind_some]
  split <;> rfl

theorem tryAlternative?_eq (hg : ∀ c ∈ g.nested, c < t.captureGroups)
    (hid : t.node? id = some (t.node id)) {r : Bool} : p.tryAlternative? t g r id =
      some (if isOpen t g r id then some (p.startAlternative t g id) else none) := by
  unfold tryAlternative? isOpen
  rw [hid, startAlternative?_eq hg hid]
  dsimp only [Option.bind_eq_bind, Option.bind_some]
  cases g.loop == some .plus && !r && (t.node id).isEmpty <;> rfl

theorem enterGroup?_eq {alternatives : Array Nat}
    (hcapture : ∀ c, g.capture = some c → c < t.captureGroups)
    (hnested : ∀ c ∈ g.nested, c < t.captureGroups)
    (hnodes : ∀ c ∈ alternatives, t.node? c = some (t.node c)) :
    p.enterGroup? t g alternatives = some (p.enterGroup t g alternatives) := by
  unfold enterGroup? enterGroup
  rw [startGroup?_eq hcapture]
  exact filterMapM_eq fun c hc ↦ tryAlternative?_eq hnested (hnodes c (Array.mem_toList_iff.1 hc))

/-- The spot of a path is in front of or at the end of a node where it may be, and the dollar that
the path has passed is a node. -/
structure Safe (t : Tree) (p : Path) : Prop where
  stands : t.Stands p.spot
  dollar : ∀ d, p.dollar = some d → d < t.size

variable (h : s.tree.WellFormed)
include h

theorem holds?_eq (hid : s.tree.Reachable id) {length : Nat}
    (hkind : (s.tree.node id).kind = .lookBehind length) :
    holds? s id length = some (holds s id length) := by
  unfold holds? holds
  by_cases hlength : length = 0
  · rw [if_pos hlength, hlength]
    rfl
  · obtain ⟨-, -, -, -, -, hsize, -⟩ := h.lookBehind hkind
    have hlt : (s.tree.body id).size - 1 < (s.tree.body id).size := by omega
    rw [if_neg hlength, h.body?_eq hid hkind, Array.back?_eq_getElem?,
      Array.getElem?_eq_getElem hlt]
    simp [Array.back?_eq_getElem?, Array.getElem?_eq_getElem hlt, hlength]

theorem enter?_eq (hp : s.tree.Reachable p.node) : p.enter? s = some (p.enter s) := by
  unfold enter? enter
  rw [h.node?_eq hp]
  dsimp only [Option.bind_eq_bind, Option.bind_some]
  cases hkind : (s.tree.node p.node).kind with
  | group g =>
    obtain ⟨hcapture, hnested⟩ := h.captures hp hkind
    exact enterGroup?_eq hcapture hnested fun c hc ↦ h.node?_eq (hp.tail hc)
  | sequence =>
    dsimp only
    cases (s.tree.node p.node).children[0]? <;> rfl
  | lookBehind length =>
    dsimp only
    rw [holds?_eq h hp hkind]
    cases holds s p.node length <;> rfl
  | _ => rfl

theorem leave?_eq (hp : s.tree.Outer p.node) (hne : p.node ≠ s.tree.wrappedRoot) :
    p.leave? s.tree = some (p.leave s.tree) := by
  obtain ⟨parent, hreach, hparent, -⟩ := h.parent hp.reachable hne
  obtain ⟨-, -, hkind⟩ := h.outer_parent hp hparent
  unfold leave? leave leaveFor
  rw [h.node?_eq hp.reachable]
  dsimp only [Option.bind_eq_bind, Option.bind_some]
  rw [hparent, Option.bind_some, Option.bind_some, h.node?_eq hreach, Option.bind_some]
  rcases hkind with hkind | ⟨g, hkind⟩
  · rw [hkind]
    dsimp only
    cases (s.tree.node parent).children[(s.tree.node p.node).index + 1]? <;> rfl
  · rw [hkind]
    dsimp only
    split
    · split <;> rfl
    · rw [endGroup?_eq (h.captures hreach hkind).1]
      rfl

theorem next?_eq (hp : p.Safe s.tree) : p.next? s = some (p.next s) := by
  unfold next? next
  split
  · next hleaving =>
    rw [leave?_eq h hp.stands.outer (hp.stands.leaving hleaving).1]
    rfl
  · exact enter?_eq h hp.stands.outer.reachable

theorem Safe.of_mem_next (hp : p.Safe s.tree) {q : Path} (hq : q ∈ p.next s) :
    q.Safe s.tree where
  stands := by
    have hfits : s.tree.LengthsFit := fun id length hkind ↦ by
      obtain ⟨-, -, -, -, -, hsize, -⟩ := h.lookBehind hkind
      exact hsize
    cases leads_of_mem_next hfits hq with
    | onward honward _ => exact h.stands_of_move hp.stands (.onward honward)
    | again hrepeats _ hspot _ =>
      rw [hspot]
      have hmove : s.Move p.spot (.again _) := .again hrepeats
      exact h.stands_of_move hp.stands hmove
  dollar d hd := by
    rw [dollar_of_mem_next hq] at hd
    split at hd
    · cases hdollar : p.dollar with
      | none =>
        rw [hdollar] at hd
        cases hd
        exact h.lt_size hp.stands.outer.reachable
      | some d' =>
        rw [hdollar] at hd
        cases hd
        exact hp.dollar d hdollar
    · exact hp.dollar d hd

theorem Safe.target_lt (hp : p.Safe s.tree) {target : Nat} (htarget : p.arrival? s = some target) :
    target < s.tree.size := by
  have hnode := h.lt_size hp.stands.outer.reachable
  unfold arrival? at htarget
  split at htarget
  · cases htarget
  · split at htarget
    · split at htarget <;> cases htarget
      exact hnode
    · split at htarget <;> cases htarget
      cases hdollar : p.dollar with
      | none => exact hnode
      | some d => exact hp.dollar d hdollar
    · cases htarget

theorem target?_eq (hp : p.Safe s.tree) : p.target? s = some (p.arrival? s) := by
  have hnode : s.tree.Reachable p.node := hp.stands.outer.reachable
  unfold target?
  rw [h.node?_eq hnode]
  dsimp only [Option.bind_eq_bind, Option.bind_some]
  cases harrival : p.arrival? s with
  | none => rfl
  | some target =>
    dsimp only
    rw [Tree.node?_of_lt (hp.target_lt h harrival)]
    rfl

end Path

/-! ## Walks and steps of well-formed trees -/

namespace Walk

variable {s : Stance} {w : Walk} {p : Path}

/-- All targets reached are nodes. -/
def Lands (w : Walk) (t : Tree) : Prop := ∀ d ∈ w.found, d.target < t.size

theorem Lands.arrive {t : Tree} (hw : w.Lands t) {d : Successor} (hd : d.target < t.size) :
    (w.arrive t d).Lands t := by
  unfold Walk.arrive
  split
  · exact hw
  · intro e he
    rcases Array.mem_push.1 he with he | rfl
    · exact hw e he
    · exact hd

theorem visit?_eq (h : s.tree.WellFormed) (hw : w.Lands s.tree) (hp : p.Safe s.tree) :
    w.visit? s p = some (w.visit s p) ∧ (w.visit s p).Lands s.tree := by
  unfold visit? visit
  rw [Path.target?_eq h hp]
  dsimp only [Option.bind_eq_bind, Option.bind_some]
  cases harrival : p.arrival? s with
  | none => exact ⟨rfl, hw⟩
  | some target =>
    refine ⟨rfl, Lands.arrive (w := { w with visited := w.visited.insert p.context }) hw ?_⟩
    exact hp.target_lt h harrival

/-- **What a whole walk preserves**: paths are where they may be, so no check fails. -/
theorem run?_eq (h : s.tree.WellFormed) {pending : List (Nat × Path)}
    (hpending : ∀ x ∈ pending, x.2.Safe s.tree) (hw : w.Lands s.tree) :
    run? s pending w = some (run s pending w) ∧ (run s pending w).Lands s.tree := by
  fun_induction run s pending w with
  | case1 w => exact ⟨by rw [run?], hw⟩
  | case2 p pending w ih =>
    rw [run?]
    exact ih (fun x hx ↦ hpending x (List.mem_cons_of_mem _ hx)) hw
  | case3 left p pending w hvisited ih =>
    rw [run?, if_pos hvisited]
    exact ih (fun x hx ↦ hpending x (List.mem_cons_of_mem _ hx)) hw
  | case4 left p pending w hvisited ih =>
    have hp := hpending _ List.mem_cons_self
    obtain ⟨hvisit, hlands⟩ := visit?_eq h hw hp
    rw [run?, if_neg hvisited, Path.next?_eq h hp, hvisit]
    refine ih (fun x hx ↦ ?_) hlands
    rcases List.mem_append.1 hx with hx | hx
    · obtain ⟨q, hq, rfl⟩ := List.mem_map.1 hx
      exact hp.of_mem_next h hq
    · exact hpending x (List.mem_cons_of_mem _ hx)

end Walk

namespace Tree

variable {t : Tree} {held : MarkerSet} {mustAdvance : Bool} (h : t.WellFormed)
include h

/-- What is reachable is outer, or it is the group, the sequence or a class of the body of a
look-behind assertion. -/
theorem WellFormed.outer_or {x : Nat} (hx : t.Reachable x) : t.Outer x ∨
    ∃ l g s, t.Reachable l ∧ (t.node l).kind.isLookBehind = true ∧ (t.node l).children = #[g] ∧
      (t.node g).children = #[s] ∧ t.body l = (t.node s).children ∧
      (x = g ∨ x = s ∨ x ∈ t.body l) := by
  induction hx with
  | refl => exact .inl .refl
  | @tail p c hp hc ih =>
    rcases ih with houter | ⟨l, g, s, hl, hkind, hg, hs, hbody, hin⟩
    · cases hkind : (t.node p).kind.isLookBehind with
      | false => exact .inl (houter.child hkind hc)
      | true =>
        obtain ⟨length, hlength⟩ := NodeKind.isLookBehind_iff.1 hkind
        obtain ⟨g, s, hg, hs, hbody, -⟩ := h.lookBehind hlength
        rw [Holding, hg, Array.mem_singleton] at hc
        exact .inr ⟨p, g, s, hp, hkind, hg, hs, hbody, .inl hc⟩
    · refine .inr ⟨l, g, s, hl, hkind, hg, hs, hbody, ?_⟩
      rcases hin with rfl | rfl | hin
      · rw [Holding, hs, Array.mem_singleton] at hc
        exact .inr (.inl hc)
      · exact .inr (.inr (hbody ▸ hc))
      · -- nothing is below a class
        obtain ⟨length, hlength⟩ := NodeKind.isLookBehind_iff.1 hkind
        obtain ⟨-, -, -, -, -, -, hchars⟩ := h.lookBehind hlength
        obtain ⟨set, claim, hset⟩ := NodeKind.isChars_iff.1 (hchars p hin)
        have hmay := h.kinds hp hc
        rw [hset] at hmay
        cases hmay

theorem WellFormed.safe_start {marker : Nat} (hmarker : t.Reachable marker) {isAtStart : Bool}
    (horigin : t.origin? marker = some isAtStart) :
    ({ node := marker, isLeaving := true } : Path).Safe t := by
  refine ⟨?_, nofun⟩
  have hkind : (∃ set, (t.node marker).kind = .chars set none) ∨
      ∃ anchored lead, (t.node marker).kind = .marker anchored lead := by
    unfold origin? at horigin
    split at horigin
    · next hkind => exact .inl ⟨_, hkind⟩
    · next hkind => exact .inr ⟨_, _, hkind⟩
    · cases horigin
  have houter : t.Outer marker := by
    rcases h.outer_or hmarker with houter | ⟨l, g, s, hl, hlkind, hg, hs, hbody, rfl | rfl | hin⟩
    · exact houter
    · have hgroup := h.group_of_holding hl hlkind (hg ▸ Array.mem_singleton_self marker)
      rcases hkind with ⟨set, hkind⟩ | ⟨anchored, lead, hkind⟩ <;>
        (rw [hkind] at hgroup; cases hgroup)
    · have hgl : g ∈ (t.node l).children := hg ▸ Array.mem_singleton_self g
      have hsequence := h.sequence_of_holding (hl.tail hgl) (h.group_of_holding hl hlkind hgl)
        (hs ▸ Array.mem_singleton_self marker)
      rcases hkind with ⟨set, hkind⟩ | ⟨anchored, lead, hkind⟩ <;> cases hkind.symm.trans hsequence
    · have hclaim := h.lookBehindOf_iff.2 ⟨hl, hlkind, hin⟩
      unfold lookBehindOf at hclaim
      rcases hkind with ⟨set, hkind⟩ | ⟨anchored, lead, hkind⟩ <;>
        (rw [hkind] at hclaim; cases hclaim)
  rcases hkind with ⟨set, hkind⟩ | ⟨anchored, lead, hkind⟩
  · exact h.stands_of_term houter hkind ⟨rfl, nofun, nofun⟩
  · exact h.stands_of_term houter hkind ⟨rfl, nofun, nofun⟩

theorem WellFormed.fromMarker?_eq {w : Walk} (hw : w.Lands t) {marker : Nat}
    (hmarker : t.Reachable marker) {isAtStart : Bool}
    (horigin : t.origin? marker = some isAtStart) :
    w.fromMarker? { tree := t, held, mustAdvance, isAtStart } marker =
        some (w.fromMarker { tree := t, held, mustAdvance, isAtStart } marker) ∧
      (w.fromMarker { tree := t, held, mustAdvance, isAtStart } marker).Lands t := by
  refine Walk.run?_eq h (fun x hx ↦ ?_) hw
  rw [List.mem_singleton.1 hx]
  exact h.safe_start hmarker horigin

theorem WellFormed.walk?_eq (hheld : ∀ x ∈ held.members, t.isMarker x = true)
    (mustAdvance : Bool) :
    t.walk? held mustAdvance = some (t.walk held mustAdvance) ∧
      (t.walk held mustAdvance).Lands t := by
  refine foldlM_eq (P := fun w : Walk ↦ w.Lands t) (fun w hw marker hmem ↦ ?_)
    fun d hd ↦ absurd hd (Array.not_mem_empty d)
  have hmarker := h.reachable_iff.2 (hheld marker (IndexSet.mem_toList.1 hmem))
  rw [h.node?_eq hmarker]
  cases horigin : t.origin? marker with
  | none => exact ⟨rfl, hw⟩
  | some isAtStart => exact h.fromMarker?_eq hw hmarker horigin

theorem WellFormed.track?_eq {found : Array Successor} (hfound : ∀ d ∈ found, d.target < t.size) :
    t.track? held found = some (t.track held found) := by
  have hnodes : found.toList.mapM (fun d ↦ t.node? d.target) =
      some (found.toList.map fun d ↦ t.node d.target) :=
    mapM_eq fun d hd ↦ node?_of_lt (hfound d (Array.mem_toList_iff.1 hd))
  unfold track? track
  rw [hnodes]
  dsimp only [Option.bind_eq_bind, Option.bind_some]
  split
  · rfl
  · rw [← Array.foldl_toList]
    refine (foldlM_eq (P := fun _ ↦ True) (fun found _ l hl ↦ ⟨?_, trivial⟩) trivial).1
    obtain ⟨hkind, hreach⟩ := h.mem_lookBehinds.1 (Array.mem_toList_iff.1 hl)
    obtain ⟨length, hlength⟩ := NodeKind.isLookBehind_iff.1 hkind
    rw [bodyProgress?, h.body?_eq hreach hlength]
    rfl

/-- No check of a step fails in a well-formed tree. -/
theorem WellFormed.step?_eq (hheld : ∀ x ∈ held.members, t.isMarker x = true) :
    t.step? held mustAdvance = some (t.step held mustAdvance) := by
  obtain ⟨hwalk, hlands⟩ := h.walk?_eq hheld mustAdvance
  rw [step?, hwalk]
  exact h.track?_eq hlands

omit h in
/-- **Patterns give well-formed trees, and steps stay inside them.** From whatever markers of the
tree of a pattern, a step with all checks is the step: every path leaves nodes for a sequence or a
group, and all nodes, slots and bodies that are looked at are there. -/
theorem wellFormed_and_step_checked {o : Options} {pattern : Bytes} {t : Tree}
    (ht : ofPattern o pattern = .ok t) : t.WellFormed ∧
      ∀ (held : MarkerSet) (mustAdvance : Bool), (∀ x ∈ held.members, t.isMarker x = true) →
        t.step? held mustAdvance = some (t.step held mustAdvance) :=
  ⟨wellFormed_of_ofPattern ht, fun _ _ hheld ↦ (wellFormed_of_ofPattern ht).step?_eq hheld⟩

omit h in
/-- Loops around a loop with a capture, behind an assertion and a term that is left out. -/
theorem wellFormed_and_step_checked_nested :
    ∃ t, ofPattern {} (.ofString "(?<=ab)x{0}(?:(c+)*|d{2,3})$") = .ok t ∧ t.WellFormed ∧
      t.step? (t.markers [5, 12, 20]) false = some (t.step (t.markers [5, 12, 20]) false) := by
  obtain ⟨t, ht, hmarkers⟩ := exists_ofPattern (fun t ↦ [5, 12, 20].all t.isMarker)
    (show (ofPattern {} (.ofString "(?<=ab)x{0}(?:(c+)*|d{2,3})$")).toOption.any _ = true by
      decide +kernel)
  obtain ⟨hwell, hstep⟩ := wellFormed_and_step_checked ht
  refine ⟨t, ht, hwell, hstep _ _ fun x hx ↦ ?_⟩
  rw [List.all_eq_true] at hmarkers
  exact hmarkers x (IndexSet.mem_ofList.1 hx)

end Tree

end PatternAutomata
