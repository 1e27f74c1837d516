import PatternAutomata.Proofs.Step.Slots
import PatternAutomata.Proofs.Tree.Nested

/-!
# What happens to slots on the way

The slots that a step sets and clears are a summary. What they sum up is what happens along a path
to slots that hold positions, one event after another: the start or the end of a capture group is
noted, or a loop forgets what an iteration has captured. In whatever order these come, and however
often the same slot is concerned, the summary does to slots what all the events have done.
-/

namespace PatternAutomata

/-- What happens to slots at a move of a path. -/
inductive SlotEvent
  /-- The start of a capture group is noted. -/
  | start (capture : Nat)
  /-- The end of a capture group is noted. -/
  | stop (capture : Nat)
  /-- An iteration of a loop starts, and what captures have noted is forgotten. -/
  | forget (captures : IndexSet)

namespace SlotEvent

variable {α : Type}

/-- The slots after an event at a position. -/
def apply (position : α) (slots : Array (Option α)) : SlotEvent → Array (Option α)
  | start c => slots.setIfInBounds (Boundaries.startSlot c) (some position)
  | stop c => slots.setIfInBounds (Boundaries.endSlot c) (some position)
  | forget captures => captures.toList.foldl (fun slots c ↦
      (slots.setIfInBounds (Boundaries.startSlot c) none).setIfInBounds
        (Boundaries.endSlot c) none) slots

/-- The group that is left, unless it is the whole pattern. -/
def left? : SlotEvent → Option Nat
  | stop c => if 0 < c then some c else none
  | _ => none

end SlotEvent

namespace Boundaries

variable {α : Type} {b : Boundaries} {e : SlotEvent}

/-- Does to slots what has been summed up: those set get the position, and those cleared nothing. -/
def apply (b : Boundaries) (position : α) (slots : Array (Option α)) : Array (Option α) :=
  slots.mapIdx fun i old ↦
    if i ∈ b.updates then some position else if i ∈ b.clears then none else old

/-- Sums up one more event. -/
def after (b : Boundaries) : SlotEvent → Boundaries
  | .start c => b.update (startSlot c)
  | .stop c => b.update (endSlot c)
  | .forget captures => b.clear (.ofList (captures.toList.flatMap fun c ↦ [startSlot c, endSlot c]))

theorem apply_empty (position : α) (slots : Array (Option α)) :
    ({} : Boundaries).apply position slots = slots := by
  refine Array.ext_getElem? fun i ↦ ?_
  rw [apply, Array.getElem?_mapIdx]
  simp

theorem apply_update (b : Boundaries) (slot : Nat) (position : α) (slots : Array (Option α)) :
    (b.update slot).apply position slots =
      (b.apply position slots).setIfInBounds slot (some position) := by
  refine Array.ext_getElem? fun i ↦ ?_
  simp only [apply, Array.getElem?_setIfInBounds, Array.getElem?_mapIdx, Array.size_mapIdx,
    mem_updates_update, mem_clears_update]
  by_cases hi : slot = i
  · subst hi
    by_cases hlt : slot < slots.size <;> simp [hlt]
  · simp [hi, Ne.symm hi]

theorem getElem?_foldl_forget (captures : List Nat) (slots : Array (Option α)) (i : Nat) :
    (captures.foldl (fun slots c ↦ (slots.setIfInBounds (startSlot c) none).setIfInBounds
        (endSlot c) none) slots)[i]? =
      slots[i]?.map fun old ↦
        if i ∈ captures.flatMap fun c ↦ [startSlot c, endSlot c] then none else old := by
  induction captures generalizing slots with
  | nil => simp
  | cons c captures ih =>
    rw [List.foldl_cons, ih, List.flatMap_cons]
    simp only [List.mem_append, List.mem_cons, List.not_mem_nil, or_false]
    cases hslots : slots[i]? with
    | none =>
      have hle := Array.getElem?_eq_none_iff.1 hslots
      rw [Array.getElem?_eq_none (by simpa using hle)]
      rfl
    | some old =>
      have hlt := (Array.getElem?_eq_some_iff.1 hslots).1
      grind

theorem apply_clear (b : Boundaries) (captures : List Nat) (position : α)
    (slots : Array (Option α)) :
    (b.clear (.ofList (captures.flatMap fun c ↦ [startSlot c, endSlot c]))).apply position slots =
      captures.foldl (fun slots c ↦ (slots.setIfInBounds (startSlot c) none).setIfInBounds
        (endSlot c) none) (b.apply position slots) := by
  refine Array.ext_getElem? fun i ↦ ?_
  rw [getElem?_foldl_forget, apply, apply, Array.getElem?_mapIdx, Array.getElem?_mapIdx]
  simp only [Option.map_map, mem_updates_clear, mem_clears_clear, IndexSet.mem_ofList]
  refine congrArg (Option.map · slots[i]?) (funext fun old ↦ ?_)
  dsimp only [Function.comp]
  grind

/-- **Summing up an event** is to let it happen to what has been done so far. -/
theorem apply_after (b : Boundaries) (e : SlotEvent) (position : α) (slots : Array (Option α)) :
    (b.after e).apply position slots = e.apply position (b.apply position slots) := by
  cases e with
  | start c => exact apply_update b _ position slots
  | stop c => exact apply_update b _ position slots
  | forget captures => exact apply_clear b _ position slots

theorem Consistent.after (h : b.Consistent) : (b.after e).Consistent := by
  cases e with
  | start c => exact h.update
  | stop c => exact h.update
  | forget captures => exact h.clear

end Boundaries

/-! ## Events on a way -/

/-- What happens to the slots at a move from `u` to `v`: at the front of a group it starts, and an
iteration does if it is a loop; at its end it stops. -/
def Tree.events (t : Tree) : Spot × Spot → List SlotEvent
  | (u, v) =>
    if u.isLeaving then
      match v.isLeaving, (t.node v.node).kind with
      | true, .group g => (g.capture.map .stop).toList
      | _, _ => []
    else
      match (t.node u.node).kind with
      | .group g => (g.capture.map .start).toList ++
          if g.loop.isSome && !(t.node v.node).isEmpty then [.forget g.nested] else []
      | _ => []

namespace Tree

variable {t : Tree} {move : Spot × Spot}

/-- A move goes on from the front of a capture group. -/
def StartsCapture (t : Tree) (move : Spot × Spot) (c : Nat) : Prop :=
  move.1.isLeaving = false ∧ t.arena.HasCapture move.1.node c

/-- A move leads to the end of a capture group. -/
def EndsCapture (t : Tree) (move : Spot × Spot) (c : Nat) : Prop :=
  move.1.isLeaving = true ∧ move.2.isLeaving = true ∧ t.arena.HasCapture move.2.node c

/-- A move goes on from the front of a loop into an iteration. -/
structure StartsIteration (t : Tree) (move : Spot × Spot) (loop : Nat) : Prop where
  isLeaving : move.1.isLeaving = false
  node : move.1.node = loop
  loops : ∃ g, (t.node loop).kind = .group g ∧ g.loop.isSome = true
  nonempty : (t.node move.2.node).isEmpty = false

theorem mem_events {e : SlotEvent} : e ∈ t.events move ↔
    (∃ c, t.StartsCapture move c ∧ e = .start c) ∨ (∃ c, t.EndsCapture move c ∧ e = .stop c) ∨
      ∃ loop g, t.StartsIteration move loop ∧ (t.node loop).kind = .group g ∧
        e = .forget g.nested := by
  obtain ⟨u, v⟩ := move
  constructor
  · intro he
    unfold events at he
    dsimp only at he
    split at he
    · next hu =>
      split at he
      · next g hv hkind =>
        obtain ⟨c, hc, rfl⟩ := Option.map_eq_some_iff.1 (Option.mem_toList.1 he)
        exact .inr (.inl ⟨c, ⟨hu, hv, g, hkind, hc⟩, rfl⟩)
      · cases he
    · next hu =>
      have hu := Bool.eq_false_iff.2 hu
      split at he
      · next g hkind =>
        rcases List.mem_append.1 he with he | he
        · obtain ⟨c, hc, rfl⟩ := Option.map_eq_some_iff.1 (Option.mem_toList.1 he)
          exact .inl ⟨c, ⟨hu, g, hkind, hc⟩, rfl⟩
        · split at he
          · next hloop =>
            rw [Bool.and_eq_true, Bool.not_eq_true'] at hloop
            exact .inr (.inr ⟨_, g, ⟨hu, rfl, ⟨g, hkind, hloop.1⟩, hloop.2⟩, hkind,
              List.mem_singleton.1 he⟩)
          · cases he
      · cases he
  · rintro (⟨c, ⟨hu, g, hkind, hc⟩, rfl⟩ | ⟨c, ⟨hu, hv, g, hkind, hc⟩, rfl⟩ |
      ⟨loop, g, ⟨hu, rfl, ⟨g', hkind', hloop⟩, hne⟩, hkind, rfl⟩)
    · have hkind : (t.node u.node).kind = .group g := hkind
      have hu : u.isLeaving = false := hu
      simp [events, hu, hkind, hc]
    · have hkind : (t.node v.node).kind = .group g := hkind
      have hu : u.isLeaving = true := hu
      have hv : v.isLeaving = true := hv
      simp [events, hu, hv, hkind, hc]
    · cases hkind.symm.trans hkind'
      have hu : u.isLeaving = false := hu
      have hkind : (t.node u.node).kind = .group g := hkind
      have hne : (t.node v.node).isEmpty = false := hne
      simp [events, hu, hkind, hloop, hne]

theorem Settles.after {b : Boundaries} {e : SlotEvent} (h : t.Settles b) (he : e ∈ t.events move) :
    t.Settles (b.after e) := by
  refine ⟨h.consistent.after, fun {slot} hclear ↦ ?_⟩
  rcases mem_events.1 he with ⟨c, -, rfl⟩ | ⟨c, -, rfl⟩ | ⟨loop, g, ⟨-, -, hloop, -⟩, hkind, rfl⟩
  · exact h.nested (Boundaries.mem_clears_update.1 hclear).1
  · exact h.nested (Boundaries.mem_clears_update.1 hclear).1
  · rcases Boundaries.mem_clears_clear.1 hclear with hclear | hclear
    · exact h.nested hclear
    · obtain ⟨g', hkind', hloop⟩ := hloop
      cases hkind.symm.trans hkind'
      rw [IndexSet.mem_ofList, List.mem_flatMap] at hclear
      exact ⟨loop, g, hkind, hloop, by simpa using hclear⟩

end Tree

namespace Path

variable {s : Stance} {t : Tree} {p q r : Path} {moves : List (Spot × Spot)}

theorem carries_startAlternative (g : Group) (c : Nat) :
    let events := (g.capture.map .start).toList ++
      if g.loop.isSome && !(t.node c).isEmpty then [SlotEvent.forget g.nested] else []
    ((p.startGroup g).startAlternative t g c).boundaries =
        events.foldl Boundaries.after p.boundaries ∧
      ((p.startGroup g).startAlternative t g c).lastGroup = p.lastGroup ∧
      events.filterMap SlotEvent.left? = [] := by
  dsimp only
  unfold startAlternative startGroup
  cases g.capture <;> dsimp only [inFrontOf] <;> split <;> exact ⟨rfl, rfl, rfl⟩

theorem carries_of_mem_enter (hkind : (s.tree.node p.node).kind.isGroup = false)
    (h : q ∈ p.enter s) : q.boundaries = p.boundaries ∧ q.lastGroup = p.lastGroup := by
  unfold enter at h
  dsimp only at h
  split at h
  · cases h
  · cases h
  · split at h <;> (rw [List.mem_singleton] at h; subst h; exact ⟨rfl, rfl⟩)
  · next hgroup =>
    rw [hgroup] at hkind
    cases hkind
  · split at h
    · rw [List.mem_singleton] at h; subst h; exact ⟨rfl, rfl⟩
    · cases h
  · rw [List.mem_singleton] at h; subst h; exact ⟨rfl, rfl⟩
  · split at h
    · rw [List.mem_singleton] at h; subst h; exact ⟨rfl, rfl⟩
    · cases h
  · rw [List.mem_singleton] at h; subst h; exact ⟨rfl, rfl⟩

theorem carries_of_mem_next (h : q ∈ p.next s) :
    q.boundaries = (s.tree.events (p.spot, q.spot)).foldl Boundaries.after p.boundaries ∧
      q.lastGroup = ((s.tree.events (p.spot, q.spot)).filterMap SlotEvent.left?).getLast?.or
        p.lastGroup := by
  unfold next at h
  split at h
  · next hp =>
    obtain ⟨parent, -, h⟩ := Option.bind_eq_some_iff.1 (Option.mem_toList.1 h)
    have hspot : p.spot.isLeaving = true := hp
    rw [Tree.events, if_pos hspot]
    unfold leaveFor at h
    dsimp only at h
    split at h
    · next hkind =>
      split at h
      · cases h
        exact ⟨rfl, rfl⟩
      · cases h
        simp [spot, hp, hkind]
    · next g hkind =>
      split at h
      · split at h
        · cases h
        · cases h
          exact ⟨rfl, rfl⟩
      · -- the group is left
        cases h
        cases hcapture : g.capture with
        | none => simp [spot, endGroup, hcapture, hp, hkind]
        | some c =>
          by_cases hc : 0 < c <;>
            simp [spot, endGroup, hcapture, hp, hkind, hc, Boundaries.after, SlotEvent.left?]
    · cases h
  · next hp =>
    have hspot : ¬p.spot.isLeaving = true := hp
    rw [Tree.events, if_neg hspot]
    have hnode : p.spot.node = p.node := rfl
    rw [hnode]
    split
    · next g hkind =>
      unfold enter at h
      dsimp only at h
      rw [hkind] at h
      obtain ⟨c, -, rfl⟩ := List.mem_map.1 h
      rw [spot_startAlternative]
      obtain ⟨hboundaries, hlast, hleft⟩ := carries_startAlternative (p := p) (t := s.tree) g c
      exact ⟨hboundaries, by rw [hleft]; exact hlast⟩
    · next hkind =>
      refine carries_of_mem_enter ?_ h
      rw [Bool.eq_false_iff, ne_eq, NodeKind.isGroup_iff]
      rintro ⟨g, hg⟩
      exact hkind g hg

/-- A path goes on to another by a list of moves. -/
inductive Travels (s : Stance) (p : Path) : List (Spot × Spot) → Path → Prop
  | stay : Travels s p [] p
  | go {moves : List (Spot × Spot)} {q r : Path} : Travels s p moves q → r ∈ q.next s →
      Travels s p (moves ++ [(q.spot, r.spot)]) r

theorem continues_iff_exists_travels : Continues s p q ↔ ∃ moves, Travels s p moves q := by
  constructor
  · intro h
    induction h with
    | refl => exact ⟨[], .stay⟩
    | tail _ hr ih =>
      obtain ⟨moves, hq⟩ := ih
      exact ⟨_, hq.go hr⟩
  · rintro ⟨moves, h⟩
    induction h with
    | stay => exact .refl
    | go _ hr ih => exact ih.tail hr

/-- A path carries the sum of all that has happened on the way. -/
theorem Travels.carries (h : Travels s p moves q) :
    q.boundaries = (moves.flatMap s.tree.events).foldl Boundaries.after p.boundaries ∧
      q.lastGroup = ((moves.flatMap s.tree.events).filterMap SlotEvent.left?).getLast?.or
        p.lastGroup := by
  induction h with
  | stay => exact ⟨rfl, rfl⟩
  | go _ hr ih =>
    obtain ⟨hboundaries, hlast⟩ := carries_of_mem_next hr
    rw [hboundaries, hlast, ih.1, ih.2, List.flatMap_append, List.flatMap_singleton,
      List.foldl_append, List.filterMap_append, List.getLast?_append, Option.or_assoc]
    exact ⟨rfl, rfl⟩

end Path

namespace Boundaries

variable {α : Type}

/-- **The sum of events** does to slots what the events do one after another. -/
theorem apply_foldl_after (events : List SlotEvent) (b : Boundaries) (position : α)
    (slots : Array (Option α)) : (events.foldl after b).apply position slots =
      events.foldl (fun slots e ↦ e.apply position slots) (b.apply position slots) := by
  induction events generalizing b with
  | nil => rfl
  | cons e events ih => rw [List.foldl_cons, List.foldl_cons, ih, apply_after]

end Boundaries

/-! ## Which slots are concerned -/

/-- The captures of an event are below a number. -/
def SlotEvent.CapturesBelow (n : Nat) : SlotEvent → Prop
  | start c | stop c => c < n
  | forget captures => ∀ c ∈ captures, c < n

theorem Tree.capturesBelow_of_mem_events {t : Tree} {n : Nat} (h : t.arena.CapturesBelow n)
    {move : Spot × Spot} {e : SlotEvent} (he : e ∈ t.events move) : e.CapturesBelow n := by
  rcases mem_events.1 he with ⟨c, ⟨-, g, hkind, hc⟩, rfl⟩ | ⟨c, ⟨-, -, g, hkind, hc⟩, rfl⟩ |
    ⟨loop, g, -, hkind, rfl⟩
  · exact (h hkind).1 c hc
  · exact (h hkind).1 c hc
  · exact (h hkind).2

/-- The slots set and cleared are below a number. -/
def Boundaries.SlotsBelow (b : Boundaries) (n : Nat) : Prop :=
  ∀ slot, slot ∈ b.updates ∨ slot ∈ b.clears → slot < n

theorem Boundaries.SlotsBelow.after {b : Boundaries} {n : Nat} {e : SlotEvent}
    (h : b.SlotsBelow (2 * n)) (he : e.CapturesBelow n) : (b.after e).SlotsBelow (2 * n) := by
  have hupdate : ∀ {slot : Nat}, slot < 2 * n → (b.update slot).SlotsBelow (2 * n) := by
    intro slot hslot i hi
    rw [mem_updates_update, mem_clears_update] at hi
    rcases hi with (hi | rfl) | hi
    · exact h i (.inl hi)
    · exact hslot
    · exact h i (.inr hi.1)
  cases e with
  | start c =>
    have hc : c < n := he
    exact hupdate (by rw [startSlot]; omega)
  | stop c =>
    have hc : c < n := he
    exact hupdate (by rw [endSlot]; omega)
  | forget captures =>
    intro i hi
    rw [Boundaries.after, mem_updates_clear, mem_clears_clear, IndexSet.mem_ofList] at hi
    rcases hi with hi | hi | hi
    · exact h i (.inl hi.1)
    · exact h i (.inr hi)
    · obtain ⟨c, hc, hi⟩ := List.mem_flatMap.1 hi
      have hlt : c < n := he c hc
      simp only [List.mem_cons, List.not_mem_nil, or_false, startSlot, endSlot] at hi
      omega

/-! ## Successors -/

namespace Tree

variable {t : Tree} {held : MarkerSet} {mustAdvance : Bool} {d : Successor}
  {moves : List (Spot × Spot)}

/-- A way from a marker held, by a list of moves, brings a successor. -/
def Brings (t : Tree) (held : MarkerSet) (mustAdvance : Bool) (moves : List (Spot × Spot))
    (d : Successor) : Prop :=
  ∃ marker isAtStart, t.Starts held marker isAtStart ∧
    ∃ q, Path.Travels (t.stance held mustAdvance isAtStart) (pathFrom marker) moves q ∧
      q.delivery? (t.stance held mustAdvance isAtStart) = some d

/-- What a successor says about slots is the sum of events. -/
structure SumsUp (t : Tree) (events : List SlotEvent) (d : Successor) : Prop where
  /-- To set the slots set and clear those cleared is to let the events happen one after another,
  whatever the slots hold. -/
  apply : ∀ (position : Nat) (slots : Array (Option Nat)),
    events.foldl (fun slots e ↦ e.apply position slots) slots = d.boundaries.apply position slots
  /-- No slot is both set and cleared. -/
  consistent : d.boundaries.Consistent
  /-- The last group is the one that is left last, other than the whole pattern. -/
  lastGroup : d.lastGroup = (events.filterMap SlotEvent.left?).getLast?
  /-- Slots are those of capture groups. -/
  below : t.arena.CapturesBelow t.captureGroups → d.boundaries.SlotsBelow (2 * t.captureGroups)

theorem Regular.exists_brings {ok : CodePointSet → Prop} (h : t.Regular ok)
    (hd : d ∈ (t.walk held mustAdvance).found) :
    ∃ moves, t.Brings held mustAdvance moves d := by
  rw [found_walk h.forest h.fits] at hd
  have hway := (Successor.mem_of_mem_foldl_addFirst hd).resolve_left (Array.not_mem_empty _)
  obtain ⟨marker, isAtStart, hstarts, q, hq, hdelivery⟩ := h.mem_ways.1 hway
  obtain ⟨moves, hq⟩ := Path.continues_iff_exists_travels.1 hq
  exact ⟨moves, marker, isAtStart, hstarts, q, hq, hdelivery⟩

theorem Brings.carries (h : t.Brings held mustAdvance moves d) :
    d.boundaries = (moves.flatMap t.events).foldl Boundaries.after {} ∧
      d.lastGroup = ((moves.flatMap t.events).filterMap SlotEvent.left?).getLast? := by
  obtain ⟨marker, isAtStart, -, q, hq, hdelivery⟩ := h
  obtain ⟨target, -, rfl⟩ := Option.map_eq_some_iff.1 hdelivery
  exact ⟨hq.carries.1, hq.carries.2.trans Option.or_none⟩

theorem Brings.settles (h : t.Brings held mustAdvance moves d) : t.Settles d.boundaries := by
  rw [h.carries.1]
  refine List.foldlRecOn (motive := t.Settles) _ _ t.settles_empty fun b hb e he ↦ ?_
  obtain ⟨move, -, he⟩ := List.mem_flatMap.1 he
  exact hb.after he

/-- **What a successor does to the slots.** -/
theorem Regular.settles_of_mem_step {ok : CodePointSet → Prop} (h : t.Regular ok)
    (hd : d ∈ t.step held mustAdvance) : t.Settles d.boundaries := by
  rcases h.mem_step_iff.1 hd with hd | ⟨-, x, -, rfl⟩
  · rw [← found_walk h.forest h.fits] at hd
    obtain ⟨moves, hmoves⟩ := h.exists_brings hd
    exact hmoves.settles
  · exact t.settles_empty

theorem Brings.sumsUp (h : t.Brings held mustAdvance moves d) :
    t.SumsUp (moves.flatMap t.events) d := by
  obtain ⟨hboundaries, hlast⟩ := h.carries
  constructor
  case apply =>
    intro position slots
    rw [hboundaries, Boundaries.apply_foldl_after, Boundaries.apply_empty]
  case consistent => exact h.settles.consistent
  case lastGroup => exact hlast
  case below =>
    intro hcaptures
    rw [hboundaries]
    refine List.foldlRecOn (motive := (Boundaries.SlotsBelow · _)) _ _ ?_ fun b hb e he ↦ ?_
    · rintro slot (hslot | hslot) <;> exact absurd hslot (IndexSet.not_mem_empty slot)
    · obtain ⟨move, -, he⟩ := List.mem_flatMap.1 he
      exact hb.after (capturesBelow_of_mem_events hcaptures he)

/-- **What a successor says about slots sums up what happens on its way**, in a walk from whatever
markers of a finished tree. -/
theorem Finished.sumsUp_of_mem_walk (h : t.Finished) (hd : d ∈ (t.walk held mustAdvance).found) :
    (∃ moves, t.Brings held mustAdvance moves d) ∧
      ∀ moves, t.Brings held mustAdvance moves d → t.SumsUp (moves.flatMap t.events) d :=
  ⟨h.regular.exists_brings hd, fun _ ↦ Brings.sumsUp⟩

theorem exists_found {o : Options} {pattern : Bytes} (p : Tree → Bool) (markers : IndexSet)
    (mustAdvance : Bool) (found : Successor → Bool)
    (h : (ofPattern o pattern).toOption.any (fun t ↦
      p t && (t.firstWays ⟨t.size, markers⟩ mustAdvance).any found) = true) :
    ∃ t, ofPattern o pattern = .ok t ∧ p t = true ∧
      ∃ d ∈ (t.walk ⟨t.size, markers⟩ mustAdvance).found, found d = true := by
  obtain ⟨t, ht, hp⟩ := exists_ofPattern _ h
  rw [Bool.and_eq_true] at hp
  have hregular := (Finished.ofPattern ht).regular
  obtain ⟨d, hd, hfound⟩ := Array.any_eq_true'.1 hp.2
  rw [← found_walk hregular.forest hregular.fits] at hd
  exact ⟨t, ht, hp.1, d, hd, hfound⟩

/-- From an iteration that captures to one that does not: the end of the capture group is noted, and
forgotten as the loop is started again, but the group is still the one that was left last. -/
theorem sumsUp_next_iteration :
    ∃ t, ofPattern {} (.ofString "(?:(a*)|b)*") = .ok t ∧
      ∃ d ∈ (t.walk ⟨t.size, .single 6⟩ false).found, d.target = 11 ∧ d.lastGroup = some 1 ∧
        (∃ moves, t.Brings ⟨t.size, .single 6⟩ false moves d) ∧
        ∀ moves, t.Brings ⟨t.size, .single 6⟩ false moves d →
          t.SumsUp (moves.flatMap t.events) d := by
  obtain ⟨t, ht, -, d, hd, hwitness⟩ := exists_found (fun _ ↦ true) (.single 6) false
    (fun d ↦ d.target == 11 && d.lastGroup == some 1)
    (show (ofPattern {} (.ofString "(?:(a*)|b)*")).toOption.any _ = true by decide +kernel)
  rw [Bool.and_eq_true, beq_iff_eq, beq_iff_eq] at hwitness
  exact ⟨t, ht, d, hd, hwitness.1, hwitness.2, Finished.sumsUp_of_mem_walk (.ofPattern ht) hd⟩

end Tree

end PatternAutomata
