import Mathlib.Algebra.GroupWithZero.Nat
import PatternAutomata.Proofs.Pattern.Reading
import PatternAutomata.Proofs.Tree.Sources
import PatternAutomata.Proofs.Tree.Watched

/-!
# How large a tree may get

Only counted quantifiers are held to the bound on the tree. Everything else that is read adds a few
nodes whatever the bound says, at most three for each byte of the pattern. The end of a look-behind
assertion adds a node too, which is put down to its start.
-/

namespace PatternAutomata

/-! ## What is read -/

namespace Event

/-- The nodes that an event may add whatever the bound is. -/
def cost : Event → Nat
  | atom _ q => 1 + q.cost
  | openGroup kind => 2 + if kind = .lookBehind then 1 else 0
  | bar => 1
  | closeGroup _ q => q.cost
  | failure _ => 0

/-- The quantifier of an event, if it has one, is ordered. -/
def Ordered : Event → Prop
  | atom _ q | closeGroup _ q => q.Ordered
  | openGroup _ | bar | failure _ => True

/-- The event has a counted quantifier that has something to place. -/
def IsUnrolled : Event → Prop
  | atom _ q | closeGroup _ q => q.IsUnrolled
  | openGroup _ | bar | failure _ => False

end Event

namespace Grammar

variable {s rest : Bytes} {q : Quantifier} {make : Bool → Quantifier}

theorem Sign.length_lt {c : CodePoint} (h : Sign c s rest) : rest.length < s.length := by
  obtain ⟨b, t, rfl, -, hdecode⟩ := h
  have hsuffix := Utf8.decode_suffix b t
  rw [hdecode] at hsuffix
  exact Nat.lt_succ_of_le hsuffix.length_le

theorem Counts.ordered {least : Nat} {greatest : Option Nat} (h : Counts s least greatest rest) :
    ∀ n ∈ greatest, least ≤ n := by
  cases h with
  | exactly => exact fun _ hn ↦ Nat.le_of_eq (Option.some.inj hn)
  | atLeast => exact fun _ hn ↦ by cases hn
  | between _ _ hle => exact fun _ hn ↦ Option.some.inj hn ▸ hle

theorem QuantifierSign.spec (h : QuantifierSign s make rest) (isLazy : Bool) :
    (make isLazy).Ordered ∧ (make isLazy).cost + 3 * rest.length ≤ 3 * s.length := by
  cases h with
  | star hsign | plus hsign | optional hsign =>
    have := hsign.length_lt
    exact ⟨trivial, by simp only [Quantifier.cost]; omega⟩
  | counted hsign hcounts =>
    have hlt := hsign.length_lt
    have hle := (Quantifier.readCounts_suffix (readCounts_iff.2 hcounts)).length_le
    exact ⟨hcounts.ordered, by simp only [Quantifier.cost]; omega⟩

theorem Quantified.spec (h : Quantified s q rest) :
    q.Ordered ∧ q.cost + 3 * rest.length ≤ 3 * s.length := by
  cases h with
  | once => exact ⟨trivial, Nat.le_of_eq (Nat.zero_add _)⟩
  | greedy hsign => exact hsign.spec false
  | reluctant hsign hlazy =>
    have := hlazy.length_lt
    obtain ⟨hordered, hcost⟩ := hsign.spec true
    exact ⟨hordered, by omega⟩

end Grammar

namespace Event

variable {s rest : Bytes} {e : Event} {events : List Event}

/-- No quantifier asks for more uses than it allows, and there are three nodes for each byte of the
text to be had. -/
structure Affordable (s : Bytes) (events : List Event) : Prop where
  ordered : ∀ e ∈ events, e.Ordered
  cost_le : (events.map cost).sum ≤ 3 * s.length

theorem Affordable.cons (h : Affordable rest events) (he : e.Ordered)
    (hcost : e.cost + 3 * rest.length ≤ 3 * s.length) : Affordable s (e :: events) where
  ordered := List.forall_mem_cons.2 ⟨he, h.ordered⟩
  cost_le := by
    have := h.cost_le
    rw [List.map_cons, List.sum_cons]
    omega

theorem affordable_failure (s : Bytes) (e : ReadError) : Affordable s [failure e] where
  ordered := List.forall_mem_singleton.2 trivial
  cost_le := Nat.zero_le _

/-- **Three nodes a byte** are enough for the events of a text. -/
theorem affordable_read (s : Bytes) : Affordable s (Event.read s) := by
  fun_induction Event.read s with
  | case1 s e hpart => exact affordable_failure s e
  | case2 s hpart => exact ⟨List.forall_mem_nil _, Nat.zero_le _⟩
  | case3 s kind rest hpart ih =>
    have hlt := (Part.read_suffix hpart).2
    refine ih.cons trivial ?_
    rw [cost]
    split <;> omega
  | case4 s rest hpart ih =>
    have hlt := (Part.read_suffix hpart).2
    refine ih.cons trivial ?_
    rw [cost]
    omega
  | case5 s a rest hpart e hquantifier =>
    have hlt := (Part.read_suffix hpart).2
    refine (affordable_failure rest e).cons trivial ?_
    rw [cost, Quantifier.cost]
    omega
  | case6 s a rest hpart q rest' hquantifier ih =>
    have hlt := (Part.read_suffix hpart).2
    obtain ⟨hordered, hcost⟩ := (Grammar.quantified_of_read hquantifier).spec
    refine ih.cons hordered ?_
    rw [cost]
    omega
  | case7 s rest hpart e hquantifier =>
    have hlt := (Part.read_suffix hpart).2
    refine (affordable_failure rest e).cons trivial ?_
    rw [cost, Quantifier.cost]
    omega
  | case8 s rest hpart q rest' hquantifier ih =>
    have hlt := (Part.read_suffix hpart).2
    obtain ⟨hordered, hcost⟩ := (Grammar.quantified_of_read hquantifier).spec
    refine ih.cons hordered ?_
    rw [cost]
    omega

end Event

/-! ## Events -/

namespace TreeBuilder

variable {ok : CodePointSet → Prop} {b b' : TreeBuilder} {limit atom : Nat} {q : Quantifier}
  {o : Options} {e : Event}

/-- The look-behind assertions that are open. -/
def lookBehinds (groups : List OpenGroup) : Nat := groups.countP (·.kind = .lookBehind)

/-- The nodes that there are or may be, with those of the ends of look-behind assertions. -/
def weight (limit : Nat) (b : TreeBuilder) : Nat := max b.arena.size limit + lookBehinds b.groups

theorem Sound.unrolls (h : b.Sound ok) (hlt : atom < b.arena.size)
    (hloose : (b.arena.node atom).parent = none)
    (hterm : (b.arena.node atom).kind.isTerm = true) (hne : ∀ g ∈ b.groups, g.group ≠ atom) :
    Arena.Unrolls ok atom b.current.group b.current.sequence false b.arena :=
  have hfillable := h.fillable _ List.mem_cons_self
  have hne := hne _ List.mem_cons_self
  ⟨h.shaped, ⟨hlt, hterm, fun _ ↦ hloose⟩, hfillable, hne, hfillable.isOpen.not_below hloose hne⟩

theorem size_endGroup (arena : Arena) (g : OpenGroup) :
    (endGroup arena g).2.size = arena.size + if g.kind = .lookBehind then 1 else 0 := by
  rw [endGroup_eq]
  split
  · exact Arena.size_addLookBehind _
  · rfl

theorem lookBehinds_cons (g : OpenGroup) (groups : List OpenGroup) :
    lookBehinds (g :: groups) = lookBehinds groups + if g.kind = .lookBehind then 1 else 0 := by
  simp [lookBehinds, List.countP_cons]

theorem size_le_weight (b : TreeBuilder) (limit : Nat) : b.arena.size ≤ b.weight limit := by
  rw [weight]
  omega

theorem weight_add (b : TreeBuilder) (limit : Nat) (kind : NodeKind) :
    weight limit { b with arena := b.arena.add kind } ≤ b.weight limit + 1 := by
  simp only [weight, groups, Arena.size_add]
  omega

/-- The end of a look-behind assertion has been put down to its start. -/
theorem weight_ended_le {around : OpenGroup} {outer : List OpenGroup}
    (houter : b.outer = around :: outer) (limit : Nat) :
    (b.ended around outer).weight limit ≤ b.weight limit := by
  simp only [weight, groups, ended, houter, lookBehinds_cons, size_endGroup]
  omega

end TreeBuilder

namespace Watched

open TreeBuilder

variable {ok : CodePointSet → Prop} {b b' : TreeBuilder} {limit atom : Nat} {q : Quantifier}
  {o : Options} {e : Event}

/-- Something that is done in the state `b` comes to `r`. No arena that there is on the way has more
than `n` nodes beyond the weight of `b`, and no more is the weight of the state that is left. -/
def Costs (limit : Nat) (b : TreeBuilder) (n : Nat) (f : Watched (Except ReadError TreeBuilder))
    (r : Except ReadError TreeBuilder) : Prop :=
  ∃ c, Does limit b.arena f r c ∧ c.size ≤ b.weight limit + n ∧
    ∀ b', r = .ok b' → b'.arena = c ∧ b'.weight limit ≤ b.weight limit + n

section Costs

variable {α : Type} {k n : Nat} {r : Except ReadError TreeBuilder}

theorem costs_error (err : ReadError) : Costs limit b n (pure (.error err)) (.error err) :=
  ⟨b.arena, does_pure _, Nat.le_trans (size_le_weight b limit) (Nat.le_add_right _ _), nofun⟩

theorem costs_ok {f : Watched (Except ReadError TreeBuilder)}
    (hf : Does limit b.arena f (.ok b') b'.arena)
    (hweight : b'.weight limit ≤ b.weight limit + n) : Costs limit b n f (.ok b') := by
  refine ⟨b'.arena, hf, Nat.le_trans (size_le_weight b' limit) hweight, fun _ h ↦ ?_⟩
  cases h
  exact ⟨rfl, hweight⟩

theorem Costs.after {f : Watched α} {g : α → Watched (Except ReadError TreeBuilder)} {x : α}
    (hg : Costs limit b' n (g x) r) (hf : Does limit b.arena f x b'.arena)
    (hweight : b'.weight limit ≤ b.weight limit + k) : Costs limit b (k + n) (f >>= g) r := by
  obtain ⟨c, hdoes, hsize, hok⟩ := hg
  refine ⟨c, hf.bind hdoes, by omega, fun b'' hb'' ↦ ?_⟩
  obtain ⟨harena, hle⟩ := hok b'' hb''
  exact ⟨harena, by omega⟩

end Costs

theorem costs_place (limit : Nat)
    (h : Arena.Unrolls ok atom b.current.group b.current.sequence false b.arena)
    (hq : q.Ordered) : Costs limit b q.cost (b.placeM limit atom q) (b.place limit atom q) := by
  obtain ⟨hdoes, hnone⟩ := does_placeAtom (a := b.arena) limit b.current.sequence atom q
  rw [place_eq]
  cases hplace : b.arena.place limit b.current.sequence atom q with
  | none =>
    rw [hplace] at hdoes hnone
    have htry : Does limit b.arena (b.tryPlaceM limit atom q) (.error (.treeExplosion limit))
        b.arena := hdoes.bind (does_pure _)
    have harenas : (b.tryPlaceM limit atom q : Watched _).arenas = [] := by
      rw [tryPlaceM, arenas_bind, hnone rfl, hdoes.outcome_eq]
      rfl
    exact ⟨b.arena, (htry.placing fun _ ↦ ⟨rfl, harenas⟩).bind_pure _,
      Nat.le_trans (size_le_weight b limit) (Nat.le_add_right _ _), nofun⟩
  | some arena =>
    rw [hplace] at hdoes
    have htry : Does limit b.arena (b.tryPlaceM limit atom q) (.ok arena) arena :=
      hdoes.bind (does_pure _)
    have hcall : q.IsUnrolled → arena.size ≤ limit := fun hunrolled ↦ by
      cases q with
      | counted least greatest isLazy => exact Arena.size_placeCounted_le h hq hunrolled hplace
      | _ => exact hunrolled.elim
    have hsize := Arena.size_place_le h hq hplace
    refine costs_ok ((htry.placing hcall).bind_pure _) ?_
    simp only [weight, groups]
    omega

theorem does_openAlternative (arena : Arena) (group : Nat) :
    Does limit arena (openAlternativeM arena group) (openAlternative arena group)
      (openAlternative arena group) :=
  (does_add _).bind (does_link _ _)

theorem does_endGroup (arena : Arena) (g : OpenGroup) :
    Does limit arena (endGroupM arena g) (endGroup arena g) (endGroup arena g).2 := by
  rw [endGroup_eq, endGroupM]
  by_cases hkind : g.kind = .lookBehind
  · rw [if_pos hkind, if_pos hkind]
    exact (does_addLookBehind _).bind_pure (arena.size, ·)
  · rw [if_neg hkind, if_neg hkind]
    exact does_pure _

/-- **The step lemma of reading under watch.** -/
theorem costs_take (h : b.Sound fun _ ↦ True) (he : e.Ordered) :
    Costs o.maxTreeSize b e.cost (b.takeM o e) (b.take o e) := by
  cases e with
  | atom a q =>
    have hplain : (a.kind o.encoding).Plain fun _ ↦ True := by cases a <;> trivial
    obtain ⟨hadd, hne, hloose, hterm⟩ := h.add hplain (by cases a <;> rfl)
    refine Costs.after ?_ (does_add _) (weight_add b _ _)
    exact costs_place _ (hadd.unrolls (by simp) hloose hterm hne) he
  | openGroup kind =>
    rw [take_openGroup]
    refine costs_ok ((does_add _).bind ((does_openAlternative _ _).bind_pure _)) ?_
    simp only [weight, groups, size_openAlternative, Arena.size_add, lookBehinds_cons, Event.cost]
    omega
  | bar =>
    rw [take_bar]
    refine costs_ok ((does_openAlternative _ _).bind_pure _) ?_
    simp only [weight, groups, size_openAlternative, lookBehinds_cons, Event.cost]
    omega
  | closeGroup left q =>
    rw [take_closeGroup, takeM]
    cases houter : b.outer with
    | nil => exact costs_error _
    | cons around outer =>
      cases hfault : b.fault? with
      | some fault => exact costs_error _
      | none =>
        obtain ⟨-, -, hlt, hloose, hterm, -⟩ := endGroup_spec h hfault
        obtain ⟨hended, -, hne⟩ := h.ended houter hfault
        rw [Event.cost, ← Nat.zero_add q.cost]
        refine Costs.after ?_ (does_endGroup _ _) (weight_ended_le houter _)
        exact costs_place _ (hended.unrolls hlt hloose hterm hne) he
  | failure e => exact costs_error e

/-- **The run lemma of reading under watch.** -/
theorem costs_takeAll {events : List Event} (h : b.Sound fun _ ↦ True)
    (hevents : ∀ e ∈ events, e.Ordered) :
    Costs o.maxTreeSize b (events.map Event.cost).sum (takeAllM o events b)
      (events.foldlM (take o) b) := by
  induction events generalizing b with
  | nil => exact costs_ok (does_pure _) (Nat.le_refl _)
  | cons e events ih =>
    obtain ⟨c, hfirst, hsize, hok⟩ := costs_take (o := o) h (hevents e List.mem_cons_self)
    rw [List.foldlM_cons, List.map_cons, List.sum_cons]
    cases htake : b.take o e with
    | error err =>
      rw [htake] at hfirst
      exact ⟨c, hfirst.bind (does_pure _), by omega, nofun⟩
    | ok b₁ =>
      rw [htake] at hfirst
      have hsound := sound_take h (fun a _ _ ↦ by cases a <;> trivial) htake
      obtain ⟨rfl, hweight⟩ := hok b₁ htake
      refine Costs.after ?_ hfirst hweight
      exact ih hsound fun e he ↦ hevents e (List.mem_cons_of_mem _ he)

theorem does_start : Does limit {} startM start start.arena :=
  (does_add _).bind ((does_openAlternative _ _).bind_pure _)

theorem does_finish (limit : Nat) :
    ∃ c, Does limit b.arena (b.finishM o) (b.finish o) c ∧ c.size ≤ b.weight limit := by
  have hle := size_le_weight b limit
  rw [finish_eq, finishM]
  cases houter : b.outer with
  | nil => exact ⟨_, does_pure _, hle⟩
  | cons around outer =>
    cases hfault : b.fault? with
    | some fault => exact ⟨_, does_pure _, hle⟩
    | none =>
      refine ⟨_, (does_endGroup _ _).bind (does_pure _), ?_⟩
      rw [size_endGroup, weight, groups, lookBehinds_cons]
      omega

/-- The tree of the events of a pattern, made under watch. -/
def ofEvents (o : Options) (events : List Event) : Watched (Except ReadError Tree) :=
  Tree.ofEventsM o events

theorem does_ofEvents {events : List Event} (hevents : ∀ e ∈ events, e.Ordered) :
    ∃ c, Does o.maxTreeSize {} (ofEvents o events) (Tree.ofEvents o events) c ∧
      c.size ≤ o.maxTreeSize + (events.map Event.cost).sum + 2 := by
  obtain ⟨c, hrun, hsize, hok⟩ := costs_takeAll (o := o) sound_start hevents
  have hstart : start.weight o.maxTreeSize ≤ o.maxTreeSize + 2 := by
    have harena : start.arena.size = 2 := rfl
    have hnone : lookBehinds start.groups = 0 := rfl
    rw [weight, harena, hnone]
    omega
  rw [Tree.ofEvents_eq]
  cases hfold : events.foldlM (take o) start with
  | error e =>
    rw [hfold] at hrun
    exact ⟨c, does_start.bind (hrun.bind (does_pure _)), by omega⟩
  | ok b =>
    rw [hfold] at hrun
    obtain ⟨rfl, hweight⟩ := hok b hfold
    obtain ⟨c, hfinish, hsize'⟩ := does_finish (o := o) (b := b) o.maxTreeSize
    exact ⟨c, does_start.bind (hrun.bind hfinish), by omega⟩

/-! ## What is noted -/

theorem exists_call_place (hq : q.IsUnrolled) :
    ∃ c ∈ (b.placeM limit atom q : Watched _).calls,
      c.outcome = (b.placeM limit atom q : Watched _).outcome.map (·.arena) := by
  rw [placeM, calls_bind, outcome_bind, placing_of_isUnrolled hq]
  refine ⟨_, List.mem_append_left _ (List.mem_append_right _ (List.mem_singleton_self _)), ?_⟩
  dsimp only [Pure.pure]
  cases (b.tryPlaceM limit atom q : Watched _).outcome <;> rfl

theorem exists_call_take (he : e.IsUnrolled)
    (hfault : ∀ fault left, b.take o e ≠ .error (.located fault left)) :
    ∃ c ∈ (b.takeM o e : Watched _).calls,
      c.outcome = (b.takeM o e : Watched _).outcome.map (·.arena) := by
  cases e with
  | atom a q => exact exists_call_place he
  | closeGroup left q =>
    rw [take_closeGroup] at hfault
    rw [takeM]
    cases houter : b.outer with
    | nil =>
      rw [houter] at hfault
      exact absurd rfl (hfault _ _)
    | cons around outer =>
      rw [houter] at hfault
      cases hb : b.fault? with
      | some fault =>
        rw [hb] at hfault
        exact absurd rfl (hfault _ _)
      | none =>
        obtain ⟨c, hc, houtcome⟩ := exists_call_place he
        exact ⟨c, List.mem_append_right _ hc, houtcome⟩
  | _ => exact he.elim

theorem takeAll_append_spec {before : List Event} (after : List Event) (h : b.Sound fun _ ↦ True)
    (hbefore : ∀ e ∈ before, e.Ordered) (hb' : before.foldlM (take o) b = .ok b') :
    b'.Sound (fun _ ↦ True) ∧
      b'.arena ∈ b.arena :: (takeAllM o (before ++ after) b : Watched _).arenas ∧
      (takeAllM o after b' : Watched _).calls ⊆
        (takeAllM o (before ++ after) b : Watched _).calls := by
  induction before generalizing b with
  | nil =>
    cases hb'
    exact ⟨h, List.mem_cons_self, List.Subset.refl _⟩
  | cons e before ih =>
    rw [List.foldlM_cons] at hb'
    cases htake : b.take o e with
    | error err =>
      rw [htake] at hb'
      cases hb'
    | ok b₁ =>
      rw [htake] at hb'
      obtain ⟨c, hfirst, -, hok⟩ := costs_take (o := o) h (hbefore e List.mem_cons_self)
      obtain ⟨rfl, -⟩ := hok b₁ htake
      obtain ⟨hsound, harena, hcalls⟩ :=
        ih (sound_take h (fun a _ _ ↦ by cases a <;> trivial) htake)
          (fun e he ↦ hbefore e (List.mem_cons_of_mem _ he)) hb'
      rw [List.cons_append, takeAllM, arenas_bind, calls_bind, hfirst.outcome_eq, htake]
      refine ⟨hsound, ?_, fun c hc ↦ List.mem_append_right _ (hcalls hc)⟩
      rw [← List.cons_append]
      rcases List.mem_cons.1 harena with heq | hmem
      · exact List.mem_append_left _ (heq ▸ hfirst.noted)
      · exact List.mem_append_right _ hmem

/-- What has been noted takes in all that comes of taking the events: the arena after each of them,
and what came of each that unrolls a quantifier, unless there is a fault in front of that. -/
structure Covers (o : Options) (events : List Event) (w : Watched (Except ReadError Tree)) :
    Prop where
  arena : ∀ before after b, events = before ++ after →
    before.foldlM (TreeBuilder.take o) .start = .ok b → b.arena ∈ w.arenas
  call : ∀ before e after b, events = before ++ e :: after →
    before.foldlM (TreeBuilder.take o) .start = .ok b → e.IsUnrolled →
    (∀ fault left, b.take o e ≠ .error (.located fault left)) →
    ∃ c ∈ w.calls, c.outcome = (b.take o e).map (·.arena)

theorem covers_ofEvents {events : List Event} (hevents : ∀ e ∈ events, e.Ordered) :
    (ofEvents o events).Covers o events := by
  let f : Watched (Except ReadError TreeBuilder) := takeAllM o events start
  have harenas : start.arena :: f.arenas ⊆ (ofEvents o events).arenas := by
    refine List.cons_subset.2 ⟨List.mem_append_left _ ?_, fun a ha ↦
      List.mem_append_right _ (List.mem_append_left _ ha)⟩
    have hdoes : Does 0 {} startM start _ := does_start
    exact (List.mem_cons.1 hdoes.noted).resolve_left (by decide)
  have hcalls : f.calls ⊆ (ofEvents o events).calls := fun c hc ↦
    List.mem_append_right _ (List.mem_append_left _ hc)
  constructor
  · rintro before after b rfl hb
    have hbefore := fun e he ↦ hevents e (List.mem_append_left after he)
    obtain ⟨-, harena, -⟩ := takeAll_append_spec after sound_start hbefore hb
    exact harenas harena
  · rintro before e after b rfl hb he hfault
    have hbefore := fun e he ↦ hevents e (List.mem_append_left _ he)
    obtain ⟨hsound, -, hsubset⟩ := takeAll_append_spec (e :: after) sound_start hbefore hb
    obtain ⟨c, hdoes, -⟩ := costs_take (o := o) hsound
      (hevents e (List.mem_append_right _ List.mem_cons_self))
    obtain ⟨call, hcall, houtcome⟩ := exists_call_take he hfault
    refine ⟨call, hcalls (hsubset (List.mem_append_left _ hcall)), ?_⟩
    rw [houtcome, hdoes.outcome_eq]

end Watched

/-- **Unrolling respects the bound on the tree.** Let a pattern be read under watch, which comes
out as reading it does, and by way of the same arenas. Every call that unrolls a counted quantifier
leaves an arena within the bound if it goes on, and has made no arena at all if it is refused, which
is for the bound alone. No arena there is at any time has more nodes than the bound and two, with
three more for each byte of the pattern. -/
theorem Tree.unrolling_within_bound (o : Options) (pattern : Bytes) :
    let text := pattern.untilZero
    let watched := Watched.ofEvents o (Event.read text)
    watched.outcome.mapError (·.map (text.length - ·.length)) = Tree.ofPattern o pattern ∧
      watched.Covers o (Event.read text) ∧
      (∀ c ∈ watched.calls, c.Within o.maxTreeSize) ∧
      ∀ a ∈ watched.arenas, a.size ≤ o.maxTreeSize + 3 * text.length + 2 := by
  intro text watched
  obtain ⟨hordered, hcost⟩ := Event.affordable_read text
  obtain ⟨c, hdoes, hsize⟩ := Watched.does_ofEvents (o := o) hordered
  refine ⟨?_, Watched.covers_ofEvents hordered, hdoes.within, fun a ha ↦ ?_⟩
  · rw [hdoes.outcome_eq]
    rfl
  · have := hdoes.largest a ha
    omega

-- Two or three carets leave 8 nodes, and of 20 there are not enough left for nine more.
example : ((Watched.ofEvents { maxTreeSize := 20 } [.atom .caret (.counted 2 (some 3) false),
    .atom .caret (.counted 9 (some 9) false)]).calls.map
      fun c ↦ (c.arenas.length, c.outcome.isOk)) = [(11, true), (0, false)] := by
  decide +kernel

end PatternAutomata
