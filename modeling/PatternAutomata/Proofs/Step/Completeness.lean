import PatternAutomata.Proofs.Step.Exhaustive

/-!
# A step finds all that can be reached

Paths start a loop again at most once each, and in the graph of all moves nothing keeps a path from
doing so more often. Still nothing is lost: of a way through the graph that comes to the same loop
again, what lies between the first time and the last can be left out. This may leave out dollars,
so a match that can only be found across a dollar may turn out to be found without one; it never
gets lost.
-/

namespace PatternAutomata

/-! ## Ways through the graph of moves -/

def Tree.AtDollar (t : Tree) (u : Spot) : Prop :=
  u.isLeaving = false ∧ (t.node u.node).kind = .dollar

namespace Stance

def Reaches (s : Stance) : Spot → Spot → Prop := Relation.ReflTransGen s.Move

/-- `v` can be reached from `u` without crossing a dollar. -/
def ReachesFreely (s : Stance) : Spot → Spot → Prop :=
  Relation.ReflTransGen fun u v ↦ s.Move u v ∧ ¬s.tree.AtDollar u

end Stance

namespace Tree

/-- Paths start from a marker held, which is a class outside of look-behind bodies or a marker of
the lead-in, and `isAtStart` says whether carets hold for them. -/
inductive Starts (t : Tree) (held : MarkerSet) : Nat → Bool → Prop
  | chars {marker : Nat} {set : CodePointSet} {claim : Option Nat} : marker ∈ held.members →
      (t.node marker).kind = .chars set claim → (∀ l ∈ t.lookBehinds, marker ∉ t.body l) →
      Starts t held marker false
  | marker {marker lead : Nat} {anchored : Bool} : marker ∈ held.members →
      (t.node marker).kind = .marker anchored lead → Starts t held marker anchored

/-- The stance of paths that may advance or not. -/
abbrev stance (t : Tree) (held : MarkerSet) (mustAdvance isAtStart : Bool) : Stance where
  tree := t
  held := held
  mustAdvance := mustAdvance
  isAtStart := isAtStart

/-- Some way leads from a marker held to the front of `x` without crossing a dollar. -/
def ReachesFreely (t : Tree) (held : MarkerSet) (x : Nat) : Prop :=
  ∃ marker isAtStart r, t.Starts held marker isAtStart ∧
    (t.stance held false isAtStart).ReachesFreely (.back marker) ⟨x, false, r⟩

/-- Some way leads from a marker held to the front of `x` across a dollar. -/
def ReachesAcross (t : Tree) (held : MarkerSet) (x : Nat) : Prop :=
  ∃ marker isAtStart r d, t.Starts held marker isAtStart ∧ t.AtDollar d ∧
    (t.stance held false isAtStart).Reaches (.back marker) d ∧
    (t.stance held false isAtStart).Reaches d ⟨x, false, r⟩

/-- What the successors of a complete step are. -/
structure StepsCompletely (t : Tree) (held : MarkerSet) (mustAdvance : Bool)
    (successors : Array Successor) : Prop where
  /-- The classes outside of look-behind bodies are those that can be reached in front of all
  dollars. -/
  chars : ∀ {x : Nat}, (t.node x).kind.isChars = true → (∀ l ∈ t.lookBehinds, x ∉ t.body l) →
    ((∃ d ∈ successors, d.target = x) ↔ t.ReachesFreely held x)
  /-- None of the others can be reached. -/
  bodies : ∀ {x l : Nat}, l ∈ t.lookBehinds → x ∈ t.body l → ¬t.ReachesFreely held x
  /-- The place behind the pattern is found if it may be and can be. -/
  matchFound : (∃ d ∈ successors, d.target = t.matchFound) ↔
    mustAdvance = false ∧ t.ReachesFreely held t.matchFound
  /-- A dollar stands for the place behind the pattern, reached across a dollar. -/
  dollar : ∀ d ∈ successors, (t.node d.target).kind = .dollar →
    mustAdvance = false ∧ t.ReachesAcross held t.matchFound
  /-- If it can be reached so, a match is found one way or the other. -/
  across : mustAdvance = false → t.ReachesAcross held t.matchFound →
    ∃ d ∈ successors, d.target = t.matchFound ∨ (t.node d.target).kind = .dollar
  /-- There are no other targets. -/
  target : ∀ d ∈ successors, (t.node d.target).kind.isChars = true ∨ d.target = t.matchFound ∨
    (t.node d.target).kind = .dollar
  /-- Every target occurs once. -/
  nodup : (successors.toList.map Successor.target).Nodup
  /-- One dollar occurs at most. -/
  one_dollar : ∀ d ∈ successors, ∀ e ∈ successors, (t.node d.target).kind = .dollar →
    (t.node e.target).kind = .dollar → d = e

end Tree

namespace Path

variable {s : Stance} {p q : Path}

theorem Leads.move (h : p.Leads s q) : s.Move p.spot q.spot := by
  cases h with
  | onward hmove _ => exact .onward hmove
  | again hrepeats _ hspot _ => exact hspot ▸ .again hrepeats

theorem Continues.sound (hforest : s.tree.arena.Forest) (hfit : s.tree.LengthsFit)
    (h : Continues s p q) (hp : p.Sound s.tree) : q.Sound s.tree := by
  induction h with
  | refl => exact hp
  | tail _ hq ih => exact ih.of_mem_next hforest hfit hq

/-- Where paths arrive: at a class, unless they have passed a dollar, and behind the pattern, which
a dollar that they have passed stands for. -/
theorem arrival_eq_some_iff {x : Nat} : p.arrival? s = some x ↔ p.isLeaving = false ∧
    ((s.tree.node p.node).kind.isChars = true ∧ p.dollar = none ∧ x = p.node ∨
      (s.tree.node p.node).kind = .matchFound ∧ s.mustAdvance = false ∧
        x = p.dollar.getD p.node) := by
  unfold arrival?
  cases p.isLeaving with
  | true => simp
  | false =>
    cases (s.tree.node p.node).kind with
    | chars set claim => simp [NodeKind.isChars, NodeKind.chars?, @eq_comm _ p.node]
    | matchFound => simp [NodeKind.isChars, NodeKind.chars?, @eq_comm _ (p.dollar.getD p.node)]
    | _ => simp [NodeKind.isChars, NodeKind.chars?]

/-- Paths are ways through the graph of moves, and a path has passed a dollar if the way does. -/
theorem Continues.reaches (hfit : s.tree.LengthsFit) (h : Continues s p q)
    (hp : p.dollar = none) :
    (q.dollar = none ∧ s.ReachesFreely p.spot q.spot) ∨
      (q.dollar.isSome = true ∧
        ∃ d, s.tree.AtDollar d ∧ s.Reaches p.spot d ∧ s.Reaches d q.spot) := by
  induction h with
  | refl => exact .inl ⟨hp, .refl⟩
  | @tail b q _ hq ih =>
    have hmove := (leads_of_mem_next hfit hq).move
    rcases ih with ⟨hb, hfree⟩ | ⟨hb, d, hd, hpd, hdb⟩
    · by_cases hat : s.tree.AtDollar b.spot
      · have hdollar := (dollar_of_mem_next hq).trans (if_pos hat)
        rw [hb] at hdollar
        refine .inr ⟨by rw [hdollar]; rfl, b.spot, hat, ?_, .single hmove⟩
        exact Relation.ReflTransGen.mono (fun u v huv ↦ huv.1) _ _ hfree
      · have hdollar := (dollar_of_mem_next hq).trans (if_neg hat)
        exact .inl ⟨hdollar.trans hb, hfree.tail ⟨hmove, hat⟩⟩
    · refine .inr ⟨?_, d, hd, hpd, hdb.tail hmove⟩
      rw [dollar_of_mem_next hq]
      split
      · obtain ⟨e, he⟩ := Option.isSome_iff_exists.1 hb
        rw [he]
        rfl
      · exact hb

theorem avoids_last {r : Spot → Spot → Prop} {z v : Spot} (h : Relation.ReflTransGen r z v) :
    Relation.ReflTransGen (fun a b ↦ r a b ∧ b ≠ z) z v := by
  induction h with
  | refl => exact .refl
  | @tail b c _ hbc ih =>
    by_cases hc : c = z
    · exact hc ▸ .refl
    · exact ih.tail ⟨hbc, hc⟩

/-- **Ways can be shortened to paths.** Where a way through the graph leads that starts no loop
again which the path has started again before, there the path can go on to, and it crosses no
dollars that the way does not cross: `passable` tells which spots the way comes by. -/
theorem exists_continues (hforest : s.tree.arena.Forest) (hfit : s.tree.LengthsFit)
    {passable : Spot → Prop} {v : Spot} (hp : p.node < s.tree.size)
    (h : Relation.ReflTransGen
      (fun a b ↦ (s.Move a b ∧ passable a) ∧ ∀ l ∈ p.reentered, b ≠ .again l) p.spot v) :
    ∃ q, Relation.ReflTransGen (fun a b ↦ b ∈ a.next s ∧ passable a.spot) p q ∧ q.spot = v := by
  induction hrank : p.rank s.tree.arena using Nat.strong_induction_on generalizing p with
  | _ n ih =>
    rcases h.cases_head with rfl | ⟨u, ⟨⟨hmove, hpass⟩, havoid⟩, huv⟩
    · exact ⟨p, .refl, rfl⟩
    -- the first move is made by a path `p'`, from where the rest of the way can be shortened
    have hfirst : ∃ p' ∈ p.next s, Relation.ReflTransGen
        (fun a b ↦ (s.Move a b ∧ passable a) ∧ ∀ l ∈ p'.reentered, b ≠ .again l) p'.spot v := by
      cases hmove with
      | onward honward =>
        obtain ⟨p', hp', hspot, hsame⟩ := exists_mem_next_of_onward hfit honward
        exact ⟨p', hp', by rw [hspot, hsame]; exact huv⟩
      | @again loop hrepeats =>
        have hnew : loop ∉ p.reentered := fun hmem ↦ havoid loop hmem rfl
        obtain ⟨p', hp', hspot, hmore⟩ := exists_mem_next_of_repeats hrepeats hnew
        refine ⟨p', hp', ?_⟩
        rw [hspot]
        refine Relation.ReflTransGen.mono (fun a b hab ↦ ⟨hab.1.1, fun l hl ↦ ?_⟩) _ _
          (avoids_last huv)
        rw [hmore, IndexSet.mem_insert] at hl
        rcases hl with hl | rfl
        · exact hab.1.2 l hl
        · exact hab.2
    obtain ⟨p', hp', hway⟩ := hfirst
    have hlt := (leads_of_mem_next hfit hp').rank_lt hforest hp
    obtain ⟨q, hq, hspot⟩ := ih _ (hrank ▸ hlt.2) hlt.1 hway rfl
    exact ⟨q, .head ⟨hp', hpass⟩ hq, hspot⟩

end Path

/-! ## What the paths from all markers deliver -/

namespace Tree

variable {t : Tree} {ok : CodePointSet → Prop} {held : MarkerSet} {mustAdvance : Bool}

theorem Regular.starts_iff (h : t.Regular ok) {marker : Nat} {isAtStart : Bool} :
    t.Starts held marker isAtStart ↔
      marker ∈ held.members ∧ t.origin? marker = some isAtStart := by
  constructor
  · rintro (⟨hheld, hkind, hout⟩ | ⟨hheld, hkind⟩)
    · refine ⟨hheld, ?_⟩
      rename_i set claim
      cases claim with
      | none => rw [origin?, hkind]
      | some l => exact absurd (h.claims hkind).2 (hout l (h.claims hkind).1)
    · exact ⟨hheld, by rw [origin?, hkind]⟩
  · rintro ⟨hheld, horigin⟩
    unfold origin? at horigin
    split at horigin
    · next set hkind =>
      cases horigin
      refine .chars hheld hkind fun l hl hmem ↦ ?_
      obtain ⟨-, set', hset⟩ := h.body hl hmem
      cases hkind.symm.trans hset
    · next hkind =>
      cases horigin
      exact .marker hheld hkind
    · cases horigin

/-- The path that starts at the end of a marker. -/
def pathFrom (marker : Nat) : Path := { node := marker, isLeaving := true }

theorem sound_pathFrom {marker : Nat} {isAtStart : Bool} (h : t.origin? marker = some isAtStart) :
    (pathFrom marker).Sound t :=
  ⟨lt_size_of_origin h, fun _ hdollar ↦ absurd hdollar.symm (Option.some_ne_none _)⟩

theorem Regular.mem_ways (h : t.Regular ok) {d : Successor} : d ∈ t.ways held mustAdvance ↔
    ∃ marker isAtStart, t.Starts held marker isAtStart ∧
      ∃ q, Path.Continues (t.stance held mustAdvance isAtStart) (pathFrom marker) q ∧
        q.delivery? (t.stance held mustAdvance isAtStart) = some d := by
  rw [ways, List.mem_flatMap]
  have hdeliveries : ∀ {marker : Nat} {isAtStart : Bool}, t.origin? marker = some isAtStart →
      (d ∈ t.waysFrom held mustAdvance marker ↔
        ∃ q, Path.Continues (t.stance held mustAdvance isAtStart) (pathFrom marker) q ∧
          q.delivery? (t.stance held mustAdvance isAtStart) = some d) := by
    intro marker isAtStart horigin
    rw [waysFrom, horigin]
    exact Path.mem_deliveries_iff (s := t.stance held mustAdvance isAtStart) h.forest h.fits
      (lt_size_of_origin horigin)
  constructor
  · rintro ⟨marker, hheld, hd⟩
    cases horigin : t.origin? marker with
    | none =>
      rw [waysFrom, horigin] at hd
      cases hd
    | some isAtStart =>
      exact ⟨marker, isAtStart, h.starts_iff.2 ⟨hheld, horigin⟩, (hdeliveries horigin).1 hd⟩
  · rintro ⟨marker, isAtStart, hstarts, hq⟩
    obtain ⟨hheld, horigin⟩ := h.starts_iff.1 hstarts
    exact ⟨marker, hheld, (hdeliveries horigin).2 hq⟩

/-- Where a way leads, by the kind of its target. -/
inductive Leads (t : Tree) (held : MarkerSet) (mustAdvance : Bool) (x : Nat) : Prop
  | chars : (t.node x).kind.isChars = true → t.ReachesFreely held x → Leads t held mustAdvance x
  | matchFound : x = t.matchFound → mustAdvance = false → t.ReachesFreely held x →
      Leads t held mustAdvance x
  | dollar : (t.node x).kind = .dollar → mustAdvance = false →
      t.ReachesAcross held t.matchFound → Leads t held mustAdvance x

/-- **Ways lead where the graph does.** -/
theorem Regular.leads_of_mem_ways (h : t.Regular ok) {d : Successor}
    (hd : d ∈ t.ways held mustAdvance) : t.Leads held mustAdvance d.target := by
  obtain ⟨marker, isAtStart, hstarts, q, hq, hdelivery⟩ := h.mem_ways.1 hd
  obtain ⟨x, harrival, rfl⟩ := Option.map_eq_some_iff.1 hdelivery
  obtain ⟨hfront, harrival⟩ := Path.arrival_eq_some_iff.1 harrival
  have hspot : q.spot = ⟨q.node, false, q.isReentry⟩ := by rw [Path.spot, hfront]
  have hway := hq.reaches h.fits rfl
  rw [hspot] at hway
  rcases harrival with ⟨hchars, hnone, rfl⟩ | ⟨hkind, hadvance, rfl⟩
  · rcases hway with ⟨-, hfree⟩ | ⟨hsome, -⟩
    · exact .chars hchars ⟨marker, isAtStart, _, hstarts, hfree⟩
    · rw [hnone] at hsome
      cases hsome
  · have hnode : q.node = t.matchFound := h.matchFound_iff.1 hkind
    rw [hnode] at hway
    rcases hway with ⟨hnone, hfree⟩ | ⟨hsome, u, hu, hpu, huq⟩
    · have hreaches : t.ReachesFreely held t.matchFound := ⟨marker, isAtStart, _, hstarts, hfree⟩
      refine .matchFound ?_ hadvance ?_
      · rw [Successor.ofPath, hnone]
        exact hnode
      · rw [Successor.ofPath, hnone]
        exact hnode ▸ hreaches
    · obtain ⟨e, he⟩ := Option.isSome_iff_exists.1 hsome
      have hmarker := (h.starts_iff.1 hstarts).2
      have hsound := hq.sound h.forest h.fits (sound_pathFrom hmarker)
      refine .dollar ?_ hadvance ⟨marker, isAtStart, _, u, hstarts, hu, hpu, huq⟩
      rw [Successor.ofPath, he]
      exact hsound.dollar e he

theorem Regular.mem_ways_of_continues (h : t.Regular ok) {marker : Nat} {isAtStart : Bool}
    {q : Path} {x : Nat} (hstarts : t.Starts held marker isAtStart)
    (hq : Path.Continues (t.stance held mustAdvance isAtStart) (pathFrom marker) q)
    (harrival : q.arrival? (t.stance held mustAdvance isAtStart) = some x) :
    Successor.ofPath q x ∈ t.ways held mustAdvance :=
  h.mem_ways.2 ⟨marker, isAtStart, hstarts, q, hq, by rw [Path.delivery?, harrival]; rfl⟩

/-- Where a way leads that crosses no dollar, a path goes that has passed none. -/
theorem Regular.exists_path_of_reachesFreely (h : t.Regular ok) {x : Nat}
    (hreach : t.ReachesFreely held x) : ∃ marker isAtStart q, t.Starts held marker isAtStart ∧
      Path.Continues (t.stance held mustAdvance isAtStart) (pathFrom marker) q ∧
      q.node = x ∧ q.isLeaving = false ∧ q.dollar = none := by
  obtain ⟨marker, isAtStart, r, hstarts, hway⟩ := hreach
  have hlt := lt_size_of_origin (h.starts_iff.1 hstarts).2
  have hway : Relation.ReflTransGen (fun a b ↦
      ((t.stance held mustAdvance isAtStart).Move a b ∧ ¬t.AtDollar a) ∧
        ∀ l ∈ (pathFrom marker).reentered, b ≠ .again l) (pathFrom marker).spot ⟨x, false, r⟩ :=
    Relation.ReflTransGen.mono
      (fun a b hab ↦ ⟨hab, fun l hl ↦ absurd hl (IndexSet.not_mem_empty l)⟩) _ _ hway
  obtain ⟨q, hq, hspot⟩ := Path.exists_continues h.forest h.fits hlt hway
  obtain ⟨hnode, hfront, -⟩ := Spot.mk.inj hspot
  refine ⟨marker, isAtStart, q, hstarts, ?_, hnode, hfront, ?_⟩
  · exact Relation.ReflTransGen.mono (fun a b hab ↦ hab.1) _ _ hq
  · clear hspot hnode hfront
    induction hq with
    | refl => rfl
    | tail _ hab ih => exact ((Path.dollar_of_mem_next hab.1).trans (if_neg hab.2)).trans ih

theorem Regular.exists_way_of_chars (h : t.Regular ok) {x : Nat}
    (hx : (t.node x).kind.isChars = true) (hreach : t.ReachesFreely held x) :
    ∃ d ∈ t.ways held mustAdvance, d.target = x := by
  obtain ⟨marker, isAtStart, q, hstarts, hq, rfl, hfront, hdollar⟩ :=
    h.exists_path_of_reachesFreely hreach
  exact ⟨_, h.mem_ways_of_continues hstarts hq
    (Path.arrival_eq_some_iff.2 ⟨hfront, .inl ⟨hx, hdollar, rfl⟩⟩), rfl⟩

theorem Regular.exists_way_of_matchFound (h : t.Regular ok)
    (hreach : t.ReachesFreely held t.matchFound) :
    ∃ d ∈ t.ways held false, d.target = t.matchFound := by
  obtain ⟨marker, isAtStart, q, hstarts, hq, hnode, hfront, hdollar⟩ :=
    h.exists_path_of_reachesFreely hreach
  have hkind : (t.node q.node).kind = .matchFound := h.matchFound_iff.2 hnode
  refine ⟨_, h.mem_ways_of_continues hstarts hq
    (Path.arrival_eq_some_iff.2 ⟨hfront, .inr ⟨hkind, rfl, rfl⟩⟩), ?_⟩
  rw [Successor.ofPath, hdollar]
  exact hnode

/-- If it can be reached across a dollar, then it is delivered, or a dollar is. -/
theorem Regular.exists_way_of_across (h : t.Regular ok)
    (hreach : t.ReachesAcross held t.matchFound) :
    ∃ d ∈ t.ways held false, d.target = t.matchFound ∨ (t.node d.target).kind = .dollar := by
  obtain ⟨marker, isAtStart, r, u, hstarts, -, hpu, hux⟩ := hreach
  have horigin := (h.starts_iff.1 hstarts).2
  have hlt := lt_size_of_origin horigin
  have hway : Relation.ReflTransGen (fun a b ↦
      ((t.stance held false isAtStart).Move a b ∧ True) ∧
        ∀ l ∈ (pathFrom marker).reentered, b ≠ .again l) (pathFrom marker).spot
        ⟨t.matchFound, false, r⟩ :=
    Relation.ReflTransGen.mono (fun a b hab ↦
      ⟨⟨hab, trivial⟩, fun l hl ↦ absurd hl (IndexSet.not_mem_empty l)⟩) _ _ (hpu.trans hux)
  obtain ⟨q, hq, hspot⟩ := Path.exists_continues h.forest h.fits hlt hway
  obtain ⟨hnode, hfront, -⟩ := Spot.mk.inj hspot
  have hq : Path.Continues (t.stance held false isAtStart) (pathFrom marker) q :=
    Relation.ReflTransGen.mono (fun a b hab ↦ hab.1) _ _ hq
  have hkind : (t.node q.node).kind = .matchFound := h.matchFound_iff.2 hnode
  have hsound := hq.sound h.forest h.fits (sound_pathFrom horigin)
  refine ⟨_, h.mem_ways_of_continues hstarts hq
    (Path.arrival_eq_some_iff.2 ⟨hfront, .inr ⟨hkind, rfl, rfl⟩⟩), ?_⟩
  cases hdollar : q.dollar with
  | none => exact .inl hnode
  | some e => exact .inr (hsound.dollar e hdollar)

/-! ## What the step lists -/

/-- No move leads to a place properly below a look-behind assertion, save from there. -/
theorem move_properly_below (hforest : t.arena.Forest) {l : Nat}
    (hl : (t.node l).kind.isLookBehind = true) {passes : Nat → Prop} {isAtStart : Prop} {u v : Spot}
    (hmove : Move t passes isAtStart u v) (hv : t.arena.Below v.node l ∧ v.node ≠ l) :
    t.arena.Below u.node l ∧ u.node ≠ l := by
  have hdown : ∀ {c p : Nat}, t.arena.Up c p → (t.node p).kind.isLookBehind = false →
      t.arena.Below c l ∧ c ≠ l → t.arena.Below p l ∧ p ≠ l := by
    rintro c p hup hp ⟨hbelow, hne⟩
    rcases hbelow.eq_or_of_up hup with heq | hpl
    · exact absurd heq hne
    · refine ⟨hpl, ?_⟩
      rintro rfl
      rw [hl] at hp
      cases hp
  have hup : ∀ {c p : Nat}, t.arena.Up c p → t.arena.Below p l ∧ p ≠ l →
      t.arena.Below c l ∧ c ≠ l := by
    rintro c p hup ⟨hbelow, -⟩
    refine ⟨.head hup hbelow, ?_⟩
    rintro rfl
    exact hforest.not_below_parent hup hbelow
  cases hmove with
  | again hrepeats => exact hup hrepeats.parent hv
  | onward h =>
    cases h with
    | first hkind hc => exact hdown (hforest.child hc).1 (by rw [hkind]; rfl) hv
    | choose hkind hc _ => exact hdown (hforest.up_of_mem hc) (by rw [hkind]; rfl) hv
    | next hparent hkind hc =>
      exact hup hparent (hdown (hforest.child hc).1 (by rw [hkind]; rfl) hv)
    | last hparent _ _ => exact hup hparent hv
    | out hparent _ _ => exact hup hparent hv
    | _ => exact hv

theorem Regular.not_below_of_starts (h : t.Regular ok) {l marker : Nat} {isAtStart : Bool}
    (hl : l ∈ t.lookBehinds) (hstarts : t.Starts held marker isAtStart) :
    ¬(t.arena.Below marker l ∧ marker ≠ l) := by
  rintro ⟨hbelow, hne⟩
  have hmem : marker ∈ t.body l := by
    rcases h.below_lookBehind hbelow (h.mem_lookBehinds.1 hl).1 with
      heq | hgroup | hsequence | hmem
    · exact absurd heq hne
    · rcases hstarts with ⟨-, hm, -⟩ | ⟨-, hm⟩ <;> (rw [hm] at hgroup; cases hgroup)
    · rcases hstarts with ⟨-, hm, -⟩ | ⟨-, hm⟩ <;> (rw [hm] at hsequence; cases hsequence)
    · exact hmem
  rcases hstarts with ⟨-, -, hout⟩ | ⟨-, hm⟩
  · exact hout l hl hmem
  · obtain ⟨-, set, hset⟩ := h.body hl hmem
    cases hm.symm.trans hset

theorem Regular.not_reachesFreely_of_mem_body (h : t.Regular ok) {x l : Nat}
    (hl : l ∈ t.lookBehinds) (hx : x ∈ t.body l) : ¬t.ReachesFreely held x := by
  rintro ⟨marker, isAtStart, r, hstarts, hway⟩
  have hback : ∀ {u v : Spot}, (t.stance held false isAtStart).ReachesFreely u v →
      t.arena.Below v.node l ∧ v.node ≠ l → t.arena.Below u.node l ∧ u.node ≠ l := by
    intro u v huv hv
    induction huv with
    | refl => exact hv
    | tail _ huv ih => exact ih (move_properly_below h.forest (h.mem_lookBehinds.1 hl).1 huv.1 hv)
  exact h.not_below_of_starts hl hstarts (hback hway (h.body hl hx).1)

/-- The classes that keep track of look-behind assertions. -/
def progress (t : Tree) (held : MarkerSet) : List Nat :=
  t.lookBehinds.toList.flatMap (t.bodyProgress held)

theorem track_eq (found : Array Successor) : t.track held found =
    if found.all (·.isFinal t) then found
    else found ++ ((t.progress held).map fun target ↦ ({ target } : Successor)).toArray := by
  unfold track progress
  split
  · rfl
  · next hread =>
    clear hread
    simp only [List.foldl_push_eq_append]
    rw [← Array.foldl_toList]
    induction t.lookBehinds.toList generalizing found with
    | nil => simp
    | cons l ls ih => simp [ih]

theorem mem_body_of_mem_bodyProgress {x l : Nat} (hx : x ∈ t.bodyProgress held l) :
    x ∈ t.body l := by
  obtain ⟨i, -, hi⟩ := List.mem_filterMap.1 hx
  split at hi
  · exact Array.mem_of_getElem? hi
  · cases hi

theorem Regular.exists_body_of_mem_progress (h : t.Regular ok) {x : Nat}
    (hx : x ∈ t.progress held) :
    ∃ l ∈ t.lookBehinds, x ∈ t.body l ∧ ∃ set, (t.node x).kind = .chars set (some l) := by
  obtain ⟨l, hl, hx⟩ := List.mem_flatMap.1 hx
  have hl := Array.mem_toList_iff.1 hl
  have hx := mem_body_of_mem_bodyProgress hx
  exact ⟨l, hl, hx, (h.body hl hx).2⟩

theorem Regular.nodup_progress (h : t.Regular ok) : (t.progress held).Nodup := by
  refine List.nodup_flatMap.2 ⟨fun l _ ↦ ?_, ?_⟩
  · refine List.Nodup.filterMap (fun i j x hi hj ↦ ?_) List.nodup_range
    have hindex : ∀ {i : Nat}, x ∈ (if i = 0 || held.contains ((t.body l).getD (i - 1) 0)
        then (t.body l)[i]? else none) → (t.node x).index = i := by
      intro i hi
      split at hi
      · exact (h.forest.child hi).2
      · cases hi
    rw [← hindex hi, ← hindex hj]
  · refine h.nodup_lookBehinds.imp_of_mem fun {l l'} hl hl' hne x hx hx' ↦ hne ?_
    obtain ⟨-, set, hset⟩ := h.body (Array.mem_toList_iff.1 hl) (mem_body_of_mem_bodyProgress hx)
    obtain ⟨-, set', hset'⟩ :=
      h.body (Array.mem_toList_iff.1 hl') (mem_body_of_mem_bodyProgress hx')
    cases hset.symm.trans hset'
    rfl

theorem Leads.key_eq {d : Successor} (h : t.Leads held mustAdvance d.target)
    (hreg : t.Regular ok) :
    d.key t = if (t.node d.target).kind = .dollar then none else some d.target := by
  unfold Successor.key
  cases h with
  | chars hchars _ =>
    obtain ⟨set, claim, hkind⟩ := NodeKind.isChars_iff.1 hchars
    rw [hkind]
    rfl
  | matchFound hx _ _ =>
    rw [hreg.matchFound_iff.2 hx]
    rfl
  | dollar hdollar _ _ =>
    rw [hdollar]
    rfl

theorem Regular.leads_of_mem_firstWays (h : t.Regular ok) {d : Successor}
    (hd : d ∈ t.firstWays held mustAdvance) : t.Leads held mustAdvance d.target :=
  h.leads_of_mem_ways ((Successor.mem_of_mem_foldl_addFirst hd).resolve_left
    (Array.not_mem_empty _))

/-- Every way has a first way to the same target, or to another dollar. -/
theorem Regular.exists_firstWay (h : t.Regular ok) {d : Successor}
    (hd : d ∈ t.ways held mustAdvance) : ∃ e ∈ t.firstWays held mustAdvance,
      e.target = d.target ∨
        (t.node e.target).kind = .dollar ∧ (t.node d.target).kind = .dollar := by
  obtain ⟨e, he, hkey⟩ := @Successor.exists_key_foldl_addFirst t #[] d _ hd
  refine ⟨e, he, ?_⟩
  rw [(h.leads_of_mem_firstWays he).key_eq h, (h.leads_of_mem_ways hd).key_eq h] at hkey
  split at hkey
  · next hdollar =>
    split at hkey
    · next hdollar' => exact .inr ⟨hdollar, hdollar'⟩
    · cases hkey
  · split at hkey
    · cases hkey
    · exact .inl (Option.some.inj hkey)

theorem nodup_target_firstWays :
    ((t.firstWays held mustAdvance).toList.map Successor.target).Nodup := by
  refine List.Nodup.of_map (fun x ↦ ({ target := x } : Successor).key t) ?_
  rw [List.map_map]
  exact Successor.nodup_foldl_addFirst (by simp)

/-- A successor is the first way to its target, or it keeps track of a look-behind assertion. -/
theorem Regular.mem_step_iff (h : t.Regular ok) {d : Successor} :
    d ∈ t.step held mustAdvance ↔ d ∈ t.firstWays held mustAdvance ∨
      (t.firstWays held mustAdvance).all (·.isFinal t) = false ∧
        ∃ x ∈ t.progress held, d = { target := x } := by
  rw [step_eq_track_ways h.forest h.fits, track_eq]
  split
  · next hfinal => simp [hfinal]
  · next hread => simp [Bool.eq_false_iff.2 hread, eq_comm]

theorem Regular.target_iff (h : t.Regular ok) {x : Nat} (hx : x ∉ t.progress held)
    (hdollar : (t.node x).kind ≠ .dollar) :
    (∃ d ∈ t.step held mustAdvance, d.target = x) ↔
      ∃ d ∈ t.ways held mustAdvance, d.target = x := by
  constructor
  · rintro ⟨d, hd, rfl⟩
    rcases h.mem_step_iff.1 hd with hd | ⟨-, y, hy, rfl⟩
    · exact ⟨d, (Successor.mem_of_mem_foldl_addFirst hd).resolve_left (Array.not_mem_empty _), rfl⟩
    · exact absurd hy hx
  · rintro ⟨d, hd, rfl⟩
    obtain ⟨e, he, hsame | ⟨-, hkind⟩⟩ := h.exists_firstWay hd
    · exact ⟨e, h.mem_step_iff.2 (.inl he), hsame⟩
    · exact absurd hkind hdollar

theorem Regular.not_mem_progress (h : t.Regular ok) {d : Successor}
    (hd : d ∈ t.firstWays held mustAdvance) : d.target ∉ t.progress held := by
  intro hx
  obtain ⟨l, hl, hbody, set, hset⟩ := h.exists_body_of_mem_progress hx
  cases h.leads_of_mem_firstWays hd with
  | chars _ hreach => exact h.not_reachesFreely_of_mem_body hl hbody hreach
  | matchFound hx _ _ => cases hset.symm.trans (h.matchFound_iff.2 hx)
  | dollar hkind _ _ => cases hset.symm.trans hkind

theorem Regular.nodup_target_step (h : t.Regular ok) :
    ((t.step held mustAdvance).toList.map Successor.target).Nodup := by
  rw [step_eq_track_ways h.forest h.fits, track_eq]
  split
  · exact nodup_target_firstWays
  · rw [Array.toList_append, List.map_append, List.map_map]
    have hprogress : (t.progress held).map
        (Successor.target ∘ fun target ↦ ({ target := target } : Successor)) = t.progress held :=
      List.map_id _
    rw [hprogress]
    refine List.Nodup.append nodup_target_firstWays h.nodup_progress fun x hx ↦ ?_
    obtain ⟨d, hd, rfl⟩ := List.mem_map.1 hx
    exact h.not_mem_progress (Array.mem_toList_iff.1 hd)

/-- The successor that a way to a dollar is listed by is no other than that of any other dollar. -/
theorem Regular.eq_of_dollar (h : t.Regular ok) {d e : Successor}
    (hd : d ∈ t.firstWays held mustAdvance) (he : e ∈ t.firstWays held mustAdvance)
    (hkd : (t.node d.target).kind = .dollar) (hke : (t.node e.target).kind = .dollar) : d = e := by
  have hnodup : ((t.firstWays held mustAdvance).toList.map fun e ↦ e.key t).Nodup :=
    Successor.nodup_foldl_addFirst (by simp)
  refine List.inj_on_of_nodup_map hnodup (Array.mem_toList_iff.2 hd) (Array.mem_toList_iff.2 he) ?_
  rw [(h.leads_of_mem_firstWays hd).key_eq h, (h.leads_of_mem_firstWays he).key_eq h, if_pos hkd,
    if_pos hke]

theorem Regular.holds_iff_of_move (h : t.Regular ok) {passes : Nat → Prop} {isAtStart : Prop}
    {u v : Spot} (hmove : Move t passes isAtStart u v) : t.Holds v.node ↔ t.Holds u.node := by
  have hup : ∀ {c p : Nat}, t.arena.Up c p → (t.Holds c ↔ t.Holds p) := by
    intro c p hcp
    refine ⟨fun hc ↦ ?_, fun hp ↦ .head hcp hp⟩
    rcases Arena.Below.eq_or_of_up hc hcp with heq | hpw
    · rw [heq] at hcp
      cases hcp.symm.trans h.wrappedRoot_loose
    · exact hpw
  cases hmove with
  | again hrepeats => exact (hup hrepeats.parent).symm
  | onward honward =>
    cases honward with
    | first _ hc => exact hup (h.forest.child hc).1
    | choose _ hc _ => exact hup (h.forest.up_of_mem hc)
    | next hparent _ hc => exact (hup (h.forest.child hc).1).trans (hup hparent).symm
    | last hparent _ _ => exact (hup hparent).symm
    | out hparent _ _ => exact (hup hparent).symm
    | _ => exact Iff.rfl

theorem Regular.stepsCompletely (h : t.Regular ok) :
    t.StepsCompletely held mustAdvance (t.step held mustAdvance) := by
  have hkind : (t.node t.matchFound).kind = .matchFound := h.matchFound_iff.2 rfl
  have hnotBody : t.matchFound ∉ t.progress held := by
    intro hx
    obtain ⟨l, -, -, set, hset⟩ := h.exists_body_of_mem_progress hx
    cases hkind.symm.trans hset
  -- progress of bodies is made to classes only, so dollars and matches come from ways
  have hfirst : ∀ d ∈ t.step held mustAdvance, (t.node d.target).kind = .dollar →
      d ∈ t.firstWays held mustAdvance := by
    intro d hd hdollar
    refine (h.mem_step_iff.1 hd).resolve_right ?_
    rintro ⟨-, x, hx, rfl⟩
    obtain ⟨l, -, -, set, hset⟩ := h.exists_body_of_mem_progress hx
    cases hdollar.symm.trans hset
  constructor
  case chars =>
    intro x hx hout
    have hprogress : x ∉ t.progress held := fun hmem ↦ by
      obtain ⟨l, hl, hmem, -⟩ := h.exists_body_of_mem_progress hmem
      exact hout l hl hmem
    rw [h.target_iff hprogress fun hdollar ↦ by rw [hdollar] at hx; cases hx]
    refine ⟨?_, h.exists_way_of_chars hx⟩
    rintro ⟨d, hd, rfl⟩
    cases h.leads_of_mem_ways hd with
    | chars _ hreach => exact hreach
    | matchFound heq _ _ => rw [heq, hkind] at hx; cases hx
    | dollar hdollar _ _ => rw [hdollar] at hx; cases hx
  case bodies => exact fun hl hx ↦ h.not_reachesFreely_of_mem_body hl hx
  case matchFound =>
    rw [h.target_iff hnotBody (by rw [hkind]; nofun)]
    constructor
    · rintro ⟨d, hd, heq⟩
      cases h.leads_of_mem_ways hd with
      | chars hchars _ => rw [heq, hkind] at hchars; cases hchars
      | matchFound _ hadvance hreach => exact ⟨hadvance, heq ▸ hreach⟩
      | dollar hdollar _ _ => rw [heq, hkind] at hdollar; cases hdollar
    · rintro ⟨rfl, hreach⟩
      exact h.exists_way_of_matchFound hreach
  case dollar =>
    intro d hd hdollar
    cases h.leads_of_mem_firstWays (hfirst d hd hdollar) with
    | chars hchars _ => rw [hdollar] at hchars; cases hchars
    | matchFound heq _ _ => rw [heq, hkind] at hdollar; cases hdollar
    | dollar _ hadvance hreach => exact ⟨hadvance, hreach⟩
  case across =>
    rintro rfl hreach
    obtain ⟨d, hd, hend⟩ := h.exists_way_of_across hreach
    obtain ⟨e, he, hsame | ⟨hdollar, -⟩⟩ := h.exists_firstWay hd
    · exact ⟨e, h.mem_step_iff.2 (.inl he), hsame ▸ hend⟩
    · exact ⟨e, h.mem_step_iff.2 (.inl he), .inr hdollar⟩
  case target =>
    intro d hd
    rcases h.mem_step_iff.1 hd with hd | ⟨-, x, hx, rfl⟩
    · cases h.leads_of_mem_firstWays hd with
      | chars hchars _ => exact .inl hchars
      | matchFound heq _ _ => exact .inr (.inl heq)
      | dollar hdollar _ _ => exact .inr (.inr hdollar)
    · obtain ⟨l, -, -, set, hset⟩ := h.exists_body_of_mem_progress hx
      exact .inl (by rw [hset]; rfl)
  case nodup => exact h.nodup_target_step
  case one_dollar =>
    exact fun d hd e he hkd hke ↦ h.eq_of_dollar (hfirst d hd hkd) (hfirst e he hke) hkd hke

/-- If a successor stands at a dollar, the tree has one: a way across it leads behind the
pattern. -/
theorem Regular.exists_mem_dollars (h : t.Regular ok) {d : Successor}
    (hd : d ∈ t.step held mustAdvance) (hdollar : (t.node d.target).kind = .dollar) :
    ∃ x, x ∈ t.dollars := by
  obtain ⟨-, marker, isAtStart, r, u, -, hat, -, hreach⟩ := h.stepsCompletely.dollar d hd hdollar
  have hholds : t.Holds u.node := by
    clear hat
    have hend : t.Holds (⟨t.matchFound, false, r⟩ : Spot).node := h.matchFound_holds
    induction hreach using Relation.ReflTransGen.head_induction_on with
    | refl => exact hend
    | head hmove _ ih => exact (h.holds_iff_of_move hmove).1 ih
  exact ⟨u.node, h.mem_dollars.2 ⟨hat.2, hholds⟩⟩

/-- **Steps are complete.** From whatever markers of a finished tree, a step lists what can be
reached in the graph of all moves: the classes in front of all dollars, and the place behind the
pattern or a dollar that stands for it. -/
theorem Finished.step_complete (h : t.Finished) :
    t.StepsCompletely held mustAdvance (t.step held mustAdvance) :=
  h.regular.stepsCompletely

/-- A loop that goes through another one twice in one step, in front of a dollar. -/
theorem step_complete_nested_loops :
    ∃ t, ofPattern {} (.ofString "(?:a*b*)+$") = .ok t ∧
      t.StepsCompletely ⟨t.size, .single 4⟩ false (t.step ⟨t.size, .single 4⟩ false) := by
  obtain ⟨t, ht, -⟩ := exists_ofPattern (fun _ ↦ true)
    (show (ofPattern {} (.ofString "(?:a*b*)+$")).toOption.any _ = true by decide +kernel)
  exact ⟨t, ht, Finished.step_complete (.ofPattern ht)⟩

end Tree

end PatternAutomata
