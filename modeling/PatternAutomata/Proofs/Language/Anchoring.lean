import PatternAutomata.Proofs.Language.Distance
import PatternAutomata.Proofs.Language.Runs

/-!
# Starting at the start of the text

A search from the start of the text differs from any other only where it comes by a caret before it
has read anything. Whether there is such a caret is told by distances, which are measured on the
tree and know nothing of walks. So walks are followed forward from the root: wherever they come by,
a match has begun, and distances are bounds on how early that can be.

With some of the lead-in in front of it, or with no caret without a distance, a step from either
marker finds the same. And whatever is found from anywhere is found from the start of the text.
-/

namespace PatternAutomata

namespace Tree

variable {t : Tree} {ok : CodePointSet → Prop} {w : List CodePoint} {anchored : Bool} {s e x : Nat}
  {u v : Spot}

/-! ## Where walks come by -/

/-- A match of a node begins in the course of a match of the root: in a sequence behind matches of
the terms before it, and in a loop behind the iterations that have been made. -/
inductive Begins (t : Tree) (w : List CodePoint) (anchored : Bool) : Nat → Nat → Prop
  | root {s : Nat} : Begins t w anchored t.root s
  | term {p c i s m : Nat} : (t.node p).kind = .sequence → (t.node p).children[i]? = some c →
      Begins t w anchored p s →
      t.Matches w anchored (.terms ((t.node p).children.toList.take i)) s m →
      Begins t w anchored c m
  | choice {p c s : Nat} {g : Group} : (t.node p).kind = .group g → g.loop = none →
      c ∈ (t.node p).children → Begins t w anchored p s → Begins t w anchored c s
  | round {p c s m : Nat} {g : Group} {isAgain : Bool} : (t.node p).kind = .group g →
      g.loop.isSome = true → c ∈ (t.node p).children → t.Admits g isAgain c →
      Begins t w anchored p s → s ≤ m →
      (∀ e, t.Matches w anchored (.rounds p isAgain) m e →
        t.Matches w anchored (.rounds p false) s e) → Begins t w anchored c m

theorem Begins.comesBy (h : t.Begins w anchored x s) : t.ComesBy w anchored x s := by
  induction h with
  | root => exact .root
  | term hkind hc _ hterms ih => exact .term hkind hc ih hterms
  | choice hkind _ hc _ ih => exact .alternative hkind hc ih (Nat.le_refl _)
  | round hkind _ hc _ _ hle _ ih => exact .alternative hkind hc ih hle

/-- What has been matched when a walk has come to a spot. -/
inductive Arrives (t : Tree) (w : List CodePoint) (anchored : Bool) : Spot → Nat → Prop
  | front {x s : Nat} : t.Begins w anchored x s → Arrives t w anchored (.front x) s
  | back {x s m : Nat} : t.Begins w anchored x s → t.Matches w anchored (.node x) s m →
      Arrives t w anchored (.back x) m
  | again {x s m : Nat} {g : Group} : (t.node x).kind = .group g → g.loop.isSome = true →
      t.Begins w anchored x s → s ≤ m →
      (∀ e, t.Matches w anchored (.rounds x true) m e →
        t.Matches w anchored (.rounds x false) s e) → Arrives t w anchored (.again x) m

theorem Regular.arrives_of_front (h : t.Regular ok) (hx : t.Begins w anchored x s)
    (hstep : t.Advance w anchored (.front x, s) (v, e)) : t.Arrives w anchored v e := by
  cases hstep with
  | read hreads hw => exact .back hx (.chars hreads hw)
  | move hmove hdollar =>
    cases hmove.onward_of_front with
    | first hkind hc => exact .front (.term hkind hc hx .nil)
    | skip hkind hnil =>
      refine .back hx (.sequence hkind ?_)
      rw [← Array.getElem?_toList, List.getElem?_eq_none_iff] at hnil
      rw [List.eq_nil_of_length_eq_zero (Nat.le_zero.1 hnil)]
      exact .nil
    | @choose _ c _ g hkind hc hadmits =>
      refine .front ?_
      cases hloop : g.loop with
      | none => exact .choice hkind hloop hc hx
      | some _ =>
        exact .round hkind (by rw [hloop]; rfl) hc hadmits hx (Nat.le_refl s) fun _ hm ↦ hm
    | caret hkind hstart =>
      obtain ⟨hanchored, rfl⟩ := hstart
      exact .back hx (.caret hkind hanchored)
    | dollar hkind =>
      obtain rfl : s = w.length := hdollar ⟨rfl, hkind⟩
      exact .back hx (.dollar hkind)
    | lookBehind hkind hprecedes => exact .back hx (.lookBehind hkind hprecedes)
    | marker hkind =>
      rcases h.inner (hx.comesBy.below_root h.forest) with hterm | hterm <;>
        (rw [hkind] at hterm; cases hterm)

theorem Arrives.of_again {g : Group} {m : Nat}
    (hkind : (t.node x).kind = .group g) (hloop : g.loop.isSome = true)
    (hx : t.Begins w anchored x s) (hle : s ≤ m)
    (hrounds : ∀ e, t.Matches w anchored (.rounds x true) m e →
      t.Matches w anchored (.rounds x false) s e)
    (hstep : t.Advance w anchored (.again x, m) (v, e)) : t.Arrives w anchored v e := by
  cases hstep with
  | read hreads _ =>
    obtain ⟨set, claim, hchars, -⟩ := hreads
    cases hkind.symm.trans hchars
  | move hmove _ =>
    cases hmove.onward_of_front with
    | choose hkind' hc hadmits =>
      cases hkind.symm.trans hkind'
      exact .front (.round hkind hloop hc hadmits hx hle hrounds)
    | first hkind' | skip hkind' | caret hkind' | dollar hkind' | lookBehind hkind'
    | marker hkind' => cases hkind.symm.trans hkind'

theorem Advance.of_alternative {p m : Nat} {g : Group} (hup : (t.node x).parent = some p)
    (hkind : (t.node p).kind = .group g) (hstep : t.Advance w anchored (.back x, m) (v, e)) :
    e = m ∧ (v = .again p ∧ g.loop.isSome = true ∧ (t.node x).isEmpty = false ∨
      v = .back p ∧ (g.loop.isSome = true → (t.node x).isEmpty = true)) := by
  cases hstep with
  | move hmove _ =>
    refine ⟨rfl, ?_⟩
    cases hmove with
    | again hrepeats =>
      obtain ⟨-, hup', ⟨g', hkind', hloop⟩, hempty⟩ := hrepeats
      obtain rfl := Option.some.inj (hup.symm.trans hup')
      cases hkind.symm.trans hkind'
      exact .inl ⟨rfl, hloop, hempty⟩
    | onward honward =>
      cases honward with
      | out hup' hkind' hempty =>
        obtain rfl := Option.some.inj (hup.symm.trans hup')
        cases hkind.symm.trans hkind'
        exact .inr ⟨rfl, hempty⟩
      | next hup' hkind' _ =>
        obtain rfl := Option.some.inj (hup.symm.trans hup')
        cases hkind.symm.trans hkind'
      | last hup' hkind' _ =>
        obtain rfl := Option.some.inj (hup.symm.trans hup')
        cases hkind.symm.trans hkind'

/-- From the end of a node: the match of its parent is behind the node, or it goes on there. From
the end of the root, there is only the place where a match is found. -/
theorem Regular.arrives_of_back (h : t.Regular ok) {m : Nat} (hx : t.Begins w anchored x s)
    (hm : t.Matches w anchored (.node x) s m)
    (hstep : t.Advance w anchored (.back x, m) (v, e)) :
    t.Arrives w anchored v e ∨ v = .front t.matchFound := by
  have hup : ∀ {c p : Nat}, c ∈ (t.node p).children → t.arena.Up c p := h.forest.up_of_mem
  cases hx with
  | root => exact .inr (hstep.of_follows h.matchFound_follows).1
  | @term p _ i s₀ _ hkind hc hp hterms =>
    obtain ⟨hparent, hindex⟩ := h.child hc
    have hsoFar : t.Matches w anchored (.terms ((t.node p).children.toList.take (i + 1))) s₀ m := by
      rw [List.take_add_one, Array.getElem?_toList, hc]
      exact hterms.concat hm
    left
    cases hstep with
    | move hmove _ =>
      cases hmove with
      | again hrepeats =>
        obtain ⟨-, hparent', ⟨g, hgroup, -⟩, -⟩ := hrepeats
        obtain rfl := Option.some.inj (hparent.symm.trans hparent')
        cases hkind.symm.trans hgroup
      | onward honward =>
        cases honward with
        | next hparent' _ hnext =>
          obtain rfl := Option.some.inj (hparent.symm.trans hparent')
          rw [hindex] at hnext
          exact .front (.term hkind hnext hp hsoFar)
        | last hparent' _ hnil =>
          obtain rfl := Option.some.inj (hparent.symm.trans hparent')
          rw [hindex, ← Array.getElem?_toList, List.getElem?_eq_none_iff] at hnil
          rw [List.take_of_length_le hnil] at hsoFar
          exact .back hp (.sequence hkind hsoFar)
        | out hparent' hgroup _ =>
          obtain rfl := Option.some.inj (hparent.symm.trans hparent')
          cases hkind.symm.trans hgroup
  | @choice p _ _ g hkind hloop hc hp =>
    obtain ⟨rfl, ⟨rfl, hloop', -⟩ | ⟨rfl, -⟩⟩ := hstep.of_alternative (hup hc) hkind
    · rw [hloop] at hloop'
      cases hloop'
    · exact .inl (.back hp (.choice hkind hloop hc hm))
  | @round p _ s₀ _ g r hkind hloop hc hadmits hp hle hrounds =>
    left
    obtain ⟨rfl, ⟨rfl, -, hempty⟩ | ⟨rfl, hempty⟩⟩ := hstep.of_alternative (hup hc) hkind
    · refine .again hkind hloop hp (Nat.le_trans hle hm.le) fun e hrest ↦ ?_
      exact hrounds e (.round hkind hloop hc hempty hm hrest)
    · have hempty := hempty hloop
      refine .back hp (.loop hkind hloop (hrounds _ ?_))
      exact .exit hkind (fun hplus ↦ hadmits hplus hempty) hc hempty hm

/-- **Walks from the front of the root come by where matches begin**, until they get to where a
match is found. -/
theorem Regular.arrives_of_walks (h : t.Regular ok)
    (hwalk : t.Walks w anchored (.front t.root, s) (v, e)) :
    t.Arrives w anchored v e ∨ v = .front t.matchFound := by
  induction hwalk using Walks.induction with
  | refl => exact .inl (.front .root)
  | step _ hstep ih =>
    rcases ih with hu | rfl
    · cases hu with
      | front hx => exact .inl (h.arrives_of_front hx hstep)
      | back hx hm => exact h.arrives_of_back hx hm hstep
      | again hkind hloop hx hle hrounds =>
        exact .inl (.of_again hkind hloop hx hle hrounds hstep)
    · exact absurd hstep h.not_advance_matchFound

/-! ## Carets at the start -/

theorem Regular.walks_of_start (h : t.Regular ok) {isAnchored : Bool}
    (hv : ∀ isAnchored lead, (t.node v.node).kind ≠ .marker isAnchored lead)
    (hwalk : t.Walks w anchored (.back (t.start isAnchored 0), s) (v, e)) :
    t.Walks w anchored (.front t.root, s) (v, e) := by
  have hkind : ∀ isAnchored, (t.node (t.start isAnchored 0)).kind = .marker isAnchored 0 :=
    fun _ ↦ h.start_kind (Nat.zero_le _)
  have htrue : t.Walks w anchored (.back (t.start true 0), s) (v, e) →
      t.Walks w anchored (.front t.root, s) (v, e) := by
    intro hwalk
    rcases hwalk.cases_head with heq | ⟨⟨u, m⟩, hstep, hrest⟩
    · cases heq
      exact absurd (hkind true) (hv _ _)
    · obtain ⟨rfl, rfl⟩ := hstep.of_follows h.root_follows
      exact hrest
  cases isAnchored with
  | true => exact htrue hwalk
  | false =>
    rcases hwalk.cases_head with heq | ⟨⟨u, m⟩, hfirst, hwalk₁⟩
    · cases heq
      exact absurd (hkind false) (hv _ _)
    obtain ⟨rfl, rfl⟩ := hfirst.of_follows (h.start_follows (Nat.zero_le _))
    rcases hwalk₁.cases_head with heq | ⟨⟨u, m⟩, hsecond, hwalk₂⟩
    · cases heq
      exact absurd (hkind true) (hv _ _)
    obtain ⟨rfl, rfl⟩ := hsecond.of_marker (hkind true)
    exact htrue hwalk₂

/-- **A caret that a walk comes by before it has read anything has no distance.** -/
theorem Finished.mem_carets_of_walks (h : t.Finished) {isAnchored r : Bool}
    (hkind : (t.node x).kind = .caret)
    (hwalk : t.Walks w anchored (.back (t.start isAnchored 0), 0) (⟨x, false, r⟩, 0)) :
    x ∈ t.carets := by
  have hwalk := h.regular.walks_of_start (fun _ _ ↦ by rw [hkind]; nofun) hwalk
  rcases h.regular.arrives_of_walks hwalk with harrives | hmatch
  · cases harrives with
    | front hx =>
      have hbelow := hx.comesBy.below_root h.regular.forest
      exact h.regular.mem_carets.2
        ⟨hkind, hbelow.trans h.regular.root_holds, Nat.le_zero.1 (h.minPath_le hx.comesBy)⟩
    | again hgroup => cases hkind.symm.trans hgroup
  · have hx : x = t.matchFound := congrArg Spot.node hmatch
    cases hkind.symm.trans (h.regular.matchFound_iff.2 hx)

/-! ## Steps from where a search starts -/

section start

variable {lead l c : Nat} {mustAdvance isAtStart : Bool} {p q : Path}

theorem Regular.contains_start (h : t.Regular ok) (hlead : lead ≤ t.leadLength)
    (hl : l ∈ t.lookBehinds) (hc : c ∈ t.body l) :
    (t.markers [t.start anchored lead]).contains c = false := by
  refine Bool.eq_false_iff.2 fun hheld ↦ ?_
  have heq := List.mem_singleton.1 (mem_markers.1 (IndexSet.contains_iff.1 hheld))
  obtain ⟨-, set, hset⟩ := h.body hl hc
  rw [heq, h.start_kind hlead] at hset
  cases hset

theorem Regular.holds_start (h : t.Regular ok) (hlead : lead ≤ t.leadLength)
    (hl : l ∈ t.lookBehinds) (n : Nat) :
    Path.holds (t.stance (t.markers [t.start anchored lead]) mustAdvance isAtStart) l n =
      (n == 0) := by
  have hnone : (t.body l).back?.any (t.markers [t.start anchored lead]).contains = false := by
    cases hback : (t.body l).back? with
    | none => rfl
    | some c => exact h.contains_start hlead hl (Array.mem_of_back? hback)
  exact (congrArg _ hnone).trans (Bool.or_false _)

/-- Where a search starts, the first class of each look-behind body is looked out for, and no
other. -/
theorem Regular.progress_start (h : t.Regular ok) (hlead : lead ≤ t.leadLength) :
    t.progress (t.markers [t.start true lead]) = t.progress (t.markers [t.start false lead]) := by
  refine List.flatMap_congr fun l hl ↦ List.filterMap_congr fun i hi ↦ ?_
  have hl := Array.mem_toList_iff.1 hl
  have hlt : i - 1 < (t.body l).size := Nat.lt_of_le_of_lt (Nat.sub_le i 1) (List.mem_range.1 hi)
  have hmem : (t.body l).getD (i - 1) 0 ∈ t.body l := by
    rw [Array.getD_eq_getD_getElem?, Array.getElem?_eq_getElem hlt, Option.getD_some]
    exact Array.getElem_mem hlt
  rw [h.contains_start hlead hl hmem, h.contains_start hlead hl hmem]

theorem next_of_follows {s : Stance} {x y : Nat} (hfollows : s.tree.arena.Follows x y) :
    (pathFrom x).next s = [(pathFrom x).inFrontOf y] := by
  obtain ⟨p, hup, hkind, hnext⟩ := hfollows
  have hup : (s.tree.node x).parent = some p := hup
  have hkind : (s.tree.node p).kind = .sequence := hkind
  have hnext : (s.tree.node p).children[(s.tree.node x).index + 1]? = some y := hnext
  simp only [Path.next, pathFrom, if_true, Path.leave, Path.leaveFor, hup, Option.bind_some, hkind,
    hnext, Option.toList_some]

theorem next_of_marker {s : Stance} {x y : Nat} {isAnchored : Bool}
    (hkind : (s.tree.node y).kind = .marker isAnchored lead) :
    ((pathFrom x).inFrontOf y).next s = [pathFrom y] := by
  simp only [Path.next, Path.inFrontOf, Bool.false_eq_true, if_false, Path.enter, hkind]
  rfl

/-- The marker of a search from anywhere stands in front of the other one of the same lead. -/
theorem Regular.deliveries_start (h : t.Regular ok) (hlead : lead ≤ t.leadLength)
    {held : MarkerSet} :
    (pathFrom (t.start false lead)).deliveries (t.stance held mustAdvance isAtStart) =
      (pathFrom (t.start true lead)).deliveries (t.stance held mustAdvance isAtStart) := by
  have hlt : ∀ anchored, t.start anchored lead < t.size := fun anchored ↦
    lt_size_of_origin (by rw [origin?, h.start_kind hlead])
  have hkind : ((t.stance held mustAdvance isAtStart).tree.node (t.start true lead)).kind =
      .marker true lead := h.start_kind hlead
  rw [Path.deliveries_eq h.forest h.fits (hlt false), next_of_follows (h.start_follows hlead),
    List.flatMap_singleton, Path.deliveries_eq h.forest h.fits (hlt true), next_of_marker hkind,
    List.flatMap_singleton]
  have hnone : ((pathFrom (t.start false lead)).inFrontOf (t.start true lead)).delivery?
      (t.stance held mustAdvance isAtStart) = none := by
    simp only [Path.delivery?, Path.arrival?, Path.inFrontOf, Bool.false_eq_true, if_false, hkind,
      Option.map_none]
  rw [hnone]
  rfl

theorem next_congr {held held' : MarkerSet} {isAtStart' : Bool}
    (hcaret : p.isLeaving = false → (t.node p.node).kind ≠ .caret)
    (hholds : ∀ n, p.isLeaving = false → (t.node p.node).kind = .lookBehind n →
      Path.holds (t.stance held mustAdvance isAtStart) p.node n =
        Path.holds (t.stance held' mustAdvance isAtStart') p.node n) :
    p.next (t.stance held mustAdvance isAtStart) =
      p.next (t.stance held' mustAdvance isAtStart') := by
  unfold Path.next
  split
  · rfl
  · next hfront =>
    rw [Bool.not_eq_true] at hfront
    unfold Path.enter
    dsimp only
    cases hkind : (t.node p.node).kind with
    | caret => exact absurd hkind (hcaret hfront)
    | lookBehind n => simp only [hholds n hfront hkind]
    | _ => rfl

/-- **Before a character has been read, it makes no difference whether carets hold** if there is
none in reach. -/
theorem Finished.deliveries_anchored (h : t.Finished) (hlead : lead ≤ t.leadLength)
    (hcarets : t.carets.isEmpty = true ∨ 1 ≤ lead) :
    (pathFrom (t.start true lead)).deliveries
        (t.stance (t.markers [t.start false lead]) mustAdvance false) =
      (pathFrom (t.start true lead)).deliveries
        (t.stance (t.markers [t.start true lead]) mustAdvance true) := by
  have hreg := h.regular
  cases lead with
  | succ lead =>
    -- the next class of the lead-in is where all paths end
    obtain ⟨x, hfirst, hkind, -⟩ := hreg.lead_follows hlead
    refine Path.deliveries_congr (P := fun q ↦ q = pathFrom (t.start true (lead + 1)) ∨
      q = (pathFrom (t.start true (lead + 1))).inFrontOf x) rfl ?_ (.inl rfl)
    rintro q (rfl | rfl)
    · rw [next_of_follows hfirst, next_of_follows hfirst]
      exact ⟨rfl, rfl, fun q hq ↦ .inr (List.mem_singleton.1 hq)⟩
    · have hend : ∀ {s : Stance}, s.tree = t →
          ((pathFrom (t.start true (lead + 1))).inFrontOf x).next s = [] := by
        rintro s rfl
        simp only [Path.next, Path.inFrontOf, Bool.false_eq_true, if_false, Path.enter, hkind]
      rw [hend rfl, hend rfl]
      exact ⟨rfl, rfl, List.forall_mem_nil _⟩
  | zero =>
    have hcarets : t.carets.isEmpty = true := hcarets.resolve_right (Nat.not_succ_le_zero 0)
    have hsource : (t.node (t.start false 0)).kind = .marker false 0 := hreg.start_kind hlead
    let s : Stance := t.stance (t.markers [t.start false 0]) mustAdvance false
    -- paths that have read nothing are walks through the empty text
    have hwalk : ∀ {q : Path}, Path.Continues s (pathFrom (t.start false 0)) q →
        q.isLeaving = false →
        ∃ r, t.Walks [] false (.back (t.start false 0), 0) (⟨q.node, false, r⟩, 0) := by
      intro q hq hfront
      have hstarts : t.Starts (t.markers [t.start false 0]) (t.start false 0) false :=
        .marker (mem_markers.2 (List.mem_singleton_self _)) hsource
      have hspot : q.spot = ⟨q.node, false, q.isReentry⟩ := by rw [Path.spot, hfront]
      refine (hreg.reaches_iff hsource (hreg.tracks_start hsource) rfl).1 ?_
      rcases hq.reaches hreg.fits rfl with ⟨-, hfree⟩ | ⟨-, d, hd, hfirst, hrest⟩
      · rw [hspot] at hfree
        exact .inl ⟨_, _, _, hstarts, hfree⟩
      · rw [hspot] at hrest
        exact .inr ⟨_, _, _, d, hstarts, hd, hfirst, hrest⟩
    have hmarker : Path.Continues s (pathFrom (t.start false 0)) (pathFrom (t.start true 0)) := by
      refine .head (b := (pathFrom (t.start false 0)).inFrontOf (t.start true 0)) ?_ (.single ?_)
      · rw [next_of_follows (hreg.start_follows hlead)]
        exact List.mem_singleton_self _
      · rw [next_of_marker (hreg.start_kind hlead)]
        exact List.mem_singleton_self _
    refine Path.deliveries_congr (P := Path.Continues s (pathFrom (t.start false 0))) rfl
      (fun q hq ↦ ⟨rfl, next_congr (fun hfront hcaret ↦ ?_) fun n hfront hkind ↦ ?_,
        fun q' hq' ↦ hq.tail hq'⟩) hmarker
    · obtain ⟨r, hr⟩ := hwalk hq hfront
      have hmem := h.mem_carets_of_walks hcaret hr
      rw [Array.isEmpty_iff.1 hcarets] at hmem
      exact Array.not_mem_empty _ hmem
    · obtain ⟨r, hr⟩ := hwalk hq hfront
      have hl := hreg.mem_lookBehinds.2 ⟨by rw [hkind]; rfl, hreg.holds_of_walks hsource hr⟩
      rw [hreg.holds_start hlead hl, hreg.holds_start hlead hl]

theorem Regular.reachesFreely_anchored (h : t.Regular ok) (hlead : lead ≤ t.leadLength)
    (hx : (t.node x).kind ≠ .marker true lead)
    (hreach : t.ReachesFreely (t.markers [t.start false lead]) x) :
    t.ReachesFreely (t.markers [t.start true lead]) x := by
  obtain ⟨marker, isAtStart, r, hstarts, hway⟩ := hreach
  have hkind : ∀ anchored, (t.node (t.start anchored lead)).kind = .marker anchored lead :=
    fun _ ↦ h.start_kind hlead
  obtain ⟨hheld, horigin⟩ := h.starts_iff.1 hstarts
  obtain rfl : marker = t.start false lead := List.mem_singleton.1 (mem_markers.1 hheld)
  obtain rfl : isAtStart = false := by
    rw [origin?, hkind false] at horigin
    exact (Option.some.inj horigin).symm
  -- the way passes the other marker
  rcases hway.cases_head with heq | ⟨u, ⟨hfirst, -⟩, hway⟩
  · cases heq
  obtain rfl := eq_of_move_follows (h.start_follows hlead) hfirst
  rcases hway.cases_head with heq | ⟨u, ⟨hsecond, -⟩, hway⟩
  · obtain rfl : t.start true lead = x := congrArg Spot.node heq
    exact absurd (hkind true) hx
  obtain rfl := eq_of_move_marker (hkind true) hsecond
  refine ⟨_, true, r, .marker (mem_markers.2 (List.mem_singleton_self _)) (hkind true), ?_⟩
  have hholds : t.Holds (t.start true lead) := h.start_holds hlead
  refine mono_of_holds (fun a b ha hab ↦ ?_) hholds hway
  refine ⟨⟨h.move_congr (fun l hl hpasses c hc ↦ ?_) (absurd · Bool.false_ne_true) ha hab.1, hab.2⟩,
    (h.holds_iff_of_move hab.1).2 ha⟩
  have hheld := hpasses c hc
  rw [h.contains_start hlead hl (Array.mem_of_back? hc)] at hheld
  cases hheld

theorem Regular.all_isFinal_eq_false_iff (h : t.Regular ok) {held : MarkerSet} :
    (t.firstWays held mustAdvance).all (·.isFinal t) = false ↔
      ∃ x, (t.node x).kind.isChars = true ∧ t.ReachesFreely held x := by
  rw [Bool.eq_false_iff, ne_eq, Array.all_eq_true_iff_forall_mem]
  constructor
  · intro hall
    by_contra hnone
    refine hall fun d hd ↦ ?_
    rw [h.isFinal_eq (h.mem_step_iff.2 (.inl hd)), Bool.not_eq_true']
    refine Bool.eq_false_iff.2 fun hchars ↦ hnone ⟨_, hchars, ?_⟩
    cases h.leads_of_mem_firstWays hd with
    | chars _ hreach => exact hreach
    | matchFound heq _ _ =>
      rw [heq, h.matchFound_iff.2 rfl] at hchars
      cases hchars
    | dollar hkind _ _ =>
      rw [hkind] at hchars
      cases hchars
  · rintro ⟨x, hchars, hreach⟩ hall
    obtain ⟨d, hd, rfl⟩ := h.exists_way_of_chars hchars hreach
    obtain ⟨e, he, hsame | ⟨-, hkind⟩⟩ := h.exists_firstWay hd
    · have hfinal := hall e he
      rw [h.isFinal_eq (h.mem_step_iff.2 (.inl he)), hsame, hchars] at hfinal
      cases hfinal
    · rw [hkind] at hchars
      cases hchars

theorem toList_markers_singleton : (t.markers [x]).toList = [x] := by
  have hmerge : IndexSet.mergeLists [] [x] = [x] := by rw [IndexSet.mergeLists]
  exact hmerge

/-- **Where a search starts makes no difference** with some of the lead-in in front of it, or if
there are no carets without a distance: then the steps from both markers are the same. In any case,
what can be read or found from anywhere can be from the start of the text. -/
theorem Finished.step_start (h : t.Finished) (hlead : lead ≤ t.leadLength) (mustAdvance : Bool) :
    (t.carets.isEmpty = true ∨ 1 ≤ lead →
      t.step (t.markers [t.start true lead]) mustAdvance =
        t.step (t.markers [t.start false lead]) mustAdvance) ∧
    ∀ d ∈ t.step (t.markers [t.start false lead]) mustAdvance,
      (t.node d.target).kind.isChars = true ∨ d.target = t.matchFound →
        ∃ e ∈ t.step (t.markers [t.start true lead]) mustAdvance, e.target = d.target := by
  have hreg := h.regular
  have hkind : ∀ anchored, (t.node (t.start anchored lead)).kind = .marker anchored lead :=
    fun _ ↦ hreg.start_kind hlead
  have hprogress := hreg.progress_start hlead
  have hreach : ∀ {x}, (t.node x).kind.isChars = true ∨ x = t.matchFound →
      t.ReachesFreely (t.markers [t.start false lead]) x →
      t.ReachesFreely (t.markers [t.start true lead]) x := by
    intro x hx
    refine hreg.reachesFreely_anchored hlead fun hmarker ↦ ?_
    rcases hx with hchars | hmatch
    · rw [hmarker] at hchars
      cases hchars
    · cases hmarker.symm.trans (hreg.matchFound_iff.2 hmatch)
  constructor
  · -- both walks deliver the same, as what sets them apart is passed by neither
    intro hcarets
    have hways : t.ways (t.markers [t.start true lead]) mustAdvance =
        t.ways (t.markers [t.start false lead]) mustAdvance := by
      have horigin : ∀ anchored, t.origin? (t.start anchored lead) = some anchored := fun _ ↦ by
        rw [origin?, hkind]
      rw [ways, ways, toList_markers_singleton, toList_markers_singleton, List.flatMap_singleton,
        List.flatMap_singleton, waysFrom, waysFrom, horigin, horigin]
      exact ((hreg.deliveries_start hlead).trans (h.deliveries_anchored hlead hcarets)).symm
    rw [step_eq_track_ways hreg.forest hreg.fits, step_eq_track_ways hreg.forest hreg.fits,
      track_eq, track_eq, firstWays, firstWays, hways, hprogress]
  · intro d hd htarget
    rcases hreg.mem_step_iff.1 hd with hd | ⟨hall, x, hx, rfl⟩
    · rcases htarget with hchars | hmatch
      · have hfree : t.ReachesFreely (t.markers [t.start false lead]) d.target := by
          cases hreg.leads_of_mem_firstWays hd with
          | chars _ hfree => exact hfree
          | matchFound _ _ hfree => exact hfree
          | dollar hdollar _ _ => rw [hdollar] at hchars; cases hchars
        exact (hreg.stepsCompletely.chars hchars fun l hl hbody ↦
          hreg.not_reachesFreely_of_mem_body hl hbody hfree).2 (hreach (.inl hchars) hfree)
      · have hmatch' := hreg.stepsCompletely.matchFound.1 ⟨d, hreg.mem_step_iff.2 (.inl hd), hmatch⟩
        obtain ⟨e, he, heq⟩ := hreg.stepsCompletely.matchFound.2
          (hmatch'.imp_right (hreach (.inr rfl)))
        exact ⟨e, he, heq.trans hmatch.symm⟩
    · -- progress is only made along with a class, and there is one to be reached from both
      refine ⟨{ target := x }, hreg.mem_step_iff.2 (.inr ⟨?_, x, hprogress ▸ hx, rfl⟩), rfl⟩
      obtain ⟨y, hchars, hy⟩ := hreg.all_isFinal_eq_false_iff.1 hall
      exact hreg.all_isFinal_eq_false_iff.2 ⟨y, hchars, hreach (.inl hchars) hy⟩

/-- `(?<=a)^b` has a caret without a distance, but also a lead. -/
theorem step_start_lookBehind :
    ∃ t, ofPattern {} (.ofString "(?<=a)^b") = .ok t ∧ t.carets.isEmpty = false ∧
      1 ≤ t.leadLength ∧ t.step (t.markers [t.start true 1]) false =
        t.step (t.markers [t.start false 1]) false := by
  obtain ⟨t, ht, hp⟩ := exists_ofPattern
    (fun t ↦ decide (t.carets.isEmpty = false ∧ 1 ≤ t.leadLength))
    (show (ofPattern {} (.ofString "(?<=a)^b")).toOption.any _ = true by decide +kernel)
  obtain ⟨hcarets, hlead⟩ := of_decide_eq_true hp
  exact ⟨t, ht, hcarets, hlead,
    (Finished.step_start (.ofPattern ht) hlead false).1 (.inr (Nat.le_refl 1))⟩

end start

end Tree

end PatternAutomata
