import PatternAutomata.Proofs.Automaton.Branches
import PatternAutomata.Proofs.Language.Walks

/-!
# Sets of markers keep track of walks

While characters are read one by one, the markers held say all about walks that can be said so far:
a class is held if a walk has just read it, and a class in the body of a look-behind assertion if
the body has just been matched up to it. Then the moves of the next step are those of the walks, as
look-behind assertions can be passed for the one just where they hold for the other. So the markers
that a character leads to keep track of walks in turn.
-/

namespace PatternAutomata

namespace Tree

variable {t : Tree} {ok : CodePointSet → Prop} {w : List CodePoint} {anchored : Bool}
  {k l j x y source : Nat} {held : MarkerSet} {u v : Spot}

/-- A look-behind body has just been matched, up to one of its classes. -/
structure Partway (t : Tree) (w : List CodePoint) (k l j : Nat) : Prop where
  lt : j < k
  reads : ∀ {i x : Nat}, i ≤ j → (t.body l)[i]? = some x →
    ∃ c, w[k - (j + 1) + i]? = some c ∧ t.Reads x c

/-- The markers held keep track of the walks that have read `k` characters. -/
structure Tracks (t : Tree) (w : List CodePoint) (anchored : Bool) (source k : Nat)
    (held : MarkerSet) : Prop where
  chars : ∀ {x set}, (t.node x).kind = .chars set none →
    (x ∈ held.members ↔ t.Walks w anchored (.back source, 0) (.back x, k))
  marker : ∀ {x lead isAnchored}, (t.node x).kind = .marker isAnchored lead →
    (x ∈ held.members ↔ k = 0 ∧ x = source)
  body : ∀ {l j x : Nat}, l ∈ t.lookBehinds → (t.body l)[j]? = some x →
    (x ∈ held.members ↔ t.Partway w k l j)

/-! ## Look-behind assertions -/

theorem precedes_iff_partway {n : Nat} (hsize : (t.body l).size = n + 1) :
    t.Precedes w k l ↔ t.Partway w k l n := by
  constructor
  · intro h
    refine ⟨by have := h.size_le; omega, fun {i x} hi hx ↦ ?_⟩
    have := h.reads hx
    rwa [hsize] at this
  · intro h
    refine ⟨by have := h.lt; omega, fun {i x} hx ↦ ?_⟩
    have hi := (Array.getElem?_eq_some_iff.1 hx).1
    rw [hsize]
    exact h.reads (by omega) hx

/-- **Look-behind assertions can be passed where they hold.** -/
theorem Tracks.passes_iff (h : t.Tracks w anchored source k held) (hl : l ∈ t.lookBehinds)
    {mustAdvance isAtStart : Bool} :
    (t.stance held mustAdvance isAtStart).Passes l ↔ t.Precedes w k l := by
  unfold Stance.Passes
  cases hsize : (t.body l).size with
  | zero =>
    have hempty : t.body l = #[] := Array.eq_empty_of_size_eq_zero hsize
    refine iff_of_true (fun c hc ↦ ?_) ⟨by omega, fun {i x} hx ↦ ?_⟩
    · have hc : (t.body l).back? = some c := hc
      rw [hempty] at hc
      cases hc
    · rw [hempty] at hx
      cases hx
  | succ n =>
    obtain ⟨last, hlast⟩ : ∃ x, (t.body l)[n]? = some x :=
      ⟨_, Array.getElem?_eq_getElem (by omega)⟩
    have hback : (t.body l).back? = some last := by
      rw [Array.back?_eq_getElem?, hsize]
      exact hlast
    rw [precedes_iff_partway hsize, ← h.body hl hlast, ← IndexSet.contains_iff]
    constructor
    · exact fun hpasses ↦ hpasses _ hback
    · intro hheld c hc
      obtain rfl := Option.some.inj (hback.symm.trans hc)
      exact hheld

/-! ## Moves and the whole tree -/

theorem Regular.move_congr (h : t.Regular ok) {passes passes' : Nat → Prop}
    {isAtStart isAtStart' : Prop} (hpasses : ∀ l ∈ t.lookBehinds, passes l → passes' l)
    (hstart : isAtStart → isAtStart') (hu : t.Holds u.node)
    (hmove : Move t passes isAtStart u v) : Move t passes' isAtStart' u v := by
  cases hmove with
  | again hrepeats => exact .again hrepeats
  | onward honward =>
    refine .onward ?_
    cases honward with
    | first hkind hc => exact .first hkind hc
    | skip hkind hnil => exact .skip hkind hnil
    | choose hkind hc hadmits => exact .choose hkind hc hadmits
    | caret hkind hs => exact .caret hkind (hstart hs)
    | dollar hkind => exact .dollar hkind
    | lookBehind hkind hp =>
      exact .lookBehind hkind (hpasses _ (h.mem_lookBehinds.2 ⟨by rw [hkind]; rfl, hu⟩) hp)
    | marker hkind => exact .marker hkind
    | next hparent hkind hc => exact .next hparent hkind hc
    | last hparent hkind hnil => exact .last hparent hkind hnil
    | out hparent hkind hempty => exact .out hparent hkind hempty

/-! ## Walks between two characters -/

/-- The moves of walks that have read `k` characters. -/
def MovesAt (t : Tree) (w : List CodePoint) (anchored : Bool) (k : Nat) (u v : Spot) : Prop :=
  Move t (t.Precedes w k) (anchored = true ∧ k = 0) u v ∧ (t.AtDollar u → k = w.length)

/-- A walk that has read `k` characters starts to move again from here: from where it has started,
or from the class that has read the last of them. -/
def Pauses (t : Tree) (w : List CodePoint) (anchored : Bool) (source k x : Nat) : Prop :=
  k = 0 ∧ x = source ∨
    (∃ set, (t.node x).kind = .chars set none) ∧ t.Walks w anchored (.back source, 0) (.back x, k)

theorem Pauses.walks (h : t.Pauses w anchored source k x) :
    t.Walks w anchored (.back source, 0) (.back x, k) := by
  rcases h with ⟨rfl, rfl⟩ | ⟨-, hwalk⟩
  · exact .refl
  · exact hwalk

theorem walks_of_moves (h : Relation.ReflTransGen (t.MovesAt w anchored k) u v) :
    t.Walks w anchored (u, k) (v, k) := by
  induction h with
  | refl => exact .refl
  | tail _ hmove ih => exact ih.tail (.move hmove.1 hmove.2)

theorem proper_of_walks (hwalk : t.Walks w anchored (.back source, 0) (v, k)) :
    t.Proper v := by
  induction hwalk using Walks.induction with
  | refl => exact nofun
  | step _ hstep ih => exact ih.advance hstep

section walks

variable {lead : Nat} (h : t.Regular ok) (hsource : (t.node source).kind = .marker anchored lead)
include h hsource

theorem Regular.holds_of_walks (hwalk : t.Walks w anchored (.back source, 0) (v, k)) :
    t.Holds v.node := by
  induction hwalk using Walks.induction with
  | refl =>
    obtain ⟨hlead, heq⟩ := h.marker hsource
    rw [heq]
    exact h.start_holds hlead
  | step _ hstep ih =>
    cases hstep with
    | move hmove _ => exact (h.holds_iff_of_move hmove).2 ih
    | read => exact ih

theorem Regular.not_below_of_walks (hl : l ∈ t.lookBehinds)
    (hwalk : t.Walks w anchored (.back source, 0) (v, k)) :
    ¬(t.arena.Below v.node l ∧ v.node ≠ l) := by
  induction hwalk using Walks.induction with
  | refl =>
    rintro ⟨hbelow, hne⟩
    rcases h.below_lookBehind hbelow (h.mem_lookBehinds.1 hl).1 with
      heq | hgroup | hsequence | hbody
    · exact hne heq
    · rw [hsource] at hgroup
      cases hgroup
    · rw [hsource] at hsequence
      cases hsequence
    · obtain ⟨-, set, hset⟩ := h.body hl hbody
      cases hsource.symm.trans hset
  | step _ hstep ih =>
    cases hstep with
    | move hmove _ =>
      exact fun hv ↦ ih (move_properly_below h.forest (h.mem_lookBehinds.1 hl).1 hmove hv)
    | read => exact ih

theorem Regular.claim_eq_none_of_walks {x : Nat} {r b : Bool} {set : CodePointSet}
    {claim : Option Nat} (hwalk : t.Walks w anchored (.back source, 0) (⟨x, b, r⟩, k))
    (hkind : (t.node x).kind = .chars set claim) : claim = none := by
  cases claim with
  | none => rfl
  | some l =>
    obtain ⟨hl, hbody⟩ := h.claims hkind
    exact absurd (h.body hl hbody).1 (h.not_below_of_walks hsource hl hwalk)

/-- **What a walk does after the last character.** -/
theorem Regular.exists_pauses (hwalk : t.Walks w anchored (.back source, 0) (v, k)) :
    ∃ x, t.Pauses w anchored source k x ∧
      Relation.ReflTransGen (t.MovesAt w anchored k) (.back x) v := by
  induction hwalk using Walks.induction with
  | refl => exact ⟨source, .inl ⟨rfl, rfl⟩, .refl⟩
  | step hprevious hstep ih =>
    have hwalk := hprevious.tail hstep
    obtain ⟨x, hx, hmoves⟩ := ih
    cases hstep with
    | move hmove hdollar => exact ⟨x, hx, hmoves.tail ⟨hmove, hdollar⟩⟩
    | @read id _ c r hreads _ =>
      obtain ⟨set, claim, hkind, -⟩ := hreads
      obtain rfl := h.claim_eq_none_of_walks hsource hwalk hkind
      exact ⟨id, .inr ⟨⟨set, hkind⟩, hwalk⟩, .refl⟩

end walks

theorem walks_back_iff {set : CodePointSet} {claim : Option Nat}
    (hkind : (t.node x).kind = .chars set claim) (hne : x ≠ source) :
    t.Walks w anchored (.back source, 0) (.back x, k) ↔ ∃ s c r, k = s + 1 ∧ w[s]? = some c ∧
      c ∈ set ∧ t.Walks w anchored (.back source, 0) (⟨x, false, r⟩, s) := by
  constructor
  · intro hwalk
    rcases hwalk.cases_tail with heq | ⟨⟨u, s⟩, hprevious, hstep⟩
    · exact absurd (congrArg (fun config ↦ config.1.node) heq) hne
    cases hstep with
    | @read _ _ c r hreads hc =>
      obtain ⟨set', claim', hkind', hmem⟩ := hreads
      cases hkind.symm.trans hkind'
      exact ⟨s, c, r, rfl, hc, hmem, hprevious⟩
    | move hmove _ =>
      cases hmove with
      | onward honward =>
        cases honward with
        | skip hkind' | caret hkind' | dollar hkind' | lookBehind hkind' | marker hkind'
        | last _ hkind' | out _ hkind' => cases hkind.symm.trans hkind'
  · rintro ⟨s, c, r, rfl, hc, hmem, hwalk⟩
    exact hwalk.tail (.read ⟨set, claim, hkind, hmem⟩ hc)

/-! ## Steps and walks -/

theorem mono_of_holds {r r' : Spot → Spot → Prop}
    (hr : ∀ a b, t.Holds a.node → r a b → r' a b ∧ t.Holds b.node) (hu : t.Holds u.node)
    (h : Relation.ReflTransGen r u v) : Relation.ReflTransGen r' u v := by
  have key : Relation.ReflTransGen r' u v ∧ t.Holds v.node := by
    induction h with
    | refl => exact ⟨.refl, hu⟩
    | tail _ hab ih => exact ⟨ih.1.tail (hr _ _ ih.2 hab).1, (hr _ _ ih.2 hab).2⟩
  exact key.1

theorem freely_or_across_of_reaches {s : Stance} (h : s.Reaches u v) :
    s.ReachesFreely u v ∨ ∃ d, s.tree.AtDollar d ∧ s.Reaches u d ∧ s.Reaches d v := by
  induction h with
  | refl => exact .inl .refl
  | @tail a b hua hab ih =>
    rcases ih with hfree | ⟨d, hd, hud, hda⟩
    · by_cases hat : s.tree.AtDollar a
      · exact .inr ⟨a, hat, hua, .single hab⟩
      · exact .inl (hfree.tail ⟨hab, hat⟩)
    · exact .inr ⟨d, hd, hud, hda.tail hab⟩

section tracks

variable {lead : Nat} (h : t.Regular ok) (hsource : (t.node source).kind = .marker anchored lead)
  (ht : t.Tracks w anchored source k held)
include h hsource ht

theorem Regular.pauses_of_starts {isAtStart : Bool} (hstarts : t.Starts held x isAtStart) :
    t.Pauses w anchored source k x ∧ (isAtStart = true ↔ anchored = true ∧ k = 0) := by
  cases hstarts with
  | @chars set claim hheld hkind hout =>
    cases claim with
    | some l => exact absurd (h.claims hkind).2 (hout l (h.claims hkind).1)
    | none =>
      have hwalk := (ht.chars hkind).1 hheld
      have hne : x ≠ source := by
        rintro rfl
        cases hkind.symm.trans hsource
      obtain ⟨s, -, -, rfl, -⟩ := (walks_back_iff hkind hne).1 hwalk
      exact ⟨.inr ⟨⟨set, hkind⟩, hwalk⟩, iff_of_false Bool.false_ne_true (by simp)⟩
  | marker hheld hkind =>
    obtain ⟨rfl, rfl⟩ := (ht.marker hkind).1 hheld
    cases hkind.symm.trans hsource
    exact ⟨.inl ⟨rfl, rfl⟩, by simp⟩

theorem Regular.starts_of_pauses (hpauses : t.Pauses w anchored source k x) :
    ∃ isAtStart, t.Starts held x isAtStart := by
  rcases hpauses with ⟨rfl, rfl⟩ | ⟨⟨set, hkind⟩, hwalk⟩
  · exact ⟨anchored, .marker ((ht.marker hsource).2 ⟨rfl, rfl⟩) hsource⟩
  · refine ⟨false, .chars ((ht.chars hkind).2 hwalk) hkind fun l hl hbody ↦ ?_⟩
    obtain ⟨-, set', hset⟩ := h.body hl hbody
    cases hkind.symm.trans hset

omit hsource in
theorem Regular.move_iff {isAtStart : Bool} (hstart : isAtStart = true ↔ anchored = true ∧ k = 0)
    (hu : t.Holds u.node) : (t.stance held false isAtStart).Move u v ↔
      Move t (t.Precedes w k) (anchored = true ∧ k = 0) u v :=
  ⟨h.move_congr (fun _ hl ↦ (ht.passes_iff hl).1) hstart.1 hu,
    h.move_congr (fun _ hl ↦ (ht.passes_iff hl).2) hstart.2 hu⟩

theorem Regular.walks_of_starts {isAtStart r : Bool} (hstarts : t.Starts held x isAtStart)
    (hway : Relation.ReflTransGen (fun a b ↦
      (t.stance held false isAtStart).Move a b ∧ (t.AtDollar a → k = w.length))
        (.back x) ⟨y, false, r⟩) :
    t.Walks w anchored (.back source, 0) (⟨y, false, r⟩, k) := by
  obtain ⟨hpauses, hstart⟩ := h.pauses_of_starts hsource ht hstarts
  have hholds := h.holds_of_walks hsource hpauses.walks
  refine hpauses.walks.trans (walks_of_moves (mono_of_holds ?_ hholds hway))
  rintro a b ha ⟨hmove, hat⟩
  exact ⟨⟨(h.move_iff ht hstart ha).1 hmove, hat⟩, (h.holds_iff_of_move hmove).2 ha⟩

/-- From where a walk pauses last, a step goes the rest of the way. -/
theorem Regular.exists_starts {r : Bool}
    (hwalk : t.Walks w anchored (.back source, 0) (⟨y, false, r⟩, k)) :
    ∃ x isAtStart, t.Starts held x isAtStart ∧ Relation.ReflTransGen (fun a b ↦
      (t.stance held false isAtStart).Move a b ∧ (t.AtDollar a → k = w.length))
        (.back x) ⟨y, false, r⟩ := by
  obtain ⟨x, hpauses, hway⟩ := h.exists_pauses hsource hwalk
  obtain ⟨isAtStart, hstarts⟩ := h.starts_of_pauses hsource ht hpauses
  have hstart := (h.pauses_of_starts hsource ht hstarts).2
  have hholds := h.holds_of_walks hsource hpauses.walks
  refine ⟨x, isAtStart, hstarts, mono_of_holds ?_ hholds hway⟩
  rintro a b ha ⟨hmove, hat⟩
  exact ⟨⟨(h.move_iff ht hstart ha).2 hmove, hat⟩, (h.holds_iff_of_move hmove).2 ha⟩

/-- **Before the end of the text, steps reach what walks do.** -/
theorem Regular.reachesFreely_iff (hk : k < w.length) : t.ReachesFreely held y ↔
    ∃ r, t.Walks w anchored (.back source, 0) (⟨y, false, r⟩, k) := by
  constructor
  · rintro ⟨x, isAtStart, r, hstarts, hway⟩
    refine ⟨r, h.walks_of_starts hsource ht hstarts (Relation.ReflTransGen.mono ?_ _ _ hway)⟩
    exact fun a b hab ↦ ⟨hab.1, fun hat ↦ absurd hat hab.2⟩
  · rintro ⟨r, hwalk⟩
    obtain ⟨x, isAtStart, hstarts, hway⟩ := h.exists_starts hsource ht hwalk
    refine ⟨x, isAtStart, r, hstarts, Relation.ReflTransGen.mono ?_ _ _ hway⟩
    exact fun a b hab ↦ ⟨hab.1, fun hat ↦ Nat.ne_of_lt hk (hab.2 hat)⟩

/-- **At the end of the text, steps reach what walks do**, one way or the other. -/
theorem Regular.reaches_iff (hk : k = w.length) :
    (t.ReachesFreely held y ∨ t.ReachesAcross held y) ↔
      ∃ r, t.Walks w anchored (.back source, 0) (⟨y, false, r⟩, k) := by
  constructor
  · rintro (⟨x, isAtStart, r, hstarts, hway⟩ | ⟨x, isAtStart, r, d, hstarts, -, hfirst, hrest⟩)
    · refine ⟨r, h.walks_of_starts hsource ht hstarts (Relation.ReflTransGen.mono ?_ _ _ hway)⟩
      exact fun _ _ hab ↦ ⟨hab.1, fun _ ↦ hk⟩
    · refine ⟨r, h.walks_of_starts hsource ht hstarts
        (Relation.ReflTransGen.mono ?_ _ _ (hfirst.trans hrest))⟩
      exact fun _ _ hmove ↦ ⟨hmove, fun _ ↦ hk⟩
  · rintro ⟨r, hwalk⟩
    obtain ⟨x, isAtStart, hstarts, hway⟩ := h.exists_starts hsource ht hwalk
    have hreaches : (t.stance held false isAtStart).Reaches (.back x) ⟨y, false, r⟩ :=
      Relation.ReflTransGen.mono (fun _ _ hab ↦ hab.1) _ _ hway
    rcases freely_or_across_of_reaches hreaches with hfree | ⟨d, hd, hfirst, hrest⟩
    · exact .inl ⟨x, isAtStart, r, hstarts, hfree⟩
    · exact .inr ⟨x, isAtStart, r, d, hstarts, hd, hfirst, hrest⟩

end tracks

/-! ## Reading a character -/

theorem reads_iff_mem {d : Successor} {c : CodePoint} {set : CodePointSet} {claim : Option Nat}
    (hkind : (t.node d.target).kind = .chars set claim) : d.reads t c = true ↔ c ∈ set := by
  rw [Successor.reads, Successor.isFinal, isFinal, Successor.chars, hkind]
  exact decide_eq_true_iff

/-- A body has been matched up to a class when it has been matched up to the one before, and the
class reads the next character. -/
theorem partway_succ_iff {c : CodePoint} (hx : (t.body l)[j]? = some x) (hc : w[k]? = some c) :
    t.Partway w (k + 1) l j ↔ (j = 0 ∨ t.Partway w k l (j - 1)) ∧ t.Reads x c := by
  constructor
  · intro h
    have hlt := h.lt
    have hlast := h.reads (Nat.le_refl j) hx
    rw [show k + 1 - (j + 1) + j = k by omega, hc] at hlast
    obtain ⟨c', hc', hreads⟩ := hlast
    obtain rfl := Option.some.inj hc'
    refine ⟨or_iff_not_imp_left.2 fun hj ↦ ⟨by omega, fun {i y} hi hy ↦ ?_⟩, hreads⟩
    have hearlier := h.reads (by omega : i ≤ j) hy
    rwa [show k + 1 - (j + 1) + i = k - (j - 1 + 1) + i by omega] at hearlier
  · rintro ⟨hearlier, hreads⟩
    have hlt : j < k + 1 := by
      rcases hearlier with rfl | hearlier
      · omega
      · have := hearlier.lt
        omega
    refine ⟨hlt, fun {i y} hi hy ↦ ?_⟩
    rcases Nat.lt_or_eq_of_le hi with hi | rfl
    · obtain ⟨c', hc', hreads'⟩ :=
        (hearlier.resolve_left (by omega)).reads (by omega : i ≤ j - 1) hy
      rw [show k - (j - 1 + 1) + i = k + 1 - (j + 1) + i by omega] at hc'
      exact ⟨c', hc', hreads'⟩
    · obtain rfl := Option.some.inj (hx.symm.trans hy)
      exact ⟨c, by rw [show k + 1 - (i + 1) + i = k by omega, hc], hreads⟩

/-- A class of a body is looked out for at its first class, and when the class before is held. -/
theorem Regular.mem_progress_iff (h : t.Regular ok) (hl : l ∈ t.lookBehinds)
    (hx : (t.body l)[j]? = some x) : x ∈ t.progress held ↔
      j = 0 ∨ ∃ y, (t.body l)[j - 1]? = some y ∧ y ∈ held.members := by
  have hcondition : ((j = 0 || held.contains ((t.body l).getD (j - 1) 0)) = true) ↔
      j = 0 ∨ ∃ y, (t.body l)[j - 1]? = some y ∧ y ∈ held.members := by
    have hlt : j - 1 < (t.body l).size := by
      have := (Array.getElem?_eq_some_iff.1 hx).1
      omega
    rw [Bool.or_eq_true, decide_eq_true_iff, Array.getD_eq_getD_getElem?,
      Array.getElem?_eq_getElem hlt, Option.getD_some, MarkerSet.contains, IndexSet.contains_iff]
    simp
  rw [← hcondition]
  constructor
  · intro hmem
    obtain ⟨l', hl', hmem⟩ := List.mem_flatMap.1 hmem
    have hl' := Array.mem_toList_iff.1 hl'
    obtain ⟨-, set, hset⟩ := h.body hl (Array.mem_of_getElem? hx)
    obtain ⟨-, set', hset'⟩ := h.body hl' (mem_body_of_mem_bodyProgress hmem)
    cases hset.symm.trans hset'
    obtain ⟨i, -, hi⟩ := List.mem_filterMap.1 hmem
    split at hi
    · next hok =>
      obtain rfl : i = j := (h.forest.child hi).2.symm.trans (h.forest.child hx).2
      exact hok
    · cases hi
  · intro hok
    refine List.mem_flatMap.2 ⟨l, Array.mem_toList_iff.2 hl, List.mem_filterMap.2 ⟨j, ?_, ?_⟩⟩
    · exact List.mem_range.2 (Array.getElem?_eq_some_iff.1 hx).1
    · rw [if_pos hok, hx]

theorem Regular.exists_target_iff_of_body (h : t.Regular ok) {mustAdvance : Bool}
    (hall : (t.firstWays held mustAdvance).all (·.isFinal t) = false) (hl : l ∈ t.lookBehinds)
    (hx : x ∈ t.body l) :
    (∃ d ∈ t.step held mustAdvance, d.target = x) ↔ x ∈ t.progress held := by
  obtain ⟨-, set, hset⟩ := h.body hl hx
  constructor
  · rintro ⟨d, hd, rfl⟩
    rcases h.mem_step_iff.1 hd with hd | ⟨-, y, hy, rfl⟩
    · cases h.leads_of_mem_firstWays hd with
      | chars _ hreach => exact absurd hreach (h.not_reachesFreely_of_mem_body hl hx)
      | matchFound hmatch _ _ => cases hset.symm.trans (h.matchFound_iff.2 hmatch)
      | dollar hdollar _ _ => cases hset.symm.trans hdollar
    · exact hy
  · exact fun hmem ↦ ⟨{ target := x }, h.mem_step_iff.2 (.inr ⟨hall, x, hmem, rfl⟩), rfl⟩

section step

variable {lead : Nat} {mustAdvance : Bool} {b : Branch} {c : CodePoint}
  (h : t.Regular t.encoding.Fits) (hsource : (t.node source).kind = .marker anchored lead)
  (ht : t.Tracks w anchored source k held)
include h hsource ht

theorem Regular.exists_target_iff (hk : k < w.length) {set : CodePointSet}
    (hkind : (t.node x).kind = .chars set none) :
    (∃ d ∈ t.step held mustAdvance, d.target = x) ↔
      ∃ r, t.Walks w anchored (.back source, 0) (⟨x, false, r⟩, k) := by
  have hout : ∀ l ∈ t.lookBehinds, x ∉ t.body l := by
    intro l hl hbody
    obtain ⟨-, set', hset⟩ := h.body hl hbody
    cases hkind.symm.trans hset
  rw [h.stepsCompletely.chars (by rw [hkind]; rfl) hout]
  exact h.reachesFreely_iff hsource ht hk

omit hsource ht in
/-- Where a branch reads, the step leads on, so classes of bodies are listed as well. -/
theorem Regular.exists_not_isFinal (hb : b ∈ t.branches (held, mustAdvance)) (hreads : b.Reads c) :
    (t.firstWays held mustAdvance).all (·.isFinal t) = false := by
  obtain ⟨d, hd, hdreads, -⟩ :=
    (h.exact_branches (held, mustAdvance)).reads_iff.1 ⟨b, hb, hreads⟩
  rcases h.mem_step_iff.1 hd with hd | ⟨hall, -⟩
  · rw [Successor.reads, Bool.and_eq_true, Bool.not_eq_true'] at hdreads
    refine Bool.eq_false_iff.2 fun hall ↦ ?_
    rw [Array.all_eq_true_iff_forall_mem] at hall
    exact Bool.noConfusion ((hall d hd).symm.trans hdreads.1)
  · exact hall

omit hsource in
/-- The classes of a body are held as far as the body has been matched. -/
theorem Regular.mem_progress_and_reads_iff (hc : w[k]? = some c) (hl : l ∈ t.lookBehinds)
    (hx : (t.body l)[j]? = some x) {set : CodePointSet} {claim : Option Nat}
    (hset : (t.node x).kind = .chars set claim) :
    x ∈ t.progress held ∧ c ∈ set ↔ t.Partway w (k + 1) l j := by
  rw [h.mem_progress_iff hl hx, partway_succ_iff hx hc]
  refine and_congr (or_congr_right ?_) ?_
  · obtain ⟨y, hy⟩ : ∃ y, (t.body l)[j - 1]? = some y := by
      have := (Array.getElem?_eq_some_iff.1 hx).1
      exact ⟨_, Array.getElem?_eq_getElem (by omega)⟩
    rw [← ht.body hl hy]
    constructor
    · rintro ⟨y', hy', hheld⟩
      rwa [Option.some.inj (hy.symm.trans hy')]
    · exact fun hheld ↦ ⟨y, hy, hheld⟩
  · constructor
    · exact fun hmem ↦ ⟨set, claim, hset, hmem⟩
    · rintro ⟨set', claim', hkind, hmem⟩
      cases hset.symm.trans hkind
      exact hmem

/-- **Reading a character keeps track.** -/
theorem Regular.tracks_targetOf (hb : b ∈ t.branches (held, mustAdvance)) (hc : w[k]? = some c)
    (hreads : b.Reads c) :
    t.Tracks w anchored source (k + 1) (t.targetOf (held, mustAdvance) b) := by
  have hk : k < w.length := (List.getElem?_eq_some_iff.1 hc).1
  have hmem : ∀ {x set claim}, (t.node x).kind = .chars set claim →
      (x ∈ (t.targetOf (held, mustAdvance) b).members ↔
        (∃ d ∈ t.step held mustAdvance, d.target = x) ∧ c ∈ set) := by
    intro x set claim hkind
    rw [h.mem_targetOf_iff hb hreads (by rw [hkind]; rfl)]
    constructor
    · rintro ⟨d, hd, rfl, hreads⟩
      exact ⟨⟨d, hd, rfl⟩, (reads_iff_mem hkind).1 hreads⟩
    · rintro ⟨⟨d, hd, rfl⟩, hset⟩
      exact ⟨d, hd, rfl, (reads_iff_mem hkind).2 hset⟩
  refine ⟨fun {x set} hkind ↦ ?_, fun {x lead' isAnchored} hkind ↦ ?_, fun {l j x} hl hx ↦ ?_⟩
  · have hne : x ≠ source := by
      rintro rfl
      cases hkind.symm.trans hsource
    rw [hmem hkind, walks_back_iff hkind hne, h.exists_target_iff hsource ht hk hkind]
    constructor
    · rintro ⟨⟨r, hwalk⟩, hset⟩
      exact ⟨k, c, r, rfl, hc, hset, hwalk⟩
    · rintro ⟨s, c', r, hs, hc', hset, hwalk⟩
      obtain rfl := Nat.succ.inj hs
      obtain rfl := Option.some.inj (hc.symm.trans hc')
      exact ⟨⟨r, hwalk⟩, hset⟩
  · refine iff_of_false (fun hheld ↦ ?_) (fun hzero ↦ Nat.succ_ne_zero k hzero.1)
    rw [h.mem_targetOf_iff hb hreads (by rw [hkind]; rfl)] at hheld
    obtain ⟨d, hd, rfl, -⟩ := hheld
    rcases h.stepsCompletely.target d hd with hchars | hmatch | hdollar
    · rw [hkind] at hchars
      cases hchars
    · cases hkind.symm.trans (h.matchFound_iff.2 hmatch)
    · cases hkind.symm.trans hdollar
  · obtain ⟨-, set, hset⟩ := h.body hl (Array.mem_of_getElem? hx)
    rw [hmem hset, h.exists_target_iff_of_body (h.exists_not_isFinal hb hreads) hl
      (Array.mem_of_getElem? hx)]
    exact h.mem_progress_and_reads_iff ht hc hl hx hset

theorem Regular.exists_branch_of_walks (hc : w[k]? = some c) {set : CodePointSet}
    (hkind : (t.node x).kind = .chars set none) (hmem : c ∈ set) {r : Bool}
    (hwalk : t.Walks w anchored (.back source, 0) (⟨x, false, r⟩, k)) :
    ∃ b ∈ t.branches (held, mustAdvance), b.Reads c := by
  have hk : k < w.length := (List.getElem?_eq_some_iff.1 hc).1
  obtain ⟨d, hd, rfl⟩ : ∃ d ∈ t.step held mustAdvance, d.target = x :=
    (h.exists_target_iff hsource ht hk hkind).2 ⟨r, hwalk⟩
  refine (h.exact_branches (held, mustAdvance)).reads_iff.2
    ⟨d, hd, (reads_iff_mem hkind).2 hmem, ?_⟩
  rw [Successor.isProgress, lookBehindOf, hkind]
  rfl

/-- **At the end of the text, a match is found where walks find one.** -/
theorem Regular.exists_final_branch_iff (hk : k = w.length) :
    (∃ b ∈ t.branches (held, mustAdvance), b.isFinal = true) ↔
      mustAdvance = false ∧ t.Finds w anchored (.back source) 0 := by
  have hsteps : t.StepsCompletely held mustAdvance (t.step held mustAdvance) := h.stepsCompletely
  have hfinds : (∃ r, t.Walks w anchored (.back source, 0) (⟨t.matchFound, false, r⟩, k)) ↔
      t.Finds w anchored (.back source) 0 := by
    subst hk
    refine ⟨fun ⟨r, hwalk⟩ ↦ ?_, fun hwalk ↦ ⟨false, hwalk⟩⟩
    have hr := (proper_of_walks hwalk).isReentry_eq_false
      (.inr (by rw [h.matchFound_iff.2 rfl]; rfl))
    subst hr
    exact hwalk
  rw [← hfinds, ← h.reaches_iff hsource ht hk]
  constructor
  · rintro ⟨b, hb, hfinal⟩
    obtain ⟨i, d, hd, hdfinal, -⟩ := ((h.exact_branches _).final hfinal).1 hb
    have hd := Array.mem_of_getElem? hd
    rw [h.isFinal_eq hd, Bool.not_eq_true'] at hdfinal
    -- at the end of the text a dollar is as good as the place where a match is found
    rcases hsteps.target d hd with hchars | hmatch | hdollar
    · rw [hchars] at hdfinal
      cases hdfinal
    · exact (hsteps.matchFound.1 ⟨d, hd, hmatch⟩).imp_right .inl
    · exact (hsteps.dollar d hd hdollar).imp_right .inr
  · rintro ⟨rfl, hreach⟩
    have hexists : ∃ d ∈ t.step held false, d.target = t.matchFound ∨
        (t.node d.target).kind = .dollar := by
      rcases hreach with hfree | hacross
      · obtain ⟨d, hd, hmatch⟩ := hsteps.matchFound.2 ⟨rfl, hfree⟩
        exact ⟨d, hd, .inl hmatch⟩
      · exact hsteps.across rfl hacross
    obtain ⟨d, hd, hend⟩ := hexists
    obtain ⟨i, hi⟩ := Array.mem_iff_getElem?.1 hd
    have hdfinal : d.isFinal t = true := by
      rw [h.isFinal_eq hd]
      rcases hend with hmatch | hdollar
      · rw [h.matchFound_iff.2 hmatch]
        rfl
      · rw [hdollar]
        rfl
    exact ⟨_, ((h.exact_branches (held, false)).final rfl).2 ⟨i, d, hi, hdfinal, rfl⟩, rfl⟩

end step

end Tree

end PatternAutomata
