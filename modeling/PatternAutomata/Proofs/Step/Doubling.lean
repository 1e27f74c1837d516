import PatternAutomata.Proofs.Step.Reentry

/-!
# Loops in a row

A context knows which loops cannot be started again, so two paths that have come through the same
loops, one with an idle iteration and one without, go on in two contexts. Of loops that stand in
a row each one doubles their number: a walk sees as many contexts as there are sets of these loops.
-/

namespace PatternAutomata

namespace Stance

/-- A node can be crossed without reading a character or starting a loop again. -/
def Crosses (s : Stance) (x : Nat) : Prop :=
  Relation.ReflTransGen s.Onward (.front x) (.back x)

/-- A path can come through a loop with an idle iteration or without one. -/
structure IdlesFreely (s : Stance) (loop : Nat) : Prop where
  crosses : s.Crosses loop
  idles : ∃ body, Repeats s.tree (.back body) loop ∧
    Relation.ReflTransGen s.Onward (.front loop) (.back body)
  leaves : Relation.ReflTransGen s.Onward (.again loop) (.back loop)

variable {s : Stance} {x loop : Nat}

theorem crosses_dollar (hkind : (s.tree.node x).kind = .dollar) : s.Crosses x :=
  .single (.dollar hkind)

theorem crosses_sequence (hforest : s.tree.arena.Forest)
    (hkind : (s.tree.node x).kind = .sequence) (h : ∀ c ∈ (s.tree.node x).children, s.Crosses c) :
    s.Crosses x := by
  -- from the front of a term on
  have hterms : ∀ n i c, (s.tree.node x).children.size = i + n →
      (s.tree.node x).children[i]? = some c →
      Relation.ReflTransGen s.Onward (.front c) (.back x) := by
    intro n
    induction n with
    | zero =>
      intro i c hsize hc
      rw [Array.getElem?_eq_none (by omega)] at hc
      cases hc
    | succ n ih =>
      intro i c hsize hc
      obtain ⟨hup, hindex⟩ : (s.tree.node c).parent = some x ∧ (s.tree.node c).index = i :=
        hforest.child hc
      refine (h c (Array.mem_of_getElem? hc)).trans ?_
      cases hnext : (s.tree.node x).children[i + 1]? with
      | none => exact .single (.last hup hkind (hindex ▸ hnext))
      | some d => exact .head (.next hup hkind (hindex ▸ hnext)) (ih (i + 1) d (by omega) hnext)
  cases hfirst : (s.tree.node x).children[0]? with
  | none => exact .single (.skip hkind hfirst)
  | some c => exact .head (.first hkind hfirst) (hterms _ 0 c (Nat.zero_add _).symm hfirst)

/-- A loop that need not run idles freely if one of its iterations can be crossed. -/
theorem idlesFreely_of_star (hforest : s.tree.arena.Forest)
    {g : Group} (hkind : (s.tree.node loop).kind = .group g) (hloop : g.loop = some .star)
    {body exit : Nat} (hbody : body ∈ (s.tree.node loop).children)
    (hnonempty : (s.tree.node body).isEmpty = false) (hcrosses : s.Crosses body)
    (hexit : exit ∈ (s.tree.node loop).children) (hempty : (s.tree.node exit).isEmpty = true)
    (hsequence : (s.tree.node exit).kind = .sequence) : s.IdlesFreely loop := by
  have hadmits : ∀ {r c}, s.tree.Admits g r c := fun hplus ↦ by
    rw [hloop] at hplus
    cases hplus
  have hleaves : ∀ r, Relation.ReflTransGen s.Onward ⟨loop, false, r⟩ (.back loop) := by
    intro r
    have hskip : s.Crosses exit := .single (.skip hsequence (by
      rw [Node.isEmpty, Array.isEmpty_iff] at hempty
      rw [hempty]
      rfl))
    exact .head (.choose hkind hexit hadmits)
      (hskip.tail (.out (hforest.up_of_mem hexit) hkind fun _ ↦ hempty))
  exact {
    crosses := hleaves false
    idles := ⟨body, ⟨rfl, hforest.up_of_mem hbody, ⟨g, hkind, by rw [hloop]; rfl⟩, hnonempty⟩,
      .head (.choose hkind hbody hadmits) hcrosses⟩
    leaves := hleaves true }

end Stance

/-! ## What a row of loops does -/

namespace Path

variable {s : Stance} {p : Path} {u v : Spot} {loop : Nat}

theorem exists_continues_of_onward (hfit : s.tree.LengthsFit) (hspot : p.spot = u)
    (h : Relation.ReflTransGen s.Onward u v) :
    ∃ q, Continues s p q ∧ q.spot = v ∧ q.reentered = p.reentered := by
  induction h with
  | refl => exact ⟨p, .refl, hspot, rfl⟩
  | tail _ hmove ih =>
    obtain ⟨q, hq, hspot, hsame⟩ := ih
    obtain ⟨r, hr, hspot', hsame'⟩ := exists_mem_next_of_onward hfit (hspot ▸ hmove)
    exact ⟨r, hq.tail hr, hspot', hsame'.trans hsame⟩

theorem exists_continues_idle (hfit : s.tree.LengthsFit) (h : s.IdlesFreely loop)
    (hspot : p.spot = .front loop) (hnew : loop ∉ p.reentered) :
    ∃ q, Continues s p q ∧ q.spot = .back loop ∧ q.reentered = p.reentered.insert loop := by
  obtain ⟨body, hrepeats, hidle⟩ := h.idles
  obtain ⟨q₁, hq₁, hspot₁, hsame₁⟩ := exists_continues_of_onward hfit hspot hidle
  obtain ⟨q₂, hq₂, hspot₂, hmore⟩ := exists_mem_next_of_repeats (hspot₁ ▸ hrepeats)
    (hsame₁ ▸ hnew)
  obtain ⟨q₃, hq₃, hspot₃, hsame₃⟩ := exists_continues_of_onward hfit hspot₂ h.leaves
  exact ⟨q₃, (hq₁.tail hq₂).trans hq₃, hspot₃, by rw [hsame₃, hmore, hsame₁]⟩

/-- **The step lemma of a row**: a path comes through one more loop, and starts it again or not. -/
theorem exists_continues_through (hfit : s.tree.LengthsFit) (h : s.IdlesFreely loop)
    (hspot : p.spot = .front loop) (hnew : loop ∉ p.reentered) (again : Prop) :
    ∃ q, Continues s p q ∧ q.spot = .back loop ∧
      ∀ i, i ∈ q.reentered ↔ i ∈ p.reentered ∨ i = loop ∧ again := by
  by_cases hagain : again
  · obtain ⟨q, hq, hspot', hmore⟩ := exists_continues_idle hfit h hspot hnew
    exact ⟨q, hq, hspot', fun i ↦ by rw [hmore, IndexSet.mem_insert, and_iff_left hagain]⟩
  · obtain ⟨q, hq, hspot', hsame⟩ := exists_continues_of_onward hfit hspot h.crosses
    exact ⟨q, hq, hspot', fun i ↦ by rw [hsame, or_iff_left fun hi ↦ hagain hi.2]⟩

/-- A path can come through a row of loops so that it has started again any of them. -/
theorem exists_continues_row (hfit : s.tree.LengthsFit) {x : Nat} {row : List Nat}
    (hspot : p.spot = .back x) (hrow : (x :: row).IsChain s.tree.arena.Follows)
    (hidles : ∀ loop ∈ row, s.IdlesFreely loop) (hnodup : row.Nodup)
    (hnew : ∀ loop ∈ row, loop ∉ p.reentered) (again : Nat → Prop) :
    ∃ q, Continues s p q ∧ ∀ i, i ∈ q.reentered ↔ i ∈ p.reentered ∨ i ∈ row ∧ again i := by
  induction row generalizing p x with
  | nil => exact ⟨p, .refl, fun i ↦ by simp⟩
  | cons loop row ih =>
    obtain ⟨hfollows, hrow⟩ := List.isChain_cons_cons.1 hrow
    obtain ⟨hloop, hidles⟩ := List.forall_mem_cons.1 hidles
    obtain ⟨hnotin, hnodup⟩ := List.nodup_cons.1 hnodup
    obtain ⟨hnewloop, hnew⟩ := List.forall_mem_cons.1 hnew
    obtain ⟨parent, hup, hkind, hnext⟩ := hfollows
    obtain ⟨q₁, hq₁, hspot₁, hsame₁⟩ := exists_continues_of_onward hfit hspot
      (.single (.next hup hkind hnext))
    obtain ⟨q₂, hq₂, hspot₂, hmore⟩ := exists_continues_through hfit hloop hspot₁
      (hsame₁ ▸ hnewloop) (again loop)
    have hnew₂ : ∀ i ∈ row, i ∉ q₂.reentered := by
      intro i hi
      rw [hmore, hsame₁, not_or]
      exact ⟨hnew i hi, fun heq ↦ hnotin (heq.1 ▸ hi)⟩
    obtain ⟨q, hq, hall⟩ := ih hspot₂ hrow hidles hnodup hnew₂
    refine ⟨q, (hq₁.trans hq₂).trans hq, fun i ↦ ?_⟩
    rw [hall, hmore, hsame₁, List.mem_cons, or_and_right, or_assoc]
    have heq : (i = loop ∧ again loop) ↔ (i = loop ∧ again i) :=
      and_congr_right fun h ↦ by rw [h]
    rw [heq]

end Path

theorem Arena.Forest.isChain_children {a : Arena} (h : a.Forest) {p : Nat}
    (hkind : (a.node p).kind = .sequence) : (a.node p).children.toList.IsChain a.Follows := by
  refine List.isChain_iff_getElem.2 fun i hi ↦ ?_
  have hget : ∀ j (hj : j < (a.node p).children.toList.length),
      (a.node p).children[j]? = some (a.node p).children.toList[j] := fun j hj ↦ by
    rw [← Array.getElem?_toList, List.getElem?_eq_getElem hj]
  obtain ⟨hup, hindex⟩ := h.child (hget i (Nat.lt_of_succ_lt hi))
  exact ⟨p, hup, hkind, by rw [hindex, hget (i + 1) hi]⟩

theorem Arena.Forest.nodup_row {a : Arena} (h : a.Forest) {x : Nat} {row : List Nat}
    (hrow : (x :: row).IsChain a.Follows) : row.Nodup := by
  have hindex : (x :: row).IsChain fun y z ↦ (a.node y).index < (a.node z).index := by
    refine hrow.imp fun y z ⟨parent, hup, _, hnext⟩ ↦ ?_
    rw [(h.child hnext).2]
    exact Nat.lt_succ_self _
  have hlt := (List.isChain_iff_pairwise.1 hindex).of_cons
  refine List.Pairwise.imp ?_ hlt
  rintro y z hyz rfl
  exact Nat.lt_irrefl _ hyz

namespace Walk

variable {s : Stance} {marker : Nat} {w : Walk}

/-- **Every loop in a row doubles what is seen.** -/
theorem two_pow_le_size_visited (hforest : s.tree.arena.Forest) (hfit : s.tree.LengthsFit)
    (hmarker : marker < s.tree.size) {x : Nat} {row : List Nat}
    (hreach : Relation.ReflTransGen s.Onward (.back marker) (.back x))
    (hrow : (x :: row).IsChain s.tree.arena.Follows) (hidles : ∀ loop ∈ row, s.IdlesFreely loop) :
    2 ^ row.length ≤ (w.fromMarker s marker).visited.size := by
  have hnodup := hforest.nodup_row hrow
  let start : Path := { node := marker, isLeaving := true }
  obtain ⟨p, hp, hspot, hsame⟩ := Path.exists_continues_of_onward (p := start) hfit rfl hreach
  -- every set of loops in the row is what some context knows
  have hall : ∀ sub ⊆ row.toFinset, ∃ c ∈ (w.fromMarker s marker).visited.toList.toFinset,
      c.reentered.toList.toFinset = sub := by
    intro sub hsub
    obtain ⟨q, hq, hmem⟩ := Path.exists_continues_row hfit hspot hrow hidles hnodup
      (fun loop _ ↦ hsame ▸ IndexSet.not_mem_empty loop) (· ∈ sub)
    refine ⟨q.context, ?_, ?_⟩
    · rw [List.mem_toFinset, Std.HashSet.mem_toList, ← Std.HashSet.contains_iff_mem,
        contains_visited_fromMarker hforest hfit hmarker]
      exact ⟨q, hp.trans hq, rfl⟩
    · ext i
      rw [List.mem_toFinset]
      refine (hmem i).trans ?_
      rw [hsame, or_iff_right (IndexSet.not_mem_empty i), and_iff_right_iff_imp]
      exact fun hi ↦ List.mem_toFinset.1 (hsub hi)
  calc 2 ^ row.length = row.toFinset.powerset.card := by
        rw [Finset.card_powerset, List.toFinset_card_of_nodup hnodup]
    _ ≤ (w.fromMarker s marker).visited.toList.toFinset.card :=
        Finset.card_le_card_of_surjOn (fun c ↦ c.reentered.toList.toFinset) fun sub hsub ↦ by
          obtain ⟨c, hc, heq⟩ := hall sub (Finset.mem_powerset.1 hsub)
          exact ⟨c, hc, heq⟩
    _ = (w.fromMarker s marker).visited.size := card_visited _

end Walk

namespace Tree

variable {t : Tree} {held : MarkerSet} {mustAdvance isAtStart : Bool} {marker n : Nat} {w : Walk}

/-- **How much a walk sees.** From a marker of a finished tree, the contexts seen are bounded by the
square of the number of nodes, if no loop can be idle; every loop that can may double them. And
loops that stand in a row do double them, so that a polynomial in the number of nodes is no bound
where there are any number of such loops. -/
theorem Finished.size_visited_bounds (h : t.Finished)
    (hmarker : t.origin? marker = some isAtStart) :
    (∀ idle : Finset Nat, (∀ loop, (t.stance held mustAdvance isAtStart).Idles loop → loop ∈ idle) →
      (w.fromMarker (t.stance held mustAdvance isAtStart) marker).visited.size ≤
        8 * t.size * t.size * 2 ^ idle.card) ∧
    ∀ x row,
      Relation.ReflTransGen (t.stance held mustAdvance isAtStart).Onward (.back marker) (.back x) →
      (x :: row).IsChain t.arena.Follows →
      (∀ loop ∈ row, (t.stance held mustAdvance isAtStart).IdlesFreely loop) →
      2 ^ row.length ≤
        (w.fromMarker (t.stance held mustAdvance isAtStart) marker).visited.size := by
  have hforest := h.regular.forest
  have hfit := h.regular.fits
  have hlt := lt_size_of_origin hmarker
  exact ⟨fun idle hidle ↦ Walk.size_visited_le hforest hfit hlt (hidle _),
    fun x row hreach hrow hidles ↦ Walk.two_pow_le_size_visited hforest hfit hlt hreach hrow hidles⟩

/-! ## Dollars that may be repeated -/

/-- The numbers of the loops in `a$*$*…`. -/
def dollarLoops (n : Nat) : List Nat := (List.range n).map fun i ↦ 4 * i + 4

/-- The tree of `a$*$*…`: a class, and behind it loops of one dollar each. -/
structure DollarLoops (t : Tree) (n : Nat) : Prop where
  kind : (t.node 1).kind = .sequence
  terms : (t.node 1).children.toList = 2 :: dollarLoops n
  loops : ∀ loop ∈ dollarLoops n, (t.node loop).kind = .group { loop := some .star } ∧
    (t.node loop).children = #[loop + 1, loop + 2]
  bodies : ∀ loop ∈ dollarLoops n, (t.node (loop + 1)).kind = .sequence ∧
    (t.node (loop + 1)).children = #[loop - 1] ∧ (t.node (loop - 1)).kind = .dollar
  exits : ∀ loop ∈ dollarLoops n, (t.node (loop + 2)).kind = .sequence ∧
    (t.node (loop + 2)).children = #[]

instance : Decidable (t.DollarLoops n) :=
  decidable_of_iff (_ ∧ _ ∧ _ ∧ _ ∧ _) ⟨fun ⟨h₁, h₂, h₃, h₄, h₅⟩ ↦ ⟨h₁, h₂, h₃, h₄, h₅⟩,
    fun h ↦ ⟨h.kind, h.terms, h.loops, h.bodies, h.exits⟩⟩

namespace DollarLoops

variable (h : t.DollarLoops n) (hforest : t.arena.Forest)
include h hforest

theorem isChain : (2 :: dollarLoops n).IsChain t.arena.Follows :=
  h.terms ▸ hforest.isChain_children h.kind

theorem idlesFreely {loop : Nat} (hloop : loop ∈ dollarLoops n) :
    (t.stance held mustAdvance isAtStart).IdlesFreely loop := by
  obtain ⟨hkind, hchildren⟩ := h.loops loop hloop
  obtain ⟨hbody, hterm, hdollar⟩ := h.bodies loop hloop
  obtain ⟨hexit, hnone⟩ := h.exits loop hloop
  have hcrosses : (t.stance held mustAdvance isAtStart).Crosses (loop + 1) := by
    refine Stance.crosses_sequence hforest hbody fun c hc ↦ ?_
    have hc : c ∈ (t.node (loop + 1)).children := hc
    rw [hterm, Array.mem_singleton] at hc
    exact Stance.crosses_dollar (hc ▸ hdollar)
  have hmem : ∀ {c}, c ∈ #[loop + 1, loop + 2] → c ∈ (t.node loop).children := fun hc ↦
    hchildren ▸ hc
  have hnonempty : (t.node (loop + 1)).isEmpty = false := by
    rw [Node.isEmpty, hterm]
    rfl
  have hempty : (t.node (loop + 2)).isEmpty = true := by
    rw [Node.isEmpty, hnone]
    rfl
  exact Stance.idlesFreely_of_star hforest hkind rfl (hmem (by simp)) hnonempty hcrosses
    (hmem (by simp)) hempty hexit

/-- The walk from the class sees a context for every set of the loops. -/
theorem two_pow_le_size_visited (hfit : t.LengthsFit) (hmarker : 2 < t.size) :
    2 ^ n ≤ (w.fromMarker (t.stance held mustAdvance isAtStart) 2).visited.size := by
  have hlength : (dollarLoops n).length = n := by
    rw [dollarLoops, List.length_map, List.length_range]
  rw [← hlength]
  exact Walk.two_pow_le_size_visited hforest hfit hmarker .refl (h.isChain hforest)
    fun _ ↦ h.idlesFreely hforest

end DollarLoops

/-- Behind the class of `a$*$*`, with two loops that can be idle. -/
theorem size_visited_two_loops :
    ∃ t, ofPattern {} (.ofString "a$*$*") = .ok t ∧ t.origin? 2 = some false ∧
      4 ≤ (Walk.fromMarker {} (t.stance ⟨t.size, .single 2⟩ false false) 2).visited.size ∧
      (Walk.fromMarker {} (t.stance ⟨t.size, .single 2⟩ false false) 2).visited.size ≤
        8 * t.size * t.size * 4 := by
  obtain ⟨t, ht, htests⟩ := exists_ofPattern
    (fun t ↦ decide (t.DollarLoops 2 ∧ t.origin? 2 = some false ∧ t.arena.loops.card = 2))
    (show (ofPattern {} (.ofString "a$*$*")).toOption.any _ = true by decide +kernel)
  obtain ⟨hloops, horigin, hcard⟩ := of_decide_eq_true htests
  have hforest := (Finished.ofPattern ht).regular.forest
  obtain ⟨hupper, hlower⟩ := @Finished.size_visited_bounds t ⟨t.size, .single 2⟩ false false 2 {}
    (.ofPattern ht) horigin
  refine ⟨t, ht, horigin, ?_, ?_⟩
  · exact hlower 2 (dollarLoops 2) .refl (hloops.isChain hforest) fun loop ↦
      hloops.idlesFreely hforest
  · have hidle := hupper t.arena.loops fun loop ⟨body, hrepeats, _⟩ ↦ hrepeats.mem_loops hforest
    rwa [hcard] at hidle

/-- Behind the class of `a$*$*…` with sixteen loops a walk sees more contexts than eight times the
square of the number of nodes. -/
theorem lt_size_visited_sixteen_loops :
    ∃ t, ofPattern {} (.ofString "a$*$*$*$*$*$*$*$*$*$*$*$*$*$*$*$*") = .ok t ∧
      t.isMarker 2 = true ∧ t.origin? 2 = some false ∧
      8 * t.size * t.size <
        (Walk.fromMarker {} (t.stance ⟨t.size, .single 2⟩ false false) 2).visited.size := by
  obtain ⟨t, ht, htests⟩ := exists_ofPattern
    (fun t ↦ decide (t.DollarLoops 16 ∧ t.origin? 2 = some false ∧ t.isMarker 2 = true ∧
      8 * t.size * t.size < 2 ^ 16))
    (show (ofPattern {} (.ofString "a$*$*$*$*$*$*$*$*$*$*$*$*$*$*$*$*")).toOption.any _ = true by
      decide +kernel)
  obtain ⟨hloops, horigin, hmarker, hsize⟩ := of_decide_eq_true htests
  have hregular := (Finished.ofPattern ht).regular
  exact ⟨t, ht, hmarker, horigin, Nat.lt_of_lt_of_le hsize
    (hloops.two_pow_le_size_visited hregular.forest hregular.fits (lt_size_of_origin horigin))⟩

end Tree

end PatternAutomata
