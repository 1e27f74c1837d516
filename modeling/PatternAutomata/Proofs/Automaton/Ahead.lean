import PatternAutomata.Proofs.Automaton.Origins
import PatternAutomata.Proofs.Language.Anchoring
import PatternAutomata.Proofs.Tree.Lead

/-!
# States within the lead-in

Through the lead-in there is one way only, and a path on it comes by nothing but the next class.
So a search within the lead-in stands at one place there, and all else that it holds are classes of
look-behind bodies, which keep track of what has been read. It does not come to the pattern before
the lead-in has been read, and never gets back to it from there.
-/

namespace PatternAutomata

namespace Tree

variable {t : Tree} {ok : CodePointSet → Prop} {o : Options} {held : MarkerSet}
  {mustAdvance isAtStart : Bool} {lead x y : Nat} {s : Stance} {p p' q : Path} {d : Successor}
  {k : MarkerSet × Bool} {b : Branch}

/-- A place in the lead-in from which a path goes past the markers of a lead: one of these, or the
class in front of them. -/
def Ahead (t : Tree) (lead x : Nat) : Prop :=
  x = t.start false lead ∨ x = t.start true lead ∨ t.arena.Follows x (t.start false lead)

/-- What a search holds: places within the pattern, or a place in the lead-in and besides it only
classes of look-behind bodies. -/
inductive Placed (t : Tree) (markers : MarkerSet) : Prop
  | within : (∀ x ∈ markers.members, t.origin? x ≠ none → t.arena.Below x t.root) →
      Placed t markers
  | ahead {lead x : Nat} : lead ≤ t.leadLength → t.Ahead lead x → x ∈ markers.members →
      (∀ y ∈ markers.members, y ≠ x → ∃ l ∈ t.lookBehinds, y ∈ t.body l) → Placed t markers

/-! ## Paths through the lead-in -/

theorem continues_of_next_eq (hnext : p.next s = [p']) (hq : Path.Continues s p q) :
    q = p ∨ Path.Continues s p' q := by
  rcases hq.cases_head with heq | ⟨r, hr, hrq⟩
  · exact .inl heq.symm
  · rw [hnext, List.mem_singleton] at hr
    exact .inr (hr ▸ hrq)

theorem delivery_pathFrom : (pathFrom x).delivery? s = none := rfl

theorem delivery_marker {anchored : Bool} (hkind : (s.tree.node y).kind = .marker anchored lead) :
    ((pathFrom x).inFrontOf y).delivery? s = none := by
  simp only [Path.delivery?, Path.arrival?, Path.inFrontOf, Bool.false_eq_true, if_false, hkind,
    Option.map_none]

/-- **Past the markers of a lead** a path comes to what stands behind them, and nothing has been
delivered by then. -/
theorem Regular.continues_behind (h : t.Regular ok) (hlead : lead ≤ t.leadLength)
    (hx : t.Ahead lead x) (hy : t.arena.Follows (t.start true lead) y)
    (hq : Path.Continues (t.stance held mustAdvance isAtStart) (pathFrom x) q)
    (hd : q.delivery? (t.stance held mustAdvance isAtStart) = some d) :
    Path.Continues (t.stance held mustAdvance isAtStart) ((pathFrom x).inFrontOf y) q := by
  have hfollows : ∀ {u v}, t.arena.Follows u v →
      Path.Continues (t.stance held mustAdvance isAtStart) (pathFrom u) q →
      Path.Continues (t.stance held mustAdvance isAtStart) ((pathFrom u).inFrontOf v) q := by
    intro u v huv hu
    refine (continues_of_next_eq (next_of_follows huv) hu).resolve_left ?_
    rintro rfl
    cases delivery_pathFrom.symm.trans hd
  have hmarker : ∀ {anchored u},
      Path.Continues (t.stance held mustAdvance isAtStart)
        ((pathFrom u).inFrontOf (t.start anchored lead)) q →
      Path.Continues (t.stance held mustAdvance isAtStart)
        (pathFrom (t.start anchored lead)) q := by
    intro anchored u hu
    have hkind : ((t.stance held mustAdvance isAtStart).tree.node (t.start anchored lead)).kind =
        .marker anchored lead := h.start_kind hlead
    refine (continues_of_next_eq (next_of_marker hkind) hu).resolve_left ?_
    rintro rfl
    cases (delivery_marker hkind).symm.trans hd
  have htrue : Path.Continues (t.stance held mustAdvance isAtStart)
      (pathFrom (t.start true lead)) q := by
    rcases hx with rfl | rfl | hx
    · exact hmarker (hfollows (h.start_follows hlead) hq)
    · exact hq
    · exact hmarker (hfollows (h.start_follows hlead) (hmarker (hfollows hx hq)))
  -- where the path comes from does not matter any more
  exact hfollows (u := t.start true lead) hy htrue

/-- Nothing is crossed on the way to the next class of the lead-in, and no other is reached. -/
theorem Regular.delivery_of_ahead_succ (h : t.Regular ok) (hlead : lead < t.leadLength)
    (hx : t.Ahead (lead + 1) x) {p : Nat} {set : CodePointSet} {claim : Option Nat}
    (hp : t.arena.Follows (t.start true (lead + 1)) p) (hkind : (t.node p).kind = .chars set claim)
    (hq : Path.Continues (t.stance held mustAdvance isAtStart) (pathFrom x) q)
    (hd : q.delivery? (t.stance held mustAdvance isAtStart) = some d) : d = { target := p } := by
  have hbehind := h.continues_behind hlead hx hp hq hd
  have hnext : ((pathFrom x).inFrontOf p).next (t.stance held mustAdvance isAtStart) = [] := by
    simp only [Path.next, Path.inFrontOf, Bool.false_eq_true, if_false, Path.enter, hkind]
  rcases hbehind.cases_head with rfl | ⟨r, hr, -⟩
  · have hdelivery : ((pathFrom x).inFrontOf p).delivery? (t.stance held mustAdvance isAtStart) =
        some { target := p } := by
      simp only [Path.delivery?, Path.arrival?, Path.inFrontOf, pathFrom, Bool.false_eq_true,
        if_false, hkind, Option.isNone_none, if_true, Option.map_some, Successor.ofPath]
    exact Option.some.inj (hd.symm.trans hdelivery)
  · rw [hnext] at hr
    cases hr

theorem Regular.within_of_continues (h : t.Regular ok) (hp : t.arena.Below p.node t.root)
    (hq : Path.Continues (t.stance held mustAdvance isAtStart) p q) :
    t.arena.Below q.node t.root ∨ q.isLeaving = false ∧ q.node = t.matchFound := by
  induction hq with
  | refl => exact .inl hp
  | @tail r q _ hq ih =>
    rcases ih with hbelow | ⟨hfront, hnode⟩
    · exact or_iff_not_imp_left.2 (h.eq_matchFound_of_move hbelow
        (Path.leads_of_mem_next (s := t.stance held mustAdvance isAtStart) h.fits hq).move)
    · have hkind : ((t.stance held mustAdvance isAtStart).tree.node r.node).kind = .matchFound :=
        h.matchFound_iff.2 hnode
      simp only [Path.next, hfront, Bool.false_eq_true, if_false, Path.enter, hkind] at hq
      cases hq

/-- From within the pattern, and from the markers in front of it, only classes of the pattern are
reached. -/
theorem Regular.below_root_of_delivery (h : t.Regular ok) (horigin : t.origin? x = some isAtStart)
    (hx : t.arena.Below x t.root ∨ t.Ahead 0 x)
    (hq : Path.Continues (t.stance held mustAdvance isAtStart) (pathFrom x) q)
    (hd : q.delivery? (t.stance held mustAdvance isAtStart) = some d)
    (hchars : (t.node d.target).kind.isChars = true) : t.arena.Below d.target t.root := by
  have hwithin : t.arena.Below q.node t.root ∨ q.isLeaving = false ∧ q.node = t.matchFound := by
    rcases hx with hx | hx
    · exact h.within_of_continues (p := pathFrom x) hx hq
    · exact h.within_of_continues (p := (pathFrom x).inFrontOf t.root) .refl
        (h.continues_behind (Nat.zero_le _) hx h.root_follows hq hd)
  obtain ⟨y, harrival, rfl⟩ := Option.map_eq_some_iff.1 hd
  obtain ⟨-, ⟨hqchars, -, rfl⟩ | ⟨hkind, -, rfl⟩⟩ := Path.arrival_eq_some_iff.1 harrival
  · refine hwithin.resolve_right fun hmatch ↦ ?_
    have hchars : (t.node q.node).kind.isChars = true := hqchars
    rw [h.matchFound_iff.2 hmatch.2] at hchars
    cases hchars
  · -- a match is found there, and what stands for it is no class
    have hsound := hq.sound h.forest h.fits (sound_pathFrom horigin)
    exfalso
    cases hdollar : q.dollar with
    | none =>
      rw [Successor.ofPath, hdollar, Option.getD_none,
        show (t.node q.node).kind = .matchFound from hkind] at hchars
      cases hchars
    | some e =>
      rw [Successor.ofPath, hdollar, Option.getD_some,
        show (t.node e).kind = .dollar from hsound.dollar e hdollar] at hchars
      cases hchars

/-! ## What a search holds -/

theorem Regular.origin_of_body (h : t.Regular ok) {l : Nat} (hl : l ∈ t.lookBehinds)
    (hx : x ∈ t.body l) : t.origin? x = none := by
  obtain ⟨-, set, hset⟩ := h.body hl hx
  rw [origin?, hset]

theorem origin_of_isLookBehind (hx : (t.node x).kind.isLookBehind = true) :
    t.origin? x = none := by
  unfold origin?
  split
  · next hkind => rw [hkind] at hx; cases hx
  · next hkind => rw [hkind] at hx; cases hx
  · rfl

theorem placed_of_ends (hends : t.Ends held) : t.Placed held := by
  refine .within fun x hx horigin ↦ absurd ?_ horigin
  rcases hends x hx with hfinal | hlookBehind
  · unfold isFinal at hfinal
    unfold origin?
    split
    · next hkind => rw [hkind] at hfinal; cases hfinal
    · next hkind => rw [hkind] at hfinal; cases hfinal
    · rfl
  · exact origin_of_isLookBehind hlookBehind

theorem placed_start {anchored : Bool} (hlead : lead ≤ t.leadLength) :
    t.Placed (t.markers [t.start anchored lead]) := by
  refine .ahead (x := t.start anchored lead) hlead ?_ (mem_markers.2 (List.mem_singleton_self _))
    fun y hy hne ↦ absurd (List.mem_singleton.1 (mem_markers.1 hy)) hne
  cases anchored
  · exact .inl rfl
  · exact .inr (.inl rfl)

theorem Regular.placed_within (h : t.Regular t.encoding.Fits) (hb : b ∈ t.branches k)
    (hfinal : b.isFinal = false) (hk : ∀ x ∈ k.1.members, t.origin? x ≠ none →
      t.arena.Below x t.root ∨ t.Ahead 0 x) : t.Placed (t.targetOf k b) := by
  refine .within fun y hy horigin ↦ ?_
  obtain ⟨d, hd, hchars, rfl | hlookBehind⟩ := h.exists_successor_of_mem hb hfinal hy
  · rcases h.mem_step_iff.1 hd with hd | ⟨-, x, hx, rfl⟩
    · have hway := (Successor.mem_of_mem_foldl_addFirst hd).resolve_left (Array.not_mem_empty _)
      obtain ⟨x, isAtStart, hstarts, q, hq, hdelivery⟩ := h.mem_ways.1 hway
      obtain ⟨hheld, hx⟩ := h.starts_iff.1 hstarts
      exact h.below_root_of_delivery hx (hk x hheld (by rw [hx]; exact Option.some_ne_none _)) hq
        hdelivery hchars
    · obtain ⟨l, hl, hbody, -⟩ := h.exists_body_of_mem_progress hx
      exact absurd (h.origin_of_body hl hbody) horigin
  · exact absurd (origin_of_isLookBehind (h.isLookBehind_of_mem hd hlookBehind)) horigin

theorem Regular.placed_ahead (h : t.Regular t.encoding.Fits) (hb : b ∈ t.branches k)
    (hfinal : b.isFinal = false) (hlead : lead < t.leadLength) (hx : t.Ahead (lead + 1) x)
    (hk : ∀ y ∈ k.1.members, y ≠ x → ∃ l ∈ t.lookBehinds, y ∈ t.body l) :
    t.Placed (t.targetOf k b) := by
  obtain ⟨p, hp, hkind, hnext⟩ := h.lead_follows hlead
  have hmem : ∀ y ∈ (t.targetOf k b).members, y = p ∨ ∃ l ∈ t.lookBehinds, y ∈ t.body l := by
    intro y hy
    obtain ⟨d, hd, -, hyd⟩ := h.exists_successor_of_mem hb hfinal hy
    rcases h.mem_step_iff.1 hd with hd | ⟨-, z, hz, rfl⟩
    · have hway := (Successor.mem_of_mem_foldl_addFirst hd).resolve_left (Array.not_mem_empty _)
      obtain ⟨z, isAtStart, hstarts, q, hq, hdelivery⟩ := h.mem_ways.1 hway
      obtain ⟨hheld, hz⟩ := h.starts_iff.1 hstarts
      obtain rfl : z = x := by
        by_contra hne
        obtain ⟨l, hl, hbody⟩ := hk z hheld hne
        cases (h.origin_of_body hl hbody).symm.trans hz
      obtain rfl := h.delivery_of_ahead_succ hlead hx hp hkind hq hdelivery
      exact hyd.imp_right fun hy ↦ absurd hy List.not_mem_nil
    · obtain ⟨l, hl, hbody, -⟩ := h.exists_body_of_mem_progress hz
      rcases hyd with rfl | hy
      · exact .inr ⟨l, hl, hbody⟩
      · exact absurd hy List.not_mem_nil
  obtain ⟨y, hy, set, hset⟩ := h.exists_chars_of_branch hb hfinal
  obtain rfl : y = p := (hmem y hy).resolve_right fun ⟨l, hl, hbody⟩ ↦ by
    obtain ⟨-, set', hset'⟩ := h.body hl hbody
    cases hset.symm.trans hset'
  exact .ahead (Nat.le_of_lt hlead) (.inr (.inr hnext)) hy fun z hz hne ↦
    (hmem z hz).resolve_left hne

/-- **What a search holds**, at all keys that come up. -/
theorem Regular.placed_of_arises (h : t.Regular t.encoding.Fits) (hk : t.Arises o k) :
    t.Placed k.1 := by
  induction hk with
  | dummy =>
    refine .within fun x hx horigin ↦ absurd ?_ horigin
    obtain ⟨g, hgroup⟩ := NodeKind.isGroup_iff.1 h.wrappedRoot_group
    rw [List.mem_singleton.1 (mem_markers.1 hx), origin?, hgroup]
  | anchoredFinal => exact placed_of_ends h.ends_dollars
  | unanchoredFinal => exact placed_of_ends h.ends_matchFound
  | advanced => exact placed_start (Nat.zero_le _)
  | start hlead _ => exact placed_start hlead
  | @branch k b _ hb ih =>
    cases hfinal : b.isFinal with
    | true => exact placed_of_ends (h.ends_of_isFinal hb hfinal)
    | false =>
      cases ih with
      | within hwithin =>
        exact h.placed_within hb hfinal fun x hx horigin ↦ .inl (hwithin x hx horigin)
      | @ahead lead x hlead hx hmem hbodies =>
        cases lead with
        | zero =>
          refine h.placed_within hb hfinal fun y hy horigin ↦ .inr ?_
          by_cases hne : y = x
          · exact hne ▸ hx
          · obtain ⟨l, hl, hbody⟩ := hbodies y hy hne
            exact absurd (h.origin_of_body hl hbody) horigin
        | succ lead => exact h.placed_ahead hb hfinal hlead hx hbodies

theorem Regular.kind_of_mem_hardPrefix (h : t.Regular ok) (hlead : t.LeadsIn)
    (hx : x ∈ t.hardPrefix.members) : (t.node x).kind = .chars t.encoding.fullSet none := by
  obtain ⟨n, hn, hfollows⟩ := hlead.mem_iff.1 hx
  obtain ⟨p, hp, hkind, -⟩ := h.lead_follows hn
  rw [hfollows.eq hp, hkind]

/-- **Of the classes of the lead-in** a search holds at most one, and with it nothing but classes of
look-behind bodies. -/
theorem Regular.eq_or_mem_body_of_mem_hardPrefix (h : t.Regular t.encoding.Fits) (hlead : t.LeadsIn)
    (hk : t.Arises o k) (hx : x ∈ k.1.members) (hhard : x ∈ t.hardPrefix.members)
    (hy : y ∈ k.1.members) (hne : y ≠ x) :
    y ∉ t.hardPrefix.members ∧ ∃ l ∈ t.lookBehinds, y ∈ t.body l := by
  have horigin : ∀ {z}, z ∈ t.hardPrefix.members → t.origin? z = some false := by
    intro z hz
    rw [origin?, h.kind_of_mem_hardPrefix hlead hz]
  have hout : ∀ {z}, z ∈ t.hardPrefix.members → ∀ l ∈ t.lookBehinds, z ∉ t.body l := by
    intro z hz l hl hbody
    cases (horigin hz).symm.trans (h.origin_of_body hl hbody)
  cases h.placed_of_arises hk with
  | within hwithin =>
    refine absurd (hwithin x hx ?_) (hlead.not_below_root hhard)
    rw [horigin hhard]
    exact Option.some_ne_none _
  | @ahead n z _ _ _ hbodies =>
    have heq : x = z := by
      by_contra hne
      obtain ⟨l, hl, hbody⟩ := hbodies x hx hne
      exact hout hhard l hl hbody
    obtain ⟨l, hl, hbody⟩ := hbodies y hy (heq ▸ hne)
    exact ⟨fun hz ↦ hout hz l hl hbody, l, hl, hbody⟩

end Tree

end PatternAutomata
