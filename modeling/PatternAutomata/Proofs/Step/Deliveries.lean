import PatternAutomata.Proofs.Step.Tour

/-!
# What a path delivers

A path and all its continuations, followed to their ends and preferred ones first, come by a list of
targets: what the path delivers. The list is finite because the rank of a path goes down with every
move. It lists every way to a target, so its first entries for each target are what a walk is after.

What the context of a path leaves out does not show in the targets: two paths in the same context
deliver the same targets, though not by the same ways.
-/

namespace PatternAutomata

namespace Path

/-- What a path brings to where it stands, if that is a target. -/
def delivery? (s : Stance) (p : Path) : Option Successor :=
  (p.arrival? s).map (Successor.ofPath p)

/-- What a path and its continuations come by within a number of moves. -/
def deliveriesWithin (s : Stance) : Nat → Path → List Successor
  | 0, _ => []
  | n + 1, p => (p.delivery? s).toList ++ (p.next s).flatMap (deliveriesWithin s n)

/-- What a path and its continuations come by. -/
def deliveries (s : Stance) (p : Path) : List Successor :=
  p.deliveriesWithin s (p.rank s.tree.arena + 1)

/-- A path stands at a node of the arena, and what it takes for a dollar is one. -/
structure Sound (t : Tree) (p : Path) : Prop where
  node_lt : p.node < t.size
  dollar : ∀ d, p.dollar = some d → (t.node d).kind = .dollar

variable {s : Stance} {p q : Path}

theorem Sound.of_mem_next (hforest : s.tree.arena.Forest) (hfit : s.tree.LengthsFit)
    (hp : p.Sound s.tree) (h : q ∈ p.next s) : q.Sound s.tree where
  node_lt := ((leads_of_mem_next hfit h).rank_lt hforest hp.node_lt).1
  dollar d hd := by
    rw [dollar_of_mem_next h] at hd
    split at hd
    · next hdollar =>
      cases hold : p.dollar with
      | none =>
        rw [hold] at hd
        cases hd
        exact hdollar.2
      | some d' =>
        rw [hold] at hd
        cases hd
        exact hp.dollar d hold
    · exact hp.dollar d hd

/-! ## Deliveries do not depend on the bound -/

theorem deliveriesWithin_eq (hforest : s.tree.arena.Forest) (hfit : s.tree.LengthsFit)
    {m n : Nat} (hp : p.node < s.tree.size) (hm : p.rank s.tree.arena < m)
    (hn : p.rank s.tree.arena < n) : p.deliveriesWithin s m = p.deliveriesWithin s n := by
  induction m generalizing n p with
  | zero => exact absurd hm (Nat.not_lt_zero _)
  | succ m ih =>
    obtain ⟨n, rfl⟩ := Nat.exists_eq_add_of_le' (Nat.one_le_of_lt hn)
    rw [deliveriesWithin, deliveriesWithin]
    congr 1
    refine List.flatMap_congr fun q hq ↦ ?_
    have hlt := (leads_of_mem_next hfit hq).rank_lt hforest hp
    exact ih hlt.1 (by omega) (by omega)

theorem deliveries_eq (hforest : s.tree.arena.Forest) (hfit : s.tree.LengthsFit)
    (hp : p.node < s.tree.size) :
    p.deliveries s = (p.delivery? s).toList ++ (p.next s).flatMap (deliveries s) := by
  rw [deliveries, deliveriesWithin]
  congr 1
  refine List.flatMap_congr fun q hq ↦ ?_
  have hlt := (leads_of_mem_next hfit hq).rank_lt hforest hp
  exact deliveriesWithin_eq hforest hfit hlt.1 hlt.2 (Nat.lt_succ_self _)

theorem deliveries_congr {s' : Stance} (htree : s.tree = s'.tree) {P : Path → Prop}
    (hP : ∀ p, P p → p.delivery? s = p.delivery? s' ∧ p.next s = p.next s' ∧ ∀ q ∈ p.next s, P q)
    (hp : P p) : p.deliveries s = p.deliveries s' := by
  have hwithin : ∀ n p, P p → p.deliveriesWithin s n = p.deliveriesWithin s' n := by
    intro n
    induction n with
    | zero => exact fun _ _ ↦ rfl
    | succ n ih =>
      intro p hp
      obtain ⟨hdelivery, hnext, hall⟩ := hP p hp
      rw [deliveriesWithin, deliveriesWithin, hdelivery, ← hnext]
      exact congrArg _ (List.flatMap_congr fun q hq ↦ ih q (hall q hq))
  rw [deliveries, deliveries, ← htree]
  exact hwithin _ p hp

/-! ## Deliveries and continuations -/

def Continues (s : Stance) : Path → Path → Prop :=
  Relation.ReflTransGen fun p q ↦ q ∈ p.next s

theorem mem_deliveries_iff (hforest : s.tree.arena.Forest) (hfit : s.tree.LengthsFit)
    (hp : p.node < s.tree.size) {d : Successor} :
    d ∈ p.deliveries s ↔ ∃ q, Continues s p q ∧ q.delivery? s = some d := by
  constructor
  · intro hd
    induction hrank : p.rank s.tree.arena using Nat.strong_induction_on generalizing p with
    | _ n ih =>
      rw [deliveries_eq hforest hfit hp, List.mem_append, Option.mem_toList] at hd
      rcases hd with hd | hd
      · exact ⟨p, .refl, hd⟩
      · obtain ⟨q, hq, hd⟩ := List.mem_flatMap.1 hd
        have hlt := (leads_of_mem_next hfit hq).rank_lt hforest hp
        obtain ⟨r, hr, hdr⟩ := ih _ (hrank ▸ hlt.2) hlt.1 hd rfl
        exact ⟨r, .head hq hr, hdr⟩
  · rintro ⟨q, hpq, hd⟩
    induction hpq using Relation.ReflTransGen.head_induction_on with
    | refl =>
      rw [deliveries_eq hforest hfit hp, List.mem_append, Option.mem_toList]
      exact .inl hd
    | head hq _ ih =>
      rw [deliveries_eq hforest hfit hp, List.mem_append]
      exact .inr (List.mem_flatMap.2
        ⟨_, hq, ih ((leads_of_mem_next hfit hq).rank_lt hforest hp).1⟩)

/-! ## The context decides about the targets -/

theorem context_eq_iff : p.context = q.context ↔
    p.spot = q.spot ∧ p.dollar.isSome = q.dollar.isSome ∧ p.reentered = q.reentered := by
  simp only [context, spot, Context.mk.injEq, Spot.mk.injEq]
  tauto

theorem key_delivery_eq (hp : p.Sound s.tree) (hq : q.Sound s.tree)
    (h : p.context = q.context) :
    (p.delivery? s).map (·.key s.tree) = (q.delivery? s).map (·.key s.tree) := by
  obtain ⟨hspot, hdollar, -⟩ := context_eq_iff.1 h
  obtain ⟨hnode, hleaving, -⟩ := Spot.mk.inj hspot
  unfold delivery? arrival?
  rw [hleaving, hnode]
  cases q.isLeaving with
  | true => rfl
  | false =>
    simp only [Bool.false_eq_true, if_false]
    cases hkind : (s.tree.node q.node).kind with
    | chars set lookBehind =>
      dsimp only
      rw [← Option.not_isSome, ← Option.not_isSome, hdollar]
      split <;> rfl
    | matchFound =>
      dsimp only
      cases s.mustAdvance with
      | true => rfl
      | false =>
        -- all dollars have the same key, so which one has been passed makes no difference
        have key : ∀ r : Path, r.Sound s.tree → ∀ d, r.dollar = some d →
            (Successor.ofPath r d).key s.tree = none := by
          intro r hr d hd
          simp only [Successor.key, Successor.ofPath, hr.dollar d hd]
        cases hpd : p.dollar with
        | none =>
          have hqd : q.dollar = none := by
            rw [hpd] at hdollar
            exact Option.not_isSome_iff_eq_none.1 (by simp [← hdollar])
          rw [hqd]
          rfl
        | some d =>
          obtain ⟨e, hqe⟩ := Option.isSome_iff_exists.1 (hdollar.symm.trans (by rw [hpd]; rfl))
          rw [hqe]
          simp [key p hp d hpd, key q hq e hqe]
    | _ => rfl

theorem exists_next_context_eq (hfit : s.tree.LengthsFit) (h : p.context = q.context) {p' : Path}
    (hp' : p' ∈ p.next s) : ∃ q' ∈ q.next s, p'.context = q'.context := by
  obtain ⟨hspot, hdollar, hreentered⟩ := context_eq_iff.1 h
  obtain ⟨hnode, hleaving, -⟩ := Spot.mk.inj hspot
  have hsome : ∀ q' ∈ q.next s, p'.dollar.isSome = q'.dollar.isSome := by
    intro q' hq'
    rw [dollar_of_mem_next hp', dollar_of_mem_next hq', hnode, hleaving]
    split
    · have key : ∀ (o : Option Nat) (n : Nat), (o <|> some n).isSome = true := by
        rintro (_ | _) n <;> rfl
      rw [key, key]
    · exact hdollar
  have hfound : ∃ q' ∈ q.next s, q'.spot = p'.spot ∧ q'.reentered = p'.reentered := by
    cases leads_of_mem_next hfit hp' with
    | onward hmove hsame =>
      rw [hsame, hreentered]
      exact exists_mem_next_of_onward hfit (hspot ▸ hmove)
    | again hrepeats hnew hagain hmore =>
      rw [hagain, hmore, hreentered]
      exact exists_mem_next_of_repeats (hspot ▸ hrepeats) (hreentered ▸ hnew)
  obtain ⟨q', hq', hspot', hreentered'⟩ := hfound
  exact ⟨q', hq', context_eq_iff.2 ⟨hspot'.symm, hsome q' hq', hreentered'.symm⟩⟩

/-- **Two paths in the same context deliver the same targets.** -/
theorem exists_key_of_context_eq (hforest : s.tree.arena.Forest) (hfit : s.tree.LengthsFit)
    (hp : p.Sound s.tree) (hq : q.Sound s.tree) (h : p.context = q.context) {d : Successor}
    (hd : d ∈ p.deliveries s) : ∃ e ∈ q.deliveries s, e.key s.tree = d.key s.tree := by
  induction hrank : p.rank s.tree.arena using Nat.strong_induction_on generalizing p q with
  | _ n ih =>
    rw [deliveries_eq hforest hfit hp.node_lt, List.mem_append, Option.mem_toList] at hd
    rw [deliveries_eq hforest hfit hq.node_lt]
    rcases hd with hd | hd
    · have hkey := key_delivery_eq hp hq h
      rw [hd, Option.map_some, eq_comm, Option.map_eq_some_iff] at hkey
      obtain ⟨e, he, hkey⟩ := hkey
      exact ⟨e, List.mem_append_left _ (Option.mem_toList.2 he), hkey⟩
    · obtain ⟨p', hp', hd⟩ := List.mem_flatMap.1 hd
      obtain ⟨q', hq', hcontext⟩ := exists_next_context_eq hfit h hp'
      have hlt := (leads_of_mem_next hfit hp').rank_lt hforest hp.node_lt
      obtain ⟨e, he, hkey⟩ := ih _ (hrank ▸ hlt.2) (hp.of_mem_next hforest hfit hp')
        (hq.of_mem_next hforest hfit hq') hcontext hd rfl
      exact ⟨e, List.mem_append_right _ (List.mem_flatMap.2 ⟨q', hq', he⟩), hkey⟩

end Path

end PatternAutomata
