import PatternAutomata.Proofs.Automaton.Ahead
import PatternAutomata.Proofs.Automaton.Closure
import PatternAutomata.Proofs.Automaton.Links

/-!
# Predecessors

By which transitions a state is entered, and which states are within the lead-in, told from the
finished automaton alone. No state leads to the dummy, so all that it has been told of are the
transitions from the final states; any other state has been told of nothing before the states are
gone through one by one.
-/

namespace PatternAutomata

/-- A state within the lead-in: it holds a class of it. -/
def State.InLead (t : Tree) (s : State) : Prop :=
  ∃ x ∈ s.markers.members, x ∈ t.hardPrefix.members

namespace Automaton

/-- The transitions by which a state leads to `q`, in the order in which they leave it. The dummy
tells of none, and neither does a state that is noted as being within the lead-in. -/
def tells (a : Automaton) (q source : Nat) : List Nat :=
  if source = a.dummy ∨ (a.state source).roles.hardPrefix = true then []
  else (a.state source).out.toList.filter fun i ↦ (a.transition i).target == q

/-- What is told and noted in a finished automaton. -/
structure LinksBack (t : Tree) (fl : Flags) (a : Automaton) : Prop where
  /-- A state within the lead-in holds one class of it, and otherwise classes of look-behind
  bodies. -/
  inLead : ∀ {q x y : Nat} {s : State}, a.states[q]? = some s → x ∈ s.markers.members →
    x ∈ t.hardPrefix.members → y ∈ s.markers.members → y ≠ x →
      y ∉ t.hardPrefix.members ∧ ∃ l ∈ t.lookBehinds, y ∈ t.body l
  /-- All states within the lead-in are noted, unless the search is for one place only. -/
  mem_hardPrefixStates : ∀ {q}, q ∈ a.hardPrefixStates ↔
    fl.sticky = false ∧ ∃ s, a.states[q]? = some s ∧ s.InLead t
  ascending : a.hardPrefixStates.toList.Pairwise (· < ·)
  hardPrefix : ∀ {q : Nat} {s : State}, a.states[q]? = some s →
    (s.roles.hardPrefix = true ↔ q ∈ a.hardPrefixStates)
  into_dummy : (a.state a.dummy).into = #[0, 1]
  /-- States are told of transitions in the order of their sources. -/
  into : ∀ {q : Nat} {s : State}, a.states[q]? = some s → q ≠ a.dummy →
    s.into.toList = (List.range a.states.size).flatMap (a.tells q)
  nodup : ∀ {q : Nat} {s : State}, a.states[q]? = some s → s.into.toList.Nodup
  /-- No entry is told of, nor is the loop-back of the search as a whole. -/
  source : ∀ {q i : Nat} {s : State}, a.states[q]? = some s → q ≠ a.dummy → i ∈ s.into →
    (a.transition i).source ≠ a.dummy ∧ (a.transition i).target = q ∧ i ≠ a.loopBack

variable {t : Tree} {o : Options} {fl : Flags} {a : Automaton} {pattern : Bytes} {p q i : Nat}
  {s : State}

theorem mem_tells : i ∈ a.tells q p ↔ p ≠ a.dummy ∧ (a.state p).roles.hardPrefix = false ∧
    i ∈ (a.state p).out ∧ (a.transition i).target = q := by
  unfold tells
  split
  · next hnone =>
    refine iff_of_false List.not_mem_nil ?_
    rintro ⟨hdummy, hhard, -⟩
    rcases hnone with hnone | hnone
    · exact hdummy hnone
    · exact Bool.noConfusion (hhard.symm.trans hnone)
  · next htells =>
    rw [not_or, Bool.not_eq_true] at htells
    rw [and_iff_right htells.1, and_iff_right htells.2, List.mem_filter, Array.mem_toList_iff,
      beq_iff_eq]

/-! ## Where transitions are listed -/

theorem IsClosure.source_of_mem_out (h : a.IsClosure t) (hi : i ∈ (a.state p).out) :
    (a.transition i).source = p ∧ i ≠ a.loopBack := by
  have hlt := h.lt_of_mem_out hi
  have hcount := h.count_out (Array.getElem?_eq_getElem hlt) p
  have htr : a.transitions[i] = a.transition i := by
    rw [transition, Array.getD_eq_getD_getElem?, Array.getElem?_eq_getElem hlt, Option.getD_some]
  rw [htr] at hcount
  split at hcount
  · next hsource =>
    exact ⟨hsource.1.symm, fun heq ↦ hsource.2 (heq ▸ List.mem_cons_self)⟩
  · exact absurd hi (Array.count_eq_zero.1 hcount)

theorem IsClosure.nodup_out (h : a.IsClosure t) : (a.state p).out.toList.Nodup := by
  refine List.nodup_iff_count_le_one.2 fun i ↦ ?_
  rw [Array.count_toList]
  by_cases hi : i ∈ (a.state p).out
  · rw [h.count_out (Array.getElem?_eq_getElem (h.lt_of_mem_out hi)) p]
    split
    · exact Nat.le_refl _
    · exact Nat.zero_le _
  · rw [Array.count_eq_zero.2 hi]
    exact Nat.zero_le _

theorem IsClosure.nodup_flatMap_tells (h : a.IsClosure t) (n : Nat) :
    ((List.range n).flatMap (a.tells q)).Nodup := by
  refine List.nodup_flatMap.2 ⟨fun p _ ↦ ?_, ?_⟩
  · unfold tells
    split
    · exact List.nodup_nil
    · exact h.nodup_out.filter _
  · refine List.nodup_range.imp fun {p p'} hne i hi hi' ↦ hne ?_
    exact (h.source_of_mem_out (mem_tells.1 hi).2.2.1).1.symm.trans
      (h.source_of_mem_out (mem_tells.1 hi').2.2.1).1

end Automaton

/-! ## Nothing leads to the dummy -/

namespace Tree

variable {t : Tree} {ok : CodePointSet → Prop} {k : MarkerSet × Bool} {b : Branch}
  {anchored : Bool} {lead : Nat}

theorem Regular.start_ne_wrappedRoot (h : t.Regular ok) (hlead : lead ≤ t.leadLength) :
    t.markers [t.start anchored lead] ≠ t.markers [t.wrappedRoot] := by
  intro heq
  obtain ⟨g, hgroup⟩ := NodeKind.isGroup_iff.1 h.wrappedRoot_group
  rw [← eq_of_markers_eq heq, h.start_kind hlead] at hgroup
  cases hgroup

theorem Regular.targetOf_ne_wrappedRoot (h : t.Regular t.encoding.Fits) (hb : b ∈ t.branches k) :
    t.targetOf k b ≠ t.markers [t.wrappedRoot] := by
  intro heq
  cases hfinal : b.isFinal with
  | true => exact h.not_ends_wrappedRoot (heq ▸ h.ends_of_isFinal hb hfinal)
  | false =>
    obtain ⟨g, hgroup⟩ := NodeKind.isGroup_iff.1 h.wrappedRoot_group
    obtain ⟨x, hx, set, hkind⟩ := h.exists_chars_of_branch hb hfinal
    rw [heq, mem_markers, List.mem_singleton] at hx
    cases hkind.symm.trans (hx ▸ hgroup)

end Tree

namespace Assembly

open Automaton

variable {t : Tree} {o : Options} {fl : Flags} {f : Fixed} {queue : Array Nat}
  {m₀ m m' : Assembly o} {a : Automaton} {p q i : Nat} {s : State} {k : MarkerSet × Bool}

section Finishes

variable (hfin : Finishes t o f queue m m' a) (ht : t.Regular t.encoding.Fits)
include hfin

/-- The dummy is the only state that holds the root of the whole. -/
theorem Finishes.ne_dummy_of_key (hkey : m.key? q = some k)
    (hne : k.1 ≠ t.markers [t.wrappedRoot]) : q ≠ a.dummy := by
  rintro rfl
  rw [hfin.dummy] at hkey
  exact hne (congrArg Prod.fst (Option.some.inj (hkey.symm.trans hfin.stands.dummy)))

include ht

theorem Finishes.ne_dummy_of_loopBack {tr : Transition}
    (hloop : LoopBack t a.unanchored.states a.advanced tr) : tr.target ≠ a.dummy := by
  rw [hfin.unanchored, hfin.advanced] at hloop
  rcases restarts_of_loopBack hfin.stands hloop with hmem | hadvanced
  · obtain ⟨lead, hlead, hkey⟩ := hfin.stands.unanchored.exists_lead hmem
    exact hfin.ne_dummy_of_key hkey (ht.start_ne_wrappedRoot (Nat.le_of_lt_succ hlead))
  · exact hfin.ne_dummy_of_key (hfin.stands.advanced _ hadvanced).2
      (ht.start_ne_wrappedRoot (Nat.zero_le _))

/-- **No state leads to the dummy**, save for the final ones, for which nothing is listed. -/
theorem Finishes.target_ne_dummy (hclosure : a.IsClosure t) (hp : p ≠ a.dummy)
    (hi : i ∈ (a.state p).out) : (a.transition i).target ≠ a.dummy := by
  obtain ⟨s, hs⟩ := exists_state_of_mem_out hi
  rw [state_eq hs] at hi
  have hfinal : s.isFinal = false := by
    refine Bool.eq_false_iff.2 fun hfinal ↦ ?_
    rw [hclosure.final hs hfinal] at hi
    exact Array.not_mem_empty i hi
  obtain ⟨made, back, hout, hmade, hback⟩ := hclosure.expanded hs hp hfinal
  have hmem : a.transition i ∈ made ++ back := by
    rw [← hout]
    exact List.mem_map_of_mem (Array.mem_toList_iff.2 hi)
  rcases List.mem_append.1 hmem with hmem | hmem
  · obtain ⟨b, hb, hcarries⟩ := exists_of_forall₂ hmade hmem
    refine hfin.ne_dummy_of_key (k := (t.targetOf s.key b, false)) ?_
      (ht.targetOf_ne_wrappedRoot hb)
    rw [← hfin.key_eq, hcarries.target]
  · exact hfin.ne_dummy_of_loopBack ht (hback _ hmem).2.2

theorem Finishes.not_inLead_dummy (hlead : t.LeadsIn) (hs : a.states[a.dummy]? = some s) :
    ¬s.InLead t := by
  rintro ⟨x, hx, hhard⟩
  have hkey := hfin.key_of_state hs
  rw [hfin.dummy, hfin.stands.dummy] at hkey
  obtain ⟨g, hgroup⟩ := NodeKind.isGroup_iff.1 ht.wrappedRoot_group
  rw [show s.markers = t.markers [t.wrappedRoot] from
    (congrArg Prod.fst (Option.some.inj hkey)).symm, Tree.mem_markers, List.mem_singleton] at hx
  rw [hx] at hhard
  cases (ht.kind_of_mem_hardPrefix hlead hhard).symm.trans hgroup

end Finishes

/-! ## What is told and noted -/

section Stages

variable (h : Stages t o fl f m₀ m m' a) (hfin : Finishes t o f queue m m' a)
  (ht : t.Regular t.encoding.Fits)
include h

theorem Stages.size_states : m'.states.size = a.states.size := by
  have hlinked : Linked t fl f.dummy m' _ (m'.linkAll t fl f.dummy) := linked_linkAll
  have hsize := congrArg Array.size hlinked.map_unlinked
  rw [Array.size_map, Array.size_map, ← h.states] at hsize
  exact hsize.symm

include hfin ht

theorem Stages.mem_hardPrefixStates (hlead : t.LeadsIn) : q ∈ a.hardPrefixStates ↔
    fl.sticky = false ∧ ∃ s, a.states[q]? = some s ∧ s.InLead t := by
  have hmarkers : (a.states.getD q default).markers = (m'.states.getD q default).markers := by
    rw [h.states]
    exact (linked_linkAll.getD q).1
  rw [← Array.mem_toList_iff, h.toList_hardPrefixStates, List.mem_filter, List.mem_range,
    h.size_states, notes, Bool.and_eq_true, bne_iff_ne, Bool.not_eq_true', Bool.or_eq_false_iff,
    MarkerSet.isDisjoint, ← hmarkers, ← hfin.dummy, IndexSet.isDisjoint_eq_false_iff]
  constructor
  · rintro ⟨hlt, -, hsticky, x, hhard, hx⟩
    have hs := Array.getElem?_eq_getElem hlt
    rw [Array.getD_eq_getD_getElem?, hs, Option.getD_some] at hx
    exact ⟨hsticky, _, hs, x, hx, hhard⟩
  · rintro ⟨hsticky, s, hs, x, hx, hhard⟩
    refine ⟨(Array.getElem?_eq_some_iff.1 hs).1, ?_, hsticky, x, hhard, ?_⟩
    · rintro rfl
      exact hfin.not_inLead_dummy ht hlead hs ⟨x, hx, hhard⟩
    · rw [Array.getD_eq_getD_getElem?, hs, Option.getD_some]
      exact hx

omit hfin in
theorem Stages.hardPrefix_iff (hs : a.states[q]? = some s) :
    s.roles.hardPrefix = true ↔ q ∈ a.hardPrefixStates := by
  obtain ⟨s₀, hfresh, rfl⟩ := h.exists_fresh ht hs
  rw [← Array.mem_toList_iff, h.toList_hardPrefixStates]
  simp only [linked, heard, hfresh.hardPrefix, Bool.false_or, decide_eq_true_iff]

/-- What one state tells of is what can be told in the finished automaton. -/
theorem Stages.told_eq_tells (hp : p < a.states.size) :
    m'.told t fl f.dummy q p = a.tells q p := by
  have hs := Array.getElem?_eq_getElem hp
  have hnotes : m'.notes t fl f.dummy p = (a.state p).roles.hardPrefix := by
    rw [Bool.eq_iff_iff, state_eq hs, h.hardPrefix_iff ht hs, ← Array.mem_toList_iff,
      h.toList_hardPrefixStates, List.mem_filter, List.mem_range, h.size_states, and_iff_right hp]
  rw [told, tells, hnotes, hfin.dummy, hfin.out]
  congr 1
  refine List.filter_congr fun i _ ↦ ?_
  rw [transition, hfin.transitions]

/-- **What a state has been told of.** -/
theorem Stages.into_eq (hs : a.states[q]? = some s) : s.into.toList =
    (f.into q).toList ++ (List.range a.states.size).flatMap (a.tells q) := by
  obtain ⟨s₀, hfresh, rfl⟩ := h.exists_fresh ht hs
  have hall : (List.range m'.states.size).flatMap (m'.told t fl f.dummy q) =
      (List.range a.states.size).flatMap (a.tells q) := by
    rw [h.size_states]
    exact List.flatMap_congr fun p hp ↦ h.told_eq_tells hfin ht (List.mem_range.1 hp)
  rw [linked, heard, hfresh.into, Array.toList_append, hall]

theorem Stages.into_of_ne_dummy (hs : a.states[q]? = some s) (hq : q ≠ a.dummy) :
    s.into.toList = (List.range a.states.size).flatMap (a.tells q) := by
  rw [h.into_eq hfin ht hs, Fixed.into, if_neg (hfin.dummy ▸ hq)]
  rfl

/-- The dummy is told of nothing, so its predecessors are the entries that it was made with. -/
theorem Stages.into_dummy (hclosure : a.IsClosure t) (hs : a.states[a.dummy]? = some s) :
    s.into = #[0, 1] := by
  have hnone : (List.range a.states.size).flatMap (a.tells a.dummy) = [] := by
    refine List.flatMap_eq_nil_iff.2 fun p _ ↦ List.eq_nil_iff_forall_not_mem.2 fun i hi ↦ ?_
    obtain ⟨hp, -, hout, htarget⟩ := mem_tells.1 hi
    exact hfin.target_ne_dummy ht hclosure hp hout htarget
  have heq := h.into_eq hfin ht hs
  rw [hnone, List.append_nil, Fixed.into, if_pos hfin.dummy] at heq
  exact Array.toList_inj.1 heq

end Stages

end Assembly

namespace Automaton

open Assembly

variable {t : Tree} {o : Options} {fl : Flags} {a : Automaton} {pattern : Bytes}

/-- **Predecessors and the lead-in.** States are told of transitions in the order in which these are
listed, but not of those that leave the dummy or a state that is noted as being within the lead-in;
and automata of the same pattern for different searches differ in nothing else than in what is told
and noted. -/
theorem linksBack_ofPattern (htree : Tree.ofPattern o pattern = .ok t)
    (ha : ofTree t o fl = .ok a) : a.LinksBack t fl ∧
      ∀ fl', ∃ a', ofTree t o fl' = .ok a' ∧ a'.unlinked = a.unlinked := by
  have ht := (Tree.regular_of_ofPattern htree).2
  have hlead := Tree.leadsIn_of_ofPattern htree
  have hclosure := isClosure_ofTree ht ha
  obtain ⟨f, queue, m₀, m, m', hstages, hfin⟩ := exists_stages ht ha
  have hinto : ∀ {q : Nat} {s : State}, a.states[q]? = some s → q ≠ a.dummy →
      s.into.toList = (List.range a.states.size).flatMap (a.tells q) :=
    hstages.into_of_ne_dummy hfin ht
  have hdummy : ∀ {s : State}, a.states[a.dummy]? = some s → s.into = #[0, 1] :=
    hstages.into_dummy hfin ht hclosure
  refine ⟨?_, fun fl' ↦ ?_⟩
  · constructor
    case inLead =>
      intro q x y s hs hx hhard hy hne
      exact ht.eq_or_mem_body_of_mem_hardPrefix hlead (hstages.state_spec ht hs).1 hx hhard hy hne
    case mem_hardPrefixStates => exact hstages.mem_hardPrefixStates hfin ht hlead
    case ascending =>
      rw [hstages.toList_hardPrefixStates]
      exact List.pairwise_lt_range.filter _
    case hardPrefix => exact fun hs ↦ hstages.hardPrefix_iff ht hs
    case into_dummy =>
      have hkey := hfin.key_eq a.dummy
      rw [hfin.dummy, hfin.stands.dummy] at hkey
      obtain ⟨s, hs, -⟩ := Option.map_eq_some_iff.1 (hfin.dummy ▸ hkey)
      rw [state_eq hs, hdummy hs]
    case into => exact hinto
    case nodup =>
      intro q s hs
      by_cases hq : q = a.dummy
      · subst hq
        rw [hdummy hs]
        decide
      · rw [hinto hs hq]
        exact hclosure.nodup_flatMap_tells _
    case source =>
      intro q i s hs hq hi
      rw [← Array.mem_toList_iff, hinto hs hq] at hi
      obtain ⟨p, -, hi⟩ := List.mem_flatMap.1 hi
      obtain ⟨hp, -, hout, htarget⟩ := mem_tells.1 hi
      obtain ⟨hsource, hloop⟩ := hclosure.source_of_mem_out hout
      exact ⟨hsource ▸ hp, htarget, hloop⟩
  · have hmap : (ofTree t o fl').map unlinked = .ok a.unlinked := by
      rw [map_unlinked_ofTree fl' fl, ha]
      rfl
    cases ha' : ofTree t o fl' with
    | error e => rw [ha'] at hmap; cases hmap
    | ok a' =>
      rw [ha'] at hmap
      exact ⟨a', rfl, Except.ok.inj hmap⟩

/-- A search that starts one character in front of the pattern, for the sake of a look-behind
assertion. -/
theorem linksBack_lookBehind : ∃ t a,
    Tree.ofPattern (roomyOptions true) (.ofString "(?<=a)") = .ok t ∧
      ofTree t (roomyOptions true) {} = .ok a ∧ a.LinksBack t {} ∧
        ∀ fl', ∃ a', ofTree t (roomyOptions true) fl' = .ok a' ∧ a'.unlinked = a.unlinked := by
  obtain ⟨t, a, ht, ha, -⟩ := exists_ofPattern (fun _ ↦ true)
    (show (Tree.ofPattern (roomyOptions true) (.ofString "(?<=a)")).toOption.any _ = true by
      decide +kernel) {}
  exact ⟨t, a, ht, ha, linksBack_ofPattern ht ha⟩

end Automaton

end PatternAutomata
