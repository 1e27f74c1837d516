import PatternAutomata.Proofs.Automaton.Closure
import PatternAutomata.Proofs.Automaton.Links
import PatternAutomata.Proofs.Automaton.LoopBacks

/-!
# The characters of states

What a state can be entered on is reckoned once, from its markers, when the state is made. The
transitions into it are made whenever a branch leads there, each from a partition of its own. Both
are in keeping: a branch holds only characters that all the classes have which it leads to, and the
classes of a state are those that some branch has led to. As no branch is empty, the classes of a
state have a character in common.
-/

namespace PatternAutomata

namespace Tree

variable {t : Tree} {o : Options} {markers : MarkerSet} {k : MarkerSet × Bool} {b : Branch}
  {c : CodePoint} {x : Nat}

/-! ## Characters in common -/

/-- All classes among some nodes have a character. -/
def AllHave (t : Tree) (c : CodePoint) (ids : List Nat) : Prop :=
  ∀ x ∈ ids, ∀ set, (t.node x).kind.chars? = some set → c ∈ set

/-- A class is among some nodes. -/
def HaveClass (t : Tree) (ids : List Nat) : Prop := ∃ x ∈ ids, (t.node x).kind.isChars = true

/-- One more marker is reckoned with. -/
def narrow (t : Tree) (common : Option CodePointSet) (marker : Nat) : Option CodePointSet :=
  match (t.node marker).kind.chars? with
  | none => common
  | some set => some (match common with
    | none => set
    | some common => common.intersect set)

/-- What has come of some markers: nothing if there is no class among them, and otherwise the
characters that all classes have. -/
structure Narrows (t : Tree) (ids : List Nat) (common : Option CodePointSet) : Prop where
  isSome_iff : common.isSome = true ↔ t.HaveClass ids
  canonical : ∀ set ∈ common, set.Canonical
  mem_iff : ∀ set ∈ common, ∀ c, c ∈ set ↔ t.AllHave c ids

theorem Regular.canonical_of_chars (h : t.Regular t.encoding.Fits) {set : CodePointSet}
    (hset : (t.node x).kind.chars? = some set) : set.Canonical := by
  obtain ⟨set', claim, hkind⟩ := NodeKind.isChars_iff.1
    (show (t.node x).kind.isChars = true by rw [NodeKind.isChars, hset]; rfl)
  rw [hkind] at hset
  exact Option.some.inj hset ▸ (h.fits_chars hkind).1

theorem allHave_concat {ids : List Nat} : t.AllHave c (ids ++ [x]) ↔
    t.AllHave c ids ∧ ∀ set, (t.node x).kind.chars? = some set → c ∈ set := by
  simp only [AllHave, List.forall_mem_append, List.forall_mem_singleton]

theorem Narrows.narrow (h : t.Regular t.encoding.Fits) {ids : List Nat}
    {common : Option CodePointSet} (hcommon : t.Narrows ids common) :
    t.Narrows (ids ++ [x]) (t.narrow common x) := by
  have hhave : t.HaveClass (ids ++ [x]) ↔ t.HaveClass ids ∨ (t.node x).kind.isChars = true := by
    simp [HaveClass, or_and_right, exists_or]
  unfold Tree.narrow
  cases hkind : (t.node x).kind.chars? with
  | none =>
    have hnot : (t.node x).kind.isChars = false := by rw [NodeKind.isChars, hkind]; rfl
    refine ⟨hcommon.isSome_iff.trans (by rw [hhave, hnot]; simp), hcommon.canonical,
      fun set hset c ↦ (hcommon.mem_iff set hset c).trans ?_⟩
    rw [allHave_concat, hkind]
    simp
  | some set =>
    have hchars : (t.node x).kind.isChars = true := by rw [NodeKind.isChars, hkind]; rfl
    have hcanonical := h.canonical_of_chars hkind
    have hsome : ∀ {s : CodePointSet}, (some s).isSome = true ↔ t.HaveClass (ids ++ [x]) :=
      fun {s} ↦ iff_of_true rfl (hhave.2 (.inr hchars))
    have hlast : ∀ {c}, (∀ s, some set = some s → c ∈ s) ↔ c ∈ set :=
      fun {c} ↦ ⟨fun hall ↦ hall set rfl, fun hc s hs ↦ Option.some.inj hs ▸ hc⟩
    cases common with
    | none =>
      -- there has been no class so far, so all that there are have every character
      have hall : ∀ {c}, t.AllHave c ids := by
        intro c y hy s hs
        have hclass : t.HaveClass ids := ⟨y, hy, by rw [NodeKind.isChars, hs]; rfl⟩
        exact absurd (hcommon.isSome_iff.2 hclass) Bool.false_ne_true
      refine ⟨hsome, fun s hs ↦ ?_, fun s hs c ↦ ?_⟩
      · cases hs
        exact hcanonical
      · cases hs
        rw [allHave_concat, hkind, hlast, and_iff_right hall]
    | some common =>
      have hold := hcommon.canonical common rfl
      refine ⟨hsome, fun s hs ↦ ?_, fun s hs c ↦ ?_⟩
      · cases hs
        exact hold.intersect hcanonical
      · cases hs
        rw [allHave_concat, hkind, hlast, CodePointSet.mem_intersect hold hcanonical,
          hcommon.mem_iff common rfl]

theorem narrows_foldl (h : t.Regular t.encoding.Fits) (ids : List Nat) :
    t.Narrows ids (ids.foldl t.narrow none) := by
  induction ids using List.reverseRecOn with
  | nil => exact ⟨iff_of_false Bool.false_ne_true (by simp [HaveClass]), nofun, nofun⟩
  | append_singleton ids x ih =>
    rw [List.foldl_concat]
    exact ih.narrow h

theorem Regular.commonChars_eq_empty (h : t.Regular t.encoding.Fits)
    (hnone : ∀ x ∈ markers.members, (t.node x).kind.isChars = false) :
    t.commonChars markers = .empty := by
  have hnarrows := narrows_foldl h markers.toList
  have hfold : markers.toList.foldl t.narrow none = none := by
    rw [← Option.not_isSome_iff_eq_none, hnarrows.isSome_iff]
    rintro ⟨x, hx, hchars⟩
    exact Bool.noConfusion ((hnone x hx).symm.trans hchars)
  exact congrArg (·.getD .empty) hfold

/-- **The characters that all classes have**, if there are any classes. -/
theorem Regular.commonChars_spec (h : t.Regular t.encoding.Fits)
    (hclass : t.HaveClass markers.toList) : (t.commonChars markers).Canonical ∧
      ∀ c, c ∈ t.commonChars markers ↔ t.AllHave c markers.toList := by
  have hnarrows := narrows_foldl h markers.toList
  obtain ⟨set, hset⟩ := Option.isSome_iff_exists.1 (hnarrows.isSome_iff.2 hclass)
  have hcommon : t.commonChars markers = set := congrArg (·.getD .empty) hset
  rw [hcommon]
  exact ⟨hnarrows.canonical set hset, hnarrows.mem_iff set hset⟩

/-! ## Keys -/

theorem Regular.allHave_targetOf (h : t.Regular t.encoding.Fits) (hb : b ∈ t.branches k)
    (hc : b.Reads c) : t.AllHave c (t.targetOf k b).toList := by
  intro x hx set hset
  have hchars : (t.node x).kind.isChars = true := by rw [NodeKind.isChars, hset]; rfl
  have hlookBehind : (t.node x).kind.isLookBehind = false := by
    obtain ⟨set', claim, hkind⟩ := NodeKind.isChars_iff.1 hchars
    rw [hkind]
    rfl
  obtain ⟨d, -, rfl, hreads⟩ := (h.mem_targetOf_iff hb hc hlookBehind).1 hx
  rw [Successor.reads, Bool.and_eq_true, decide_eq_true_iff, Successor.chars, hset] at hreads
  exact hreads.2

theorem Regular.haveClass_targetOf (h : t.Regular t.encoding.Fits) (hb : b ∈ t.branches k)
    (hfinal : b.isFinal = false) : t.HaveClass (t.targetOf k b).toList := by
  obtain ⟨x, hx, set, hkind⟩ := h.exists_chars_of_branch hb hfinal
  exact ⟨x, hx, by rw [hkind]; rfl⟩

/-- **What a branch is taken on**, the state that it leads to can be entered on. -/
theorem Regular.mem_commonChars_targetOf (h : t.Regular t.encoding.Fits) (hb : b ∈ t.branches k)
    (hc : b.Reads c) : c ∈ t.commonChars (t.targetOf k b) :=
  ((h.commonChars_spec (h.haveClass_targetOf hb hc.1)).2 c).2 (h.allHave_targetOf hb hc)

theorem Regular.exists_reads (h : t.Regular t.encoding.Fits) (hb : b ∈ t.branches k)
    (hfinal : b.isFinal = false) : ∃ c, b.Reads c := by
  obtain ⟨c, hc⟩ := Branch.filled_ofSuccessors (fun d _ _ ↦ h.canonical_chars d) b hb hfinal
  exact ⟨c, hfinal, hc⟩

theorem Ends.isChars_eq_false (h : t.Ends markers) :
    ∀ x ∈ markers.members, (t.node x).kind.isChars = false := by
  intro x hx
  cases hkind : (t.node x).kind with
  | chars set claim =>
    rcases h x hx with hfinal | hlookBehind
    · rw [isFinal, hkind] at hfinal
      cases hfinal
    · rw [hkind] at hlookBehind
      cases hlookBehind
  | _ => rfl

theorem isChars_of_mem_singleton {y : Nat} (hy : (t.node y).kind.isChars = false) :
    ∀ x ∈ (t.markers [y]).members, (t.node x).kind.isChars = false := by
  intro x hx
  rw [List.mem_singleton.1 (mem_markers.1 hx)]
  exact hy

end Tree

namespace Assembly

variable {t : Tree} {o : Options} {fl : Flags} {f : Fixed} {queue : Array Nat}
  {m₀ m m' : Assembly o} {a : Automaton} {q : Nat} {s : State}

/-! ## States -/

theorem Enters.getD_mem {anchored : Bool} {n lead : Nat} {entries : Entries}
    (h : Enters t o anchored n m entries) (hlead : lead < n) :
    entries.states.getD lead 0 ∈ entries.states := by
  have hsize := congrArg List.length h.states
  rw [List.length_map, List.length_map, List.length_range, Array.length_toList] at hsize
  rw [Array.getD_eq_getD_getElem?, Array.getElem?_eq_getElem (by omega), Option.getD_some]
  exact Array.getElem_mem _

theorem Fixed.mem_initial {id : Nat} :
    id ∈ f.initial ↔ id ∈ f.unanchored.states ∨ id ∈ ownStates f.ownAnchored := by
  rw [Fixed.initial, List.mem_append, Array.mem_toList_iff, Array.mem_toList_iff]

theorem Fixed.Stands.exists_lead (h : f.Stands t o m) {id : Nat} (hid : id ∈ f.initial) :
    ∃ anchored, ∃ lead ≤ t.leadLength, m.key? id = some (t.startKey o anchored lead) := by
  rcases Fixed.mem_initial.1 hid with hid | hid
  · obtain ⟨lead, hlead, hkey⟩ := h.unanchored.exists_lead hid
    exact ⟨false, lead, Nat.le_of_lt_succ hlead, hkey⟩
  · have hown := h.own
    cases howned : f.ownAnchored with
    | none =>
      rw [howned] at hid
      exact absurd hid (Array.not_mem_empty id)
    | some own =>
      rw [howned] at hown hid
      obtain ⟨lead, hlead, hkey⟩ := hown.2.exists_lead hid
      exact ⟨true, lead, Nat.le_of_lt_succ hlead, hkey⟩

theorem Fixed.Stands.mem_initial_of_key (h : f.Stands t o m) (htabled : Tabled m)
    {anchored : Bool} {lead : Nat} (hlead : lead ≤ t.leadLength)
    (hcarets : anchored = true → t.carets.isEmpty = false)
    (hkey : m.key? q = some (t.startKey o anchored lead)) : q ∈ f.initial := by
  have hlead := Nat.lt_succ_of_le hlead
  rw [Fixed.mem_initial]
  cases anchored with
  | false =>
    rw [htabled.key_inj hkey (h.unanchored.key_getD hlead)]
    exact .inl (h.unanchored.getD_mem hlead)
  | true =>
    have hown := h.own
    have hcarets := hcarets rfl
    cases howned : f.ownAnchored with
    | none =>
      rw [howned] at hown
      exact Bool.noConfusion (hcarets.symm.trans hown)
    | some own =>
      rw [howned] at hown
      rw [htabled.key_inj hkey (hown.2.key_getD hlead)]
      exact .inr (hown.2.getD_mem hlead)

section Stages

variable (h : Stages t o fl f m₀ m m' a) (hfin : Finishes t o f queue m m' a)
  (ht : t.Regular t.encoding.Fits) (hs : a.states[q]? = some s)
include h hfin ht hs

theorem Stages.of_chars_eq_empty (hempty : s.chars = .empty) :
    q = a.dummy ∨ s.isInitial = true ∨ a.advanced = some q ∨ s.isFinal = true := by
  obtain ⟨harises, hchars, hinitial⟩ := h.state_spec ht hs
  have hk := hfin.key_of_state hs
  rw [hfin.isFinal_iff_ends hs, hinitial, hfin.dummy, hfin.advanced]
  rw [hchars, show s.markers = s.key.1 from rfl] at hempty
  generalize s.key = k at harises hempty hk
  cases harises with
  | dummy => exact .inl (hfin.underway.tabled.key_inj hk hfin.stands.dummy)
  | anchoredFinal => exact .inr (.inr (.inr ht.ends_dollars))
  | unanchoredFinal => exact .inr (.inr (.inr ht.ends_matchFound))
  | advanced hmust =>
    obtain ⟨id, hid⟩ := Option.isSome_iff_exists.1 ((founded_start ht h.start).2 hmust)
    rw [hfin.underway.tabled.key_inj hk (hfin.stands.advanced id hid).2]
    exact .inr (.inr (.inl hid))
  | start hlead hcarets =>
    exact .inr (.inl (hfin.stands.mem_initial_of_key hfin.underway.tabled hlead hcarets hk))
  | branch hk' hb =>
    cases hfinal : Branch.isFinal _ with
    | true => exact .inr (.inr (.inr (ht.ends_of_isFinal hb hfinal)))
    | false =>
      -- what the branch is taken on, the state could be entered on
      obtain ⟨c, hc⟩ := ht.exists_reads hb hfinal
      have hmem := ht.mem_commonChars_targetOf hb hc
      rw [hempty] at hmem
      exact absurd hmem CodePointSet.not_mem_nil

omit h in
theorem Finishes.key_isChars_eq_false
    (hq : q = a.dummy ∨ q ∈ f.initial ∨ a.advanced = some q ∨ s.isFinal = true) :
    ∀ x ∈ s.markers.members, (t.node x).kind.isChars = false := by
  have hk := hfin.key_of_state hs
  have hstart : ∀ {anchored lead}, lead ≤ t.leadLength →
      (t.node (t.start anchored lead)).kind.isChars = false := fun hlead ↦ by
    rw [ht.start_kind hlead]
    rfl
  rcases hq with rfl | hq | hq | hq
  · have hkey := Option.some.inj (hk.symm.trans (hfin.dummy ▸ hfin.stands.dummy))
    rw [show s.markers = t.markers [t.wrappedRoot] from congrArg Prod.fst hkey]
    obtain ⟨g, hgroup⟩ := NodeKind.isGroup_iff.1 ht.wrappedRoot_group
    exact Tree.isChars_of_mem_singleton (by rw [hgroup]; rfl)
  · obtain ⟨anchored, lead, hlead, hkey⟩ := hfin.stands.exists_lead hq
    have hkey := Option.some.inj (hk.symm.trans hkey)
    rw [show s.markers = t.markers [t.start anchored lead] from congrArg Prod.fst hkey]
    exact Tree.isChars_of_mem_singleton (hstart hlead)
  · have hkey := Option.some.inj
      (hk.symm.trans (hfin.stands.advanced q (hfin.advanced.symm.trans hq)).2)
    rw [show s.markers = t.markers [t.start false 0] from congrArg Prod.fst hkey]
    exact Tree.isChars_of_mem_singleton (hstart (Nat.zero_le _))
  · exact ((hfin.isFinal_iff_ends hs).1 hq).isChars_eq_false

/-- **The states without characters** are those that no character leads to. -/
theorem Stages.chars_eq_empty_iff : s.chars = .empty ↔
    q = a.dummy ∨ s.isInitial = true ∨ a.advanced = some q ∨ s.isFinal = true := by
  refine ⟨h.of_chars_eq_empty hfin ht hs, fun hq ↦ ?_⟩
  obtain ⟨-, hchars, hstart⟩ := h.state_spec ht hs
  rw [hstart] at hq
  rw [hchars, ht.commonChars_eq_empty (hfin.key_isChars_eq_false ht hs hq)]

omit hfin in
/-- **The characters of any other state.** -/
theorem Stages.chars_spec (hne : s.chars ≠ .empty) :
    s.chars.Canonical ∧ (∃ c, c ∈ s.chars) ∧ t.HaveClass s.markers.toList ∧
      ∀ c, c ∈ s.chars ↔ t.AllHave c s.markers.toList := by
  have hchars := (h.state_spec ht hs).2.1
  have hclass : t.HaveClass s.markers.toList := by
    by_contra hnone
    refine hne (hchars.trans (ht.commonChars_eq_empty fun x hx ↦ ?_))
    exact Bool.eq_false_iff.2 fun hx' ↦ hnone ⟨x, hx, hx'⟩
  obtain ⟨hcanonical, hmem⟩ := ht.commonChars_spec hclass
  rw [← hchars] at hcanonical hmem
  refine ⟨hcanonical, ?_, hclass, hmem⟩
  by_contra hnone
  exact hne (hcanonical.eq_empty_iff.2 fun c hc ↦ hnone ⟨c, hc⟩)

theorem Stages.chars_ne_empty {x : Nat} (hx : x ∈ s.markers.members)
    (hchars : (t.node x).kind.isChars = true) : s.chars ≠ .empty := by
  intro hempty
  have hq := (h.chars_eq_empty_iff hfin ht hs).1 hempty
  rw [(h.state_spec ht hs).2.2] at hq
  exact Bool.noConfusion (hchars.symm.trans (hfin.key_isChars_eq_false ht hs hq x hx))

end Stages

end Assembly

namespace Automaton

open Assembly

variable {t : Tree} {o : Options} {fl : Flags} {a : Automaton} {pattern : Bytes} {q i : Nat}
  {k : MarkerSet × Bool} {b : Branch} {tr : Transition}

/-! ## Transitions -/

/-- A transition that expansion has made, by its number: it leaves a state other than the dummy, and
it is no loop-back. The loop-backs, which are the others that leave such a state, lead to where a
search starts. -/
def IsExpansion (a : Automaton) (i : Nat) : Prop :=
  (a.transition i).source ≠ a.dummy ∧ i ∈ (a.state (a.transition i).source).out ∧
    (a.transition i).target ∉ a.unanchored.states ∧ a.advanced ≠ some (a.transition i).target

/-- **What expansion has made** is there for a branch of the source, and has the place of the branch
among what leaves it. -/
theorem IsClosure.exists_branch (h : a.IsClosure t)
    (hinitial : ∀ lead ≤ t.leadLength, a.initial false lead ∈ a.unanchored.states)
    (hi : a.IsExpansion i) : ∃ (s : State) (n : Nat) (b : Branch),
      a.states[(a.transition i).source]? = some s ∧ s.out[n]? = some i ∧
        (t.branches s.key)[n]? = some b ∧
          a.Carries t (a.transition i).source s.key b (a.transition i) := by
  obtain ⟨hdummy, hi, hunanchored, hadvanced⟩ := hi
  obtain ⟨s, hs⟩ := exists_state_of_mem_out hi
  rw [state_eq hs] at hi
  have hfinal : s.isFinal = false := by
    refine Bool.eq_false_iff.2 fun hfinal ↦ ?_
    rw [h.final hs hfinal] at hi
    exact Array.not_mem_empty i hi
  obtain ⟨made, back, hout, hmade, hback⟩ := h.expanded hs hdummy hfinal
  obtain ⟨n, hn⟩ := Array.mem_iff_getElem?.1 hi
  have hget : (made ++ back)[n]? = some (a.transition i) := by
    rw [← hout, List.getElem?_map, Array.getElem?_toList, hn, Option.map_some]
  obtain ⟨hlength, hcarries⟩ := List.forall₂_iff_get.1 hmade
  by_cases hlt : n < made.length
  · rw [List.getElem?_append_left hlt] at hget
    obtain ⟨_, heq⟩ := List.getElem?_eq_some_iff.1 hget
    refine ⟨s, n, _, hs, hn, List.getElem?_eq_getElem (hlength ▸ hlt), ?_⟩
    have hcarries := hcarries n (hlength ▸ hlt) hlt
    rw [List.get_eq_getElem, List.get_eq_getElem, heq] at hcarries
    exact hcarries
  · rw [List.getElem?_append_right (Nat.not_lt.1 hlt)] at hget
    obtain ⟨-, -, hloop⟩ := hback _ (List.mem_of_getElem? hget)
    exfalso
    generalize a.transition i = tr at hunanchored hadvanced hloop
    cases hloop with
    | shorten hlead => exact hunanchored (hinitial _ (Nat.le_of_lt hlead))
    | advance htarget => exact hadvanced htarget

/-- What expansion has made, from end to end: the branch, its place, and where it leads. -/
structure Makes (t : Tree) (o : Options) (a : Automaton) (i n : Nat) (s s' : State) (b : Branch) :
    Prop where
  source : a.states[(a.transition i).source]? = some s
  out : s.out[n]? = some i
  branch : (t.branches s.key)[n]? = some b
  carries : a.Carries t (a.transition i).source s.key b (a.transition i)
  target : a.states[(a.transition i).target]? = some s'
  key : s'.key = (t.targetOf s.key b, false)
  /-- A match is found there just if the branch finds one. -/
  isFinal : s'.isFinal = b.isFinal

section Makes

variable {f : Fixed} {queue : Array Nat} {m₀ m m' : Assembly o} {j n n' : Nat} {s s' s'' : State}
  {b' : Branch}

theorem exists_makes (hclosure : a.IsClosure t) (hfin : Finishes t o f queue m m' a)
    (ht : t.Regular t.encoding.Fits) (ha : ofTree t o fl = .ok a) (hi : a.IsExpansion i) :
    ∃ n s s' b, a.Makes t o i n s s' b := by
  obtain ⟨s, n, b, hs, hn, hb, hcarries⟩ :=
    hclosure.exists_branch (fun _ hlead ↦ initial_mem ht ha hlead) hi
  obtain ⟨s', hs', hkey⟩ := Option.map_eq_some_iff.1 hcarries.target
  refine ⟨n, s, s', b, hs, hn, hb, hcarries, hs', hkey, Bool.eq_iff_iff.2 ?_⟩
  rw [hfin.isFinal_iff_ends hs', hkey, ht.discerns.ends (List.mem_of_getElem? hb)]

variable (h : a.Makes t o i n s s' b)
include h

theorem Makes.on : (a.transition i).on = b.on := h.carries.on

theorem Makes.mem_branches : b ∈ t.branches s.key := List.mem_of_getElem? h.branch

theorem Makes.on_spec (hstages : Stages t o fl f m₀ m m' a) (ht : t.Regular t.encoding.Fits)
    (hfinal : s'.isFinal = false) : (∃ c, c ∈ (a.transition i).on) ∧
      ∀ c ∈ (a.transition i).on, c ∈ s'.chars := by
  rw [h.isFinal] at hfinal
  obtain ⟨c, hc⟩ := ht.exists_reads h.mem_branches hfinal
  rw [h.on, (hstages.state_spec ht h.target).2.1,
    show s'.markers = t.targetOf s.key b from congrArg Prod.fst h.key]
  exact ⟨⟨c, hc.2⟩, fun c hc ↦ ht.mem_commonChars_targetOf h.mem_branches ⟨hfinal, hc⟩⟩

theorem Makes.on_eq_fullSet (ht : t.Regular t.encoding.Fits) (hfinal : s'.isFinal = true) :
    (a.transition i).on = t.encoding.fullSet := by
  rw [h.isFinal] at hfinal
  obtain ⟨j, d, -, -, hb⟩ := ((ht.exact_branches s.key).final hfinal).1 h.mem_branches
  rw [h.on, hb]
  rfl

theorem Makes.eq_of_mem (h' : a.Makes t o j n' s s'' b') (ht : t.Regular t.encoding.Fits)
    (hfinal : s'.isFinal = false) (hfinal' : s''.isFinal = false) {c : CodePoint}
    (hc : c ∈ (a.transition i).on) (hc' : c ∈ (a.transition j).on) : i = j := by
  have hbc : b.Reads c := ⟨h.isFinal ▸ hfinal, h.on ▸ hc⟩
  have hbc' : b'.Reads c := ⟨h'.isFinal ▸ hfinal', h'.on ▸ hc'⟩
  have hdisjoint := List.pairwise_iff_getElem.1 (ht.exact_branches s.key).separate.disjoint
  have hplace : n = n' := by
    obtain ⟨hlt, rfl⟩ := List.getElem?_eq_some_iff.1 h.branch
    obtain ⟨hlt', rfl⟩ := List.getElem?_eq_some_iff.1 h'.branch
    rcases Nat.lt_trichotomy n n' with hbefore | heq | hbehind
    · exact absurd hbc' (hdisjoint n n' hlt hlt' hbefore c hbc)
    · exact heq
    · exact absurd hbc (hdisjoint n' n hlt' hlt hbehind c hbc')
  subst hplace
  exact Option.some.inj (h.out.symm.trans h'.out)

end Makes

/-- The characters of the states are in keeping with the transitions. -/
structure IsCoherent (t : Tree) (a : Automaton) : Prop where
  /-- Searches start from the initial states. -/
  isInitial_iff : ∀ {q : Nat} {s : State}, a.states[q]? = some s →
    (s.isInitial = true ↔ q ∈ a.unanchored.states ∨ q ∈ a.anchored.states)
  /-- The states without characters are those that no character leads to. -/
  chars_eq_empty_iff : ∀ {q : Nat} {s : State}, a.states[q]? = some s → (s.chars = .empty ↔
    q = a.dummy ∨ s.isInitial = true ∨ a.advanced = some q ∨ s.isFinal = true)
  /-- Any other state has the characters that all classes among its markers have, of which there
  is one. -/
  mem_chars : ∀ {q : Nat} {s : State}, a.states[q]? = some s → s.chars ≠ .empty →
    s.chars.Canonical ∧ (∃ c, c ∈ s.chars) ∧
      (∃ x ∈ s.markers.members, (t.node x).kind.isChars = true) ∧
      ∀ c, c ∈ s.chars ↔
        ∀ x ∈ s.markers.members, ∀ set, (t.node x).kind.chars? = some set → c ∈ set
  /-- Any two classes among the markers of a state overlap. -/
  intersects : ∀ {q : Nat} {s : State}, a.states[q]? = some s → ∀ x ∈ s.markers.members,
    ∀ y ∈ s.markers.members, ∀ set set', (t.node x).kind.chars? = some set →
      (t.node y).kind.chars? = some set' → set.intersects set' = true
  /-- What expansion has made leads by some characters, all of which the state that it leads to can
  be entered on. -/
  on : ∀ {i}, a.IsExpansion i → (a.state (a.transition i).target).isFinal = false →
    (∃ c, c ∈ (a.transition i).on) ∧
      ∀ c ∈ (a.transition i).on, c ∈ (a.state (a.transition i).target).chars
  /-- Where a match is found, all characters lead. -/
  full : ∀ {i}, a.IsExpansion i → (a.state (a.transition i).target).isFinal = true →
    (a.transition i).on = t.encoding.fullSet
  /-- A character leads from a state in one way at most. -/
  deterministic : ∀ {i j : Nat} {c : CodePoint}, a.IsExpansion i → a.IsExpansion j →
    (a.transition i).source = (a.transition j).source →
    (a.state (a.transition i).target).isFinal = false →
    (a.state (a.transition j).target).isFinal = false →
    c ∈ (a.transition i).on → c ∈ (a.transition j).on → i = j

/-- **The characters of states are in keeping with the transitions**: all states but the fixed ones
have some, and these are what the classes among the markers have in common; whatever leads to a
state does so by some of them, and no two ways lead on from a state by the same character. -/
theorem isCoherent_ofPattern (htree : Tree.ofPattern o pattern = .ok t)
    (ha : ofTree t o fl = .ok a) : t.encoding = o.encoding ∧ a.IsCoherent t := by
  obtain ⟨hencoding, ht⟩ := Tree.regular_of_ofPattern htree
  obtain ⟨f, queue, m₀, m, m', hstages, hfin⟩ := exists_stages ht ha
  have hmakes : ∀ {i}, a.IsExpansion i → ∃ n s s' b, a.Makes t o i n s s' b :=
    exists_makes (isClosure_ofTree ht ha) hfin ht ha
  refine ⟨hencoding, ?_⟩
  constructor
  case isInitial_iff =>
    intro q s hs
    rw [(hstages.state_spec ht hs).2.2, Fixed.mem_initial, anchored, hfin.unanchored,
      hfin.ownAnchored]
    cases f.ownAnchored <;> simp [ownStates]
  case chars_eq_empty_iff => exact fun hs ↦ hstages.chars_eq_empty_iff hfin ht hs
  case mem_chars => exact fun hs hne ↦ hstages.chars_spec ht hs hne
  case intersects =>
    intro q s hs x hx y hy set set' hset hset'
    have hchars : (t.node x).kind.isChars = true := by rw [NodeKind.isChars, hset]; rfl
    obtain ⟨-, ⟨c, hc⟩, -, hmem⟩ :=
      hstages.chars_spec ht hs (hstages.chars_ne_empty hfin ht hs hx hchars)
    have hall := (hmem c).1 hc
    exact (CodePointSet.intersects_iff (ht.canonical_of_chars hset) (ht.canonical_of_chars hset')).2
      ⟨c, hall x hx set hset, hall y hy set' hset'⟩
  case on =>
    intro i hi hfinal
    obtain ⟨n, s, s', b, h⟩ := hmakes hi
    rw [state_eq h.target] at hfinal ⊢
    exact h.on_spec hstages ht hfinal
  case full =>
    intro i hi hfinal
    obtain ⟨n, s, s', b, h⟩ := hmakes hi
    rw [state_eq h.target] at hfinal
    exact h.on_eq_fullSet ht hfinal
  case deterministic =>
    intro i j c hi hj hsource hfinal hfinal' hc hc'
    obtain ⟨n, s, s', b, h⟩ := hmakes hi
    obtain ⟨n', s₂, s'', b', h'⟩ := hmakes hj
    obtain rfl : s = s₂ := Option.some.inj (h.source.symm.trans (hsource ▸ h'.source))
    rw [state_eq h.target] at hfinal
    rw [state_eq h'.target] at hfinal'
    exact h.eq_of_mem h' ht hfinal hfinal' hc hc'

/-- A look-behind assertion that is matched alongside classes which overlap with its body. -/
theorem isCoherent_lookBehind : ∃ t a,
    Tree.ofPattern (roomyOptions true) (.ofString "[ab](?<=b)[bc]") = .ok t ∧
      ofTree t (roomyOptions true) {} = .ok a ∧
        t.encoding = (roomyOptions true).encoding ∧ a.IsCoherent t := by
  obtain ⟨t, a, ht, ha, -⟩ := exists_ofPattern (fun _ ↦ true)
    (show (Tree.ofPattern (roomyOptions true) (.ofString "[ab](?<=b)[bc]")).toOption.any _ = true by
      decide +kernel) {}
  exact ⟨t, a, ht, ha, isCoherent_ofPattern ht ha⟩

end Automaton

end PatternAutomata
