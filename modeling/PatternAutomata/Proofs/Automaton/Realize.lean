import PatternAutomata.Proofs.Automaton.Branches
import PatternAutomata.Proofs.Automaton.Fixed

/-!
# Automata realize steps

What a finished automaton does, state by state. Loop-backs lead to where a search starts, and no
branch of a step leads there; all other transitions that leave a state are those of the branches of
its step, and each branch has one. This is all that is needed to follow a run through an automaton.
-/

namespace PatternAutomata

/-- The loop-backs that leave a state: from the initial state of a lead to that of the next shorter
one, and, if a match must advance, from the one of no lead to the state that any match is good
from. -/
inductive LoopBack (t : Tree) (initial : Array Nat) (advanced : Option Nat) : Transition → Prop
  | shorten {lead : Nat} : lead < t.leadLength → LoopBack t initial advanced
      { source := initial.getD (lead + 1) 0, target := initial.getD lead 0
        on := t.encoding.fullSet }
  | advance {target : Nat} : advanced = some target → LoopBack t initial advanced
      { source := initial.getD 0 0, target, on := t.encoding.fullSet }

namespace Automaton

/-- The state that a search starts from which goes through the given length of the lead-in. -/
def initial (a : Automaton) (anchored : Bool) (lead : Nat) : Nat :=
  (if anchored then a.anchored else a.unanchored).states.getD lead 0

/-- The transitions that expansion has made. The loop-backs, which are the others that leave a
state, lead to where a search starts. -/
def Expands (a : Automaton) (q : Nat) (tr : Transition) : Prop :=
  (∃ i ∈ (a.state q).out, a.transition i = tr) ∧
    tr.target ∉ a.unanchored.states ∧ a.advanced ≠ some tr.target

/-- A state that has a place within the pattern, and the key that it has. -/
structure Stands (t : Tree) (a : Automaton) (q : Nat) (k : MarkerSet × Bool) : Prop where
  key : (a.states[q]?).map State.key = some k
  ne_dummy : q ≠ a.dummy
  inside : ¬t.Ends k.1

/-- A transition is that of a branch of a state. -/
structure Renders (t : Tree) (a : Automaton) (k : MarkerSet × Bool) (b : Branch) (tr : Transition) :
    Prop where
  on : tr.on = b.on
  final : (a.state tr.target).isFinal = b.isFinal
  stands : b.isFinal = false → a.Stands t tr.target (t.targetOf k b, false)

/-- An automaton realizes the steps of a tree. -/
structure Realizes (t : Tree) (o : Options) (a : Automaton) : Prop where
  /-- If no caret can matter, then all searches start as if from anywhere. -/
  initial : ∀ {anchored lead}, lead ≤ t.leadLength →
    a.Stands t (a.initial anchored lead) (t.startKey o (anchored && !t.carets.isEmpty) lead)
  /-- Different states have different keys. -/
  inj : ∀ {q q' k}, a.Stands t q k → a.Stands t q' k → q = q'
  sound : ∀ {q k tr}, a.Stands t q k → a.Expands q tr → ∃ b ∈ t.branches k, a.Renders t k b tr
  complete : ∀ {q k b}, a.Stands t q k → b ∈ t.branches k →
    ∃ tr, a.Expands q tr ∧ a.Renders t k b tr

end Automaton

namespace Assembly

variable {t : Tree} {o : Options} {fl : Flags} {m m' m'' : Assembly o} {id q i : Nat}
  {k : MarkerSet × Bool} {f : Fixed} {tr : Transition} {loose : List Nat}

/-! ## Loop-backs -/

/-- What adding transitions that leave all slots alone keeps, and listing them, adding the
loop-backs keeps. -/
theorem addLoopBacks_induction {P : Assembly o → Prop}
    (hconnect : ∀ {m m' source target i}, P m → m.connectFreely t source target = .ok (i, m') →
      P m')
    (hout : ∀ {m q i}, P m → P (m.addOut q i)) (h : P m) {loopBack : Nat}
    (hok : m.addLoopBacks t f = .ok (loopBack, m')) : P m' := by
  unfold Assembly.addLoopBacks at hok
  obtain ⟨m₁, hrest, hok⟩ := exists_of_bind_eq_ok hok
  have h₁ : P m₁ := by
    refine of_foldlM_range_eq_ok (fun _ m₁ ↦ P m₁) h ?_ hrest
    intro lead m₂ m₃ _ h₂ hskip
    obtain ⟨⟨id, m₄⟩, hconnected, hskip⟩ := exists_of_bind_eq_ok hskip
    cases hskip
    exact hout (hconnect h₂ hconnected)
  dsimp only at hok
  split at hok
  · exact hconnect h₁ hok
  · obtain ⟨m₂, hskip, hok⟩ := exists_of_bind_eq_ok hok
    obtain ⟨⟨id, m₃⟩, hconnected, hskip⟩ := exists_of_bind_eq_ok hskip
    cases hskip
    exact hconnect (hout (hconnect h₁ hconnected)) hok

/-- What there is more are loop-backs, put behind the other transitions that leave their sources,
and those that are loose. -/
structure LoopsBack (t : Tree) (f : Fixed) (loose : List Nat) (m m' : Assembly o) : Prop where
  tabled : Tabled m'
  keys : ∀ {j}, m'.key? j = m.key? j
  isFinal : ∀ {j}, m'.isFinal j = m.isFinal j
  grows : Grows m m'
  edges : ∀ j, ∃ back, m'.edges j = m.edges j ++ back ∧
    ∀ tr ∈ back, tr.source = j ∧ LoopBack t f.unanchored.states f.advanced tr
  wired : ∀ {l}, (∀ i ∈ l, i < m.transitions.size) → Wired l m → Wired (loose ++ l) m'

theorem LoopsBack.refl (h : Tabled m) : LoopsBack t f [] m m :=
  ⟨h, rfl, rfl, .refl m, fun _ ↦ ⟨[], (List.append_nil _).symm, List.forall_mem_nil _⟩,
    fun _ hwired ↦ hwired⟩

theorem LoopsBack.trans (h : LoopsBack t f [] m m') (h' : LoopsBack t f loose m' m'') :
    LoopsBack t f loose m m'' where
  tabled := h'.tabled
  keys := h'.keys.trans h.keys
  isFinal := h'.isFinal.trans h.isFinal
  grows := h.grows.trans h'.grows
  edges j := by
    obtain ⟨back, hedges, hback⟩ := h.edges j
    obtain ⟨back', hedges', hback'⟩ := h'.edges j
    exact ⟨back ++ back', by rw [hedges', hedges, List.append_assoc],
      List.forall_mem_append.2 ⟨hback, hback'⟩⟩
  wired hl hwired := h'.wired
    (fun i hi ↦ Nat.lt_of_lt_of_le (hl i hi) h.grows.size_transitions_le) (h.wired hl hwired)

theorem LoopsBack.skip (h : Tabled m) {source target : Nat} (hsource : source < m.states.size)
    (hloop : LoopBack t f.unanchored.states f.advanced
      { source, target, on := t.encoding.fullSet })
    (hok : m.connectFreely t source target = .ok (i, m')) :
    LoopsBack t f [] m (m'.addOut source i) := by
  obtain ⟨htabled, hc⟩ := h.connect_addOut hsource hok
  refine ⟨htabled, hc.keys, hc.isFinal, hc.grows, fun j ↦ ⟨_, hc.appends j, ?_⟩,
    fun hl ↦ hc.wired rfl _ fun hmem ↦ Nat.lt_irrefl _ (hl _ hmem)⟩
  intro tr htr
  split at htr
  · next hj =>
    rw [List.mem_singleton.1 htr]
    exact ⟨hj.symm, hloop⟩
  · cases htr

theorem LoopsBack.connectFreely (h : Tabled m) {source target : Nat}
    (hok : m.connectFreely t source target = .ok (i, m')) : LoopsBack t f [i] m m' := by
  obtain ⟨htabled, hgrows, hstates, hedges, hwired⟩ := h.connect hok
  have hkeys : ∀ {j}, m'.key? j = m.key? j := fun {j} ↦ by rw [key?, hstates, key?]
  have hfinal : ∀ {j}, m'.isFinal j = m.isFinal j := fun {j} ↦ by
    rw [Assembly.isFinal, hstates, Assembly.isFinal]
  exact ⟨htabled, hkeys, hfinal, hgrows,
    fun j ↦ ⟨[], hedges.trans (List.append_nil _).symm, List.forall_mem_nil _⟩, fun _ ↦ hwired _⟩

theorem Fixed.Stands.mem_unanchored (h : f.Stands t o m) {lead : Nat}
    (hlead : lead ≤ t.leadLength) :
    f.unanchored.states.getD lead 0 ∈ f.unanchored.states := by
  have hsize := congrArg List.length h.unanchored.states
  rw [List.length_map, List.length_map, List.length_range, Array.length_toList] at hsize
  rw [Array.getD_eq_getD_getElem?, Array.getElem?_eq_getElem (by omega), Option.getD_some]
  exact Array.getElem_mem _

/-- **Adding the loop-backs.** -/
theorem Fixed.Stands.addLoopBacks (hf : f.Stands t o m) (h : Tabled m) {loopBack : Nat}
    (hok : m.addLoopBacks t f = .ok (loopBack, m')) : LoopsBack t f [loopBack] m m' := by
  have hlead : ∀ {m₁ : Assembly o}, LoopsBack t f [] m m₁ → ∀ {lead}, lead ≤ t.leadLength →
      f.unanchored.states.getD lead 0 < m₁.states.size := fun hloops _ hlead ↦
    lt_of_key (hloops.grows.keys (hf.unanchored.key_getD (Nat.lt_succ_of_le hlead)))
  unfold Assembly.addLoopBacks at hok
  obtain ⟨m₁, hrest, hok⟩ := exists_of_bind_eq_ok hok
  have hloops : LoopsBack t f [] m m₁ := by
    refine of_foldlM_range_eq_ok (fun _ m₁ ↦ LoopsBack t f [] m m₁) (.refl h) ?_ hrest
    intro lead m₂ m₃ hlt hloops hskip
    obtain ⟨⟨id, m₄⟩, hconnect, hskip⟩ := exists_of_bind_eq_ok hskip
    cases hskip
    exact hloops.trans (.skip hloops.tabled (hlead hloops (Nat.succ_le_of_lt hlt)) (.shorten hlt)
      hconnect)
  dsimp only at hok
  split at hok
  · exact hloops.trans (.connectFreely hloops.tabled hok)
  · next advanced hadvanced =>
    obtain ⟨m₂, hskip, hok⟩ := exists_of_bind_eq_ok hok
    obtain ⟨⟨id, m₃⟩, hconnect, hskip⟩ := exists_of_bind_eq_ok hskip
    cases hskip
    have hskip := LoopsBack.skip hloops.tabled (hlead hloops (Nat.zero_le _)) (.advance hadvanced)
      hconnect
    exact (hloops.trans hskip).trans (.connectFreely hskip.tabled hok)

/-! ## Predecessors -/

/-- What does not differ when states are told by which transitions they are entered. -/
structure Same (m m' : Assembly o) : Prop where
  keys : ∀ {j}, m'.key? j = m.key? j
  out : ∀ {j}, m'.out j = m.out j
  isFinal : ∀ {j}, m'.isFinal j = m.isFinal j
  transitions : m'.transitions = m.transitions

theorem Same.refl (m : Assembly o) : Same m m := ⟨rfl, rfl, rfl, rfl⟩

theorem Same.trans (h : Same m m') (h' : Same m' m'') : Same m m'' :=
  ⟨h'.keys.trans h.keys, h'.out.trans h.out, h'.isFinal.trans h.isFinal,
    h'.transitions.trans h.transitions⟩

theorem Same.modifyState {g : State → State} (hkey : ∀ s, (g s).key = s.key)
    (hout : ∀ s, (g s).out = s.out) (hfinal : ∀ s, (g s).isFinal = s.isFinal) :
    Same m (m.modifyState id g) :=
  ⟨key_modifyState hkey, out_modifyState hout, isFinal_modifyState hfinal, rfl⟩

theorem Same.foldl {α : Type} {g : Assembly o → α → Assembly o} (hg : ∀ m x, Same m (g m x))
    (l : List α) : Same m (l.foldl g m) := by
  induction l generalizing m with
  | nil => exact .refl m
  | cons x l ih => exact (hg m x).trans ih

theorem same_linkFrom {dummy : Nat} (s : Array Nat × Assembly o) :
    Same s.2 (linkFrom t fl dummy s id).2 := by
  obtain ⟨hardPrefixStates, m⟩ := s
  unfold linkFrom
  dsimp only
  split
  · exact .refl m
  · split
    · rw [← Array.foldl_toList]
      refine Same.foldl (fun m' transition ↦ ?_) _
      exact .modifyState (fun _ ↦ rfl) (fun _ ↦ rfl) fun _ ↦ rfl
    · exact .modifyState (fun _ ↦ rfl) (fun _ ↦ rfl) fun _ ↦ rfl

theorem same_linkAll {dummy : Nat} : Same m (m.linkAll t fl dummy).2 := by
  have hfold : ∀ (l : List Nat) (s : Array Nat × Assembly o),
      Same s.2 (l.foldl (linkFrom t fl dummy) s).2 := by
    intro l
    induction l with
    | nil => exact fun s ↦ .refl s.2
    | cons id l ih => exact fun s ↦ (same_linkFrom s).trans (ih _)
  exact hfold _ (#[], m)

/-! ## The finished automaton -/

/-- The stages of an automaton that has been finished: when expansion was over, and when the
loop-backs had been added. -/
structure Finishes (t : Tree) (o : Options) (f : Fixed) (queue : Array Nat) (m m' : Assembly o)
    (a : Automaton) : Prop where
  underway : Underway t o f.dummy queue m
  stands : f.Stands t o m
  complete : Complete t f.dummy queue m
  addLoopBacks : m.addLoopBacks t f = .ok (a.loopBack, m')
  loopsBack : LoopsBack t f [a.loopBack] m m'
  keys : ∀ j, (a.states[j]?).map State.key = m'.key? j
  out : ∀ j, (a.state j).out = m'.out j
  isFinal : ∀ j, (a.state j).isFinal = m'.isFinal j
  transitions : a.transitions = m'.transitions
  dummy : a.dummy = f.dummy
  anchoredFinal : a.anchoredFinal = f.anchoredFinal
  anchoredReverseEntry : a.anchoredReverseEntry = 0
  unanchoredReverseEntry : a.unanchoredReverseEntry = 1
  unanchored : a.unanchored = f.unanchored
  ownAnchored : a.ownAnchored = f.ownAnchored
  advanced : a.advanced = f.advanced

/-- How an automaton has come about. -/
structure Stages (t : Tree) (o : Options) (fl : Flags) (f : Fixed) (m₀ m m' : Assembly o)
    (a : Automaton) : Prop where
  start : Assembly.start t o = .ok (f, m₀)
  expandAll : Assembly.expandAll t (o.maxState + 1) 0 f.queue m₀ = .ok m
  addLoopBacks : m.addLoopBacks t f = .ok (a.loopBack, m')
  states : a.states = (m'.linkAll t fl f.dummy).2.states
  hardPrefixStates : a.hardPrefixStates = (m'.linkAll t fl f.dummy).1

theorem exists_stages {a : Automaton} (h : t.Regular t.encoding.Fits)
    (hok : Automaton.ofTree t o fl = .ok a) :
    ∃ f queue m₀ m m', Stages t o fl f m₀ m m' a ∧ Finishes t o f queue m m' a := by
  obtain ⟨⟨f, m₁⟩, hstart, hok⟩ := exists_of_bind_eq_ok hok
  obtain ⟨m₂, hexpand, hok⟩ := exists_of_bind_eq_ok hok
  obtain ⟨⟨loopBack, m₃⟩, hloops, hok⟩ := exists_of_bind_eq_ok hok
  cases hok
  obtain ⟨hunder, hstands, hreaches, hanchored, hunanchored⟩ := start_spec h hstart
  obtain ⟨queue, hunder₂, hgrows, hcomplete⟩ :=
    hunder.expandAll h.discerns (Nat.le_of_eq (Nat.zero_add _).symm) hreaches hexpand
  have hstands₂ := hstands.grows hgrows
  have hsame : Same m₃ (m₃.linkAll t fl f.dummy).2 := same_linkAll
  exact ⟨f, queue, m₁, m₂, m₃, ⟨hstart, hexpand, hloops, rfl, rfl⟩, hunder₂, hstands₂, hcomplete,
    hloops, hstands₂.addLoopBacks hunder₂.tabled hloops, fun _ ↦ hsame.keys, fun _ ↦ hsame.out,
    fun _ ↦ hsame.isFinal, hsame.transitions, rfl, rfl, hanchored, hunanchored, rfl, rfl, rfl⟩

theorem exists_of_ofTree {a : Automaton} (h : t.Regular t.encoding.Fits)
    (hok : Automaton.ofTree t o fl = .ok a) : ∃ f queue m m', Finishes t o f queue m m' a := by
  obtain ⟨f, queue, -, m, m', -, hfin⟩ := exists_stages h hok
  exact ⟨f, queue, m, m', hfin⟩

section Finishes

variable {a : Automaton} {queue : Array Nat} (h : Finishes t o f queue m m' a)
include h

theorem Finishes.key_eq (j : Nat) : (a.states[j]?).map State.key = m.key? j :=
  (h.keys j).trans h.loopsBack.keys

theorem Finishes.isFinal_eq (j : Nat) : (a.state j).isFinal = m.isFinal j :=
  (h.isFinal j).trans h.loopsBack.isFinal

theorem Finishes.map_out (j : Nat) : (a.state j).out.toList.map a.transition = m'.edges j := by
  rw [h.out, edges, ← h.transitions]
  rfl

/-- The transitions that leave a state, save for loop-backs, are those of its branches. -/
theorem Finishes.forall₂_renders (hq : q ≠ a.dummy) (hk : m.key? q = some k)
    (hinside : ¬t.Ends k.1) : List.Forall₂ (Renders t m q k) (t.branches k) (m.edges q) := by
  rw [h.dummy] at hq
  rcases h.underway.queued hk with hends | hdum | hmem
  · exact absurd hends hinside
  · exact absurd hdum hq
  · exact h.complete.done hmem hq hk

theorem Finishes.leaves_iff {j : Nat} {tr : Transition} :
    (∃ i ∈ (a.state j).out, a.transition i = tr) ↔ tr ∈ m'.edges j := by
  rw [← h.map_out, List.mem_map]
  simp only [Array.mem_toList_iff]

theorem Finishes.edges_eq_nil (hq : q ≠ a.dummy) (hk : m.key? q = some k) (hends : t.Ends k.1) :
    m.edges q = [] := by
  rw [h.dummy] at hq
  refine h.complete.blank hq fun hmem ↦ ?_
  obtain ⟨k', hk', hinside⟩ := h.underway.known hmem
  obtain rfl := Option.some.inj (hk.symm.trans hk')
  exact hinside hends

end Finishes

end Assembly

/-! ## Realization -/

theorem exists_of_forall₂ {α β : Type} {R : α → β → Prop} {l : List α} {l' : List β} {b : β}
    (h : List.Forall₂ R l l') (hb : b ∈ l') : ∃ a ∈ l, R a b := by
  induction h with
  | nil => cases hb
  | cons hr _ ih =>
    rcases List.mem_cons.1 hb with rfl | hb
    · exact ⟨_, List.mem_cons_self, hr⟩
    · obtain ⟨a, ha, hr⟩ := ih hb
      exact ⟨a, List.mem_cons_of_mem _ ha, hr⟩

namespace Automaton

open Assembly

variable {t : Tree} {o : Options} {fl : Flags} {a : Automaton}

theorem not_loopBack_of_renders {f : Fixed} {m : Assembly o} {q : Nat} {k : MarkerSet × Bool}
    {b : Branch} {tr : Transition} (h : t.Regular t.encoding.Fits) (hf : f.Stands t o m)
    (hb : b ∈ t.branches k) (hrenders : Assembly.Renders t m q k b tr) :
    tr.target ∉ f.unanchored.states ∧ f.advanced ≠ some tr.target := by
  have hstart : ∀ lead ≤ t.leadLength, t.targetOf k b ≠ t.markers [t.start false lead] := by
    intro lead hlead heq
    cases hfinal : b.isFinal with
    | true => exact h.not_ends_start hlead (heq ▸ h.ends_of_isFinal hb hfinal)
    | false =>
      obtain ⟨x, hx, set, hkind⟩ := h.exists_chars_of_branch hb hfinal
      rw [heq, Tree.mem_markers, List.mem_singleton] at hx
      rw [hx, h.start_kind hlead] at hkind
      cases hkind
  constructor
  · intro hmem
    obtain ⟨lead, hlead, hid⟩ := hf.unanchored.exists_lead hmem
    exact hstart lead (Nat.le_of_lt_succ hlead)
      (congrArg Prod.fst (Option.some.inj (hrenders.target.symm.trans hid)))
  · intro hmem
    exact hstart 0 (Nat.zero_le _) (congrArg Prod.fst (Option.some.inj
      (hrenders.target.symm.trans (hf.advanced _ hmem).2)))

theorem restarts_of_loopBack {f : Fixed} {m : Assembly o} {tr : Transition} (hf : f.Stands t o m)
    (hloop : LoopBack t f.unanchored.states f.advanced tr) :
    tr.target ∈ f.unanchored.states ∨ f.advanced = some tr.target := by
  cases hloop with
  | shorten hlead => exact .inl (hf.mem_unanchored (Nat.le_of_lt hlead))
  | advance hadvanced => exact .inr hadvanced

section Finishes

variable {f : Fixed} {queue : Array Nat} {m m' : Assembly o} {q : Nat} {k : MarkerSet × Bool}
  {b : Branch} {tr : Transition} (hfin : Finishes t o f queue m m' a)
include hfin

theorem Stands.key_eq_some (hq : a.Stands t q k) : m.key? q = some k :=
  (hfin.key_eq q).symm.trans hq.key

theorem Stands.exists_branch (hq : a.Stands t q k) (htr : tr ∈ m.edges q) :
    ∃ b ∈ t.branches k, Assembly.Renders t m q k b tr :=
  exists_of_forall₂ (hfin.forall₂_renders hq.ne_dummy (hq.key_eq_some hfin) hq.inside) htr

theorem Stands.exists_edge (hq : a.Stands t q k) (hb : b ∈ t.branches k) :
    ∃ tr ∈ m.edges q, Assembly.Renders t m q k b tr :=
  exists_of_forall₂ (hfin.forall₂_renders hq.ne_dummy (hq.key_eq_some hfin) hq.inside).flip hb

theorem target_ne_dummy (h : t.Regular t.encoding.Fits) (hb : b ∈ t.branches k)
    (hbfinal : b.isFinal = false) (hrenders : Assembly.Renders t m q k b tr) :
    tr.target ≠ a.dummy := by
  intro htarget
  rw [hfin.dummy] at htarget
  obtain ⟨x, hx, set, hkind⟩ := h.exists_chars_of_branch hb hbfinal
  have heq := congrArg Prod.fst
    (Option.some.inj (hrenders.target.symm.trans (htarget ▸ hfin.stands.dummy)))
  dsimp only at heq
  obtain ⟨g, hgroup⟩ := NodeKind.isGroup_iff.1 h.wrappedRoot_group
  rw [heq, Tree.mem_markers, List.mem_singleton] at hx
  rw [hx, hgroup] at hkind
  cases hkind

theorem renders_of_renders (h : t.Regular t.encoding.Fits) (hb : b ∈ t.branches k)
    (hrenders : Assembly.Renders t m q k b tr) : a.Renders t k b tr := by
  have hends := h.discerns.ends hb
  refine ⟨hrenders.on, ?_, fun hbfinal ↦ ⟨(hfin.key_eq _).trans hrenders.target,
    target_ne_dummy hfin h hb hbfinal hrenders, ?_⟩⟩
  · rw [hfin.isFinal_eq, Bool.eq_iff_iff, hfin.underway.labelled hrenders.target, hends]
  · rw [← hends, hbfinal]
    exact Bool.false_ne_true

/-- The transitions that leave a state, save for loop-backs, are those of branches. -/
theorem Stands.expands_iff (h : t.Regular t.encoding.Fits) (hq : a.Stands t q k) :
    a.Expands q tr ↔ tr ∈ m.edges q := by
  have hf := hfin.stands
  obtain ⟨back, hedges, hback⟩ := hfin.loopsBack.edges q
  rw [Expands, hfin.leaves_iff, hedges, List.mem_append, hfin.unanchored, hfin.advanced]
  constructor
  · rintro ⟨hmem | hmem, htarget, hne⟩
    · exact hmem
    · exact ((restarts_of_loopBack hf (hback tr hmem).2).elim htarget hne).elim
  · intro hmem
    obtain ⟨b, hb, hrenders⟩ := hq.exists_branch hfin hmem
    exact ⟨.inl hmem, not_loopBack_of_renders h hf hb hrenders⟩

theorem stands_of_enters (h : t.Regular t.encoding.Fits) {entries : Entries} {anchored : Bool}
    {lead : Nat} (hlead : lead ≤ t.leadLength)
    (henters : Enters t o anchored (t.leadLength + 1) m entries) :
    a.Stands t (entries.states.getD lead 0) (t.startKey o anchored lead) := by
  have hid := henters.key_getD (Nat.lt_succ_of_le hlead)
  refine ⟨(hfin.key_eq _).trans hid, fun hdum ↦ ?_, h.not_ends_start hlead⟩
  rw [hdum, hfin.dummy, hfin.stands.dummy] at hid
  obtain ⟨g, hgroup⟩ := NodeKind.isGroup_iff.1 h.wrappedRoot_group
  have heq := Tree.eq_of_markers_eq (congrArg Prod.fst (Option.some.inj hid))
  rw [heq, h.start_kind hlead] at hgroup
  cases hgroup

theorem stands_initial (h : t.Regular t.encoding.Fits) {anchored : Bool} {lead : Nat}
    (hlead : lead ≤ t.leadLength) :
    a.Stands t (a.initial anchored lead) (t.startKey o (anchored && !t.carets.isEmpty) lead) := by
  have hf := hfin.stands
  have howned := hf.own
  unfold Automaton.initial
  cases anchored with
  | false =>
    rw [if_neg Bool.false_ne_true, hfin.unanchored, Bool.false_and]
    exact stands_of_enters hfin h hlead hf.unanchored
  | true =>
    rw [if_pos rfl, Automaton.anchored, hfin.ownAnchored, hfin.unanchored, Bool.true_and]
    cases heq : f.ownAnchored with
    | none =>
      rw [heq] at howned
      rw [Option.getD_none, show t.carets.isEmpty = true from howned]
      exact stands_of_enters hfin h hlead hf.unanchored
    | some own =>
      rw [heq] at howned
      rw [Option.getD_some, howned.1]
      exact stands_of_enters hfin h hlead howned.2

end Finishes

/-- **Finished automata realize the steps of their trees.** -/
theorem realizes_ofTree (h : t.Regular t.encoding.Fits) (hok : ofTree t o fl = .ok a) :
    a.Realizes t o := by
  obtain ⟨f, queue, m, m', hfin⟩ := exists_of_ofTree h hok
  refine ⟨fun hlead ↦ stands_initial hfin h hlead, fun hq hq' ↦ ?_, fun hq htr ↦ ?_,
    fun hq hb ↦ ?_⟩
  · exact hfin.underway.tabled.key_inj (hq.key_eq_some hfin) (hq'.key_eq_some hfin)
  · obtain ⟨b, hb, hbtr⟩ := hq.exists_branch hfin ((hq.expands_iff hfin h).1 htr)
    exact ⟨b, hb, renders_of_renders hfin h hb hbtr⟩
  · obtain ⟨tr, htr, hbtr⟩ := hq.exists_edge hfin hb
    exact ⟨tr, (hq.expands_iff hfin h).2 htr, renders_of_renders hfin h hb hbtr⟩

end Automaton

end PatternAutomata
