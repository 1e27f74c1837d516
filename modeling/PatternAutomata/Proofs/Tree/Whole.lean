import PatternAutomata.Proofs.Tree.Filling
import PatternAutomata.Proofs.Tree.Finish

/-!
# Loops and captures of patterns

While a pattern is read, all loops are complete, as the groups that are open are no loops and stand
in none. The numbers of the captures that have been opened so far are below the next one. Neither is
lost when the tree is finished.
-/

namespace PatternAutomata

namespace Arena

variable {ok : CodePointSet → Prop} {a b : Arena} {atom p n m : Nat} {new : List Nat}

/-! ## Captures -/

/-- The captures of all groups, and those below all loops, are below a number. -/
def CapturesBelow (a : Arena) (n : Nat) : Prop :=
  ∀ ⦃id : Nat⦄ ⦃g : Group⦄, (a.node id).kind = .group g →
    (∀ c, g.capture = some c → c < n) ∧ ∀ c ∈ g.nested, c < n

theorem CapturesBelow.mono (h : a.CapturesBelow n) (hle : n ≤ m) : a.CapturesBelow m :=
  fun _ _ hkind ↦ ⟨fun c hc ↦ Nat.lt_of_lt_of_le ((h hkind).1 c hc) hle,
    fun c hc ↦ Nat.lt_of_lt_of_le ((h hkind).2 c hc) hle⟩

theorem CapturesBelow.add {k : NodeKind} (h : a.CapturesBelow n)
    (hk : ∀ g, k = .group g → (∀ c, g.capture = some c → c < n) ∧ g.nested = ∅) :
    (a.add k).CapturesBelow n := by
  intro id g hkind
  rw [node_add] at hkind
  split at hkind
  · obtain ⟨hcapture, hnested⟩ := hk g hkind
    exact ⟨hcapture, fun c hc ↦ by rw [hnested] at hc; exact absurd hc (IndexSet.not_mem_empty c)⟩
  · exact h hkind

theorem Filling.capturesBelow (hf : Filling ok atom p new a b) (h : a.CapturesBelow n) :
    b.CapturesBelow n := by
  intro id g hkind
  rcases hf.kinds hkind with ⟨loop, rfl⟩ | ⟨z, hz⟩
  · exact ⟨nofun, fun c hc ↦ absurd hc (IndexSet.not_mem_empty c)⟩
  · exact h hz

end Arena

/-! ## Patterns under construction -/

namespace TreeBuilder

variable {ok : CodePointSet → Prop} {b b' : TreeBuilder} {o : Options} {arena : Arena}
  {atom p : Nat} {new : List Nat}

theorem children_openAlternative {a : Arena} {group y : Nat} (hlt : group < a.size) :
    ((openAlternative a group).node y).children.toList =
      (a.node y).children.toList ++ if y = group then [a.size] else [] := by
  have hsize : (a.add .sequence).size = a.size + 1 := Arena.size_add _
  rw [openAlternative_eq, Arena.children_link (by omega) (by omega), Arena.children_add]

theorem filling_openAlternative {a : Arena} (h : a.Shaped ok) {group : Nat}
    (hgroup : a.Open group group) (hkind : (a.node group).kind.isGroup = true) :
    Arena.Filling ok a.size group [a.size] a (openAlternative a group) := by
  obtain ⟨hshaped, hgrows, -⟩ := openAlternative_spec h hgroup hkind
  have hsize : (a.add .sequence).size = a.size + 1 := Arena.size_add _
  have hlt : group < (a.add .sequence).size := hsize ▸ Nat.lt_succ_of_lt hgroup.lt
  have hnew : a.size < (a.add .sequence).size := hsize ▸ Nat.lt_succ_self _
  refine ⟨⟨hshaped, hgrows⟩, fun y _ ↦ children_openAlternative hgroup.lt,
    fun {y g} hy ↦ .inr ⟨y, ?_⟩, fun hl hfree ↦ ?_⟩
  · rw [openAlternative_eq, Arena.kind_link hlt hnew, Arena.node_add] at hy
    split at hy
    · cases hy
    · exact hy
  · have hadd : (a.add .sequence).Shaped ok := h.add trivial
    exact (hl.add fun _ heq ↦ by cases heq).link hadd.forest
      (hfree.grows h.forest hgroup.lt (Nat.ne_of_lt hgroup.lt) (.add _)) hlt hnew

theorem filling_endGroup (h : b.Sound ok) (hfault : b.fault? = none) :
    Arena.Filling ok b.current.group p [] b.arena (endGroup b.arena b.current).2 := by
  obtain ⟨hshaped, hgrows, -⟩ := endGroup_spec h hfault
  have hlt := group_lt h (List.mem_cons_self : b.current ∈ b.groups)
  rw [endGroup_eq] at hshaped hgrows ⊢
  split at hgrows
  · next hkind =>
    rw [if_pos hkind] at hshaped ⊢
    have hkinds : ∀ y g, ((b.arena.addLookBehind b.current.group).node y).kind = .group g →
        (b.arena.node y).kind = .group g := by
      intro y g hy
      rw [Arena.kind_addLookBehind] at hy
      split at hy
      · cases hy
      · exact hy
    have hchildren : ∀ y < b.arena.size,
        ((b.arena.addLookBehind b.current.group).node y).children.toList =
          (b.arena.node y).children.toList := by
      intro y hy
      rw [Arena.children_addLookBehind hlt, if_neg (Nat.ne_of_lt hy)]
    exact ⟨⟨hshaped, hgrows⟩, fun y hy ↦ by rw [hchildren y hy, ite_self, List.append_nil],
      fun {y g} hy ↦ .inr ⟨y, hkinds y g hy⟩,
      fun hl _ ↦ hl.of_old h.shaped.forest
        (fun {id g} hid hloop ↦ .inl ⟨g, hkinds id g hid, hloop⟩) hchildren⟩
  · next hkind =>
    rw [if_neg hkind]
    exact .refl h.shaped

/-- What is open is part of no loop, and the captures so far have the numbers below the next. -/
structure Whole (b : TreeBuilder) : Prop where
  looped : b.arena.Looped
  group : ∀ g ∈ b.groups, b.arena.Free g.group
  sequence : ∀ g ∈ b.groups, b.arena.Free g.sequence
  captures : b.arena.CapturesBelow b.captures
  pos : 0 < b.captures

theorem Sound.ne_of_mem (h : b.Sound ok) (hloose : (b.arena.node atom).parent = none)
    (hne : ∀ g ∈ b.groups, g.group ≠ atom) :
    ∀ g ∈ b.groups, g.group < b.arena.size ∧ g.group ≠ atom ∧
      g.sequence < b.arena.size ∧ g.sequence ≠ atom := by
  intro g hg
  have hopen := (h.fillable g hg).isOpen
  refine ⟨group_lt h hg, hne g hg, hopen.lt, ?_⟩
  rintro rfl
  exact hne g hg (hopen.below.eq_of_loose hloose)

theorem Whole.of_filling (h : b.Whole) (hb : b.Sound ok)
    (hf : Arena.Filling ok atom p new b.arena arena) (hp : b.arena.Free p)
    (hloose : (b.arena.node atom).parent = none) (hne : ∀ g ∈ b.groups, g.group ≠ atom) :
    ({ b with arena } : TreeBuilder).Whole where
  looped := hf.looped h.looped hp
  group g hg := by
    obtain ⟨hlt, hne, -⟩ := hb.ne_of_mem hloose hne g hg
    exact (h.group g hg).grows hb.shaped.forest hlt hne hf.placing.grows
  sequence g hg := by
    obtain ⟨-, -, hlt, hne⟩ := hb.ne_of_mem hloose hne g hg
    exact (h.sequence g hg).grows hb.shaped.forest hlt hne hf.placing.grows
  captures := hf.capturesBelow h.captures
  pos := h.pos

/-- An alternative of a group that is no loop is no alternative of a loop. -/
theorem free_openAlternative {a : Arena} (h : a.Shaped ok) {group : Nat}
    (hgroup : a.Open group group) (hkind : (a.node group).kind.isGroup = true)
    (hfree : a.Free group) :
    (openAlternative a group).Free group ∧ (openAlternative a group).Free a.size := by
  obtain ⟨hshaped, hgrows, hfillable, -⟩ := openAlternative_spec h hgroup hkind
  have hlt := hgroup.lt
  refine ⟨hfree.grows h.forest hlt (Nat.ne_of_lt hlt) hgrows, fun hg ↦ ?_, fun {q g} hq hg ↦ ?_⟩
  · rw [hfillable.kind] at hg
    cases hg
  · have hmem : a.size ∈ ((openAlternative a group).node group).children := by
      rw [← Array.mem_toList_iff, children_openAlternative hlt, if_pos rfl]
      simp
    obtain rfl : group = q := Option.some.inj ((hshaped.forest.up_of_mem hmem).symm.trans hq)
    rw [hgrows.kind _ hlt] at hg
    exact hfree.self hg

theorem whole_place (h : b.Whole) (hb : b.Sound ok) {limit : Nat} {q : Quantifier}
    (hlt : atom < b.arena.size) (hloose : (b.arena.node atom).parent = none)
    (hterm : (b.arena.node atom).kind.isTerm = true) (hne : ∀ g ∈ b.groups, g.group ≠ atom)
    (hb' : b.place limit atom q = .ok b') : b'.Whole := by
  obtain ⟨arena, harena, rfl⟩ := exists_of_place_eq_ok hb'
  obtain ⟨new, hf, -⟩ := Arena.Filling.place hb.shaped hlt hloose hterm
    (hb.fillable _ List.mem_cons_self) (hne _ List.mem_cons_self) harena
  exact h.of_filling hb hf (h.sequence _ List.mem_cons_self) hloose hne

theorem whole_openGroup (h : b.Whole) (hb : b.Sound ok) {kind : GroupKind}
    (hb' : b.take o (.openGroup kind) = .ok b') : b'.Whole := by
  rw [take_openGroup] at hb'
  cases hb'
  let k := groupNode b.captures kind
  let a := b.arena.add k
  have hnode : ∀ g, k = .group g → g.loop = none ∧ g.nested = ∅ ∧
      ∀ c, g.capture = some c → c < if kind = .capture then b.captures + 1 else b.captures := by
    intro g hg
    have hg : groupNode b.captures kind = .group g := hg
    cases kind <;> cases hg <;> refine ⟨rfl, rfl, fun c hc ↦ ?_⟩ <;> cases hc
    rw [if_pos rfl]
    exact Nat.lt_succ_self _
  have hle : b.captures ≤ if kind = .capture then b.captures + 1 else b.captures := by
    split <;> omega
  have hplain : k.Plain ok := by cases kind <;> trivial
  have hself : a.Open b.arena.size b.arena.size := .add_self (by cases kind <;> rfl)
  have hkind : (a.node b.arena.size).kind = k := by rw [Arena.node_add, if_pos rfl]
  have hgroup : (a.node b.arena.size).kind.isGroup = true := by
    rw [hkind]
    cases kind <;> rfl
  have hold := hb.ne_of_mem (Arena.parent_size _) fun g hg ↦ Nat.ne_of_lt (group_lt hb hg)
  have hfree : a.Free b.arena.size :=
    ⟨fun hg ↦ (hnode _ (hkind.symm.trans hg)).1, fun hup ↦ by
      rw [Arena.Up, hself.loose] at hup
      cases hup⟩
  have hadd := hb.shaped.add hplain
  have hf := filling_openAlternative hadd hself hgroup
  obtain ⟨hfreeGroup, hfreeSequence⟩ := free_openAlternative hadd hself hgroup hfree
  have hsize : a.size = b.arena.size + 1 := Arena.size_add _
  rw [hsize] at hfreeSequence
  -- what was open before is where it was
  have hgrows : Arena.Grows a.size b.arena (openAlternative a b.arena.size) :=
    (Arena.Grows.add k).trans hf.placing.grows
  refine ⟨hf.looped (h.looped.add fun g hg ↦ (hnode g hg).1) hfree, fun g hg ↦ ?_, fun g hg ↦ ?_,
    hf.capturesBelow ((h.captures.mono hle).add fun g hg ↦ ⟨(hnode g hg).2.2, (hnode g hg).2.1⟩),
    Nat.lt_of_lt_of_le h.pos hle⟩
  · rcases List.mem_cons.1 hg with rfl | hg
    · exact hfreeGroup
    · obtain ⟨hlt, -⟩ := hold g hg
      exact (h.group g hg).grows hb.shaped.forest hlt (by omega) hgrows
  · rcases List.mem_cons.1 hg with rfl | hg
    · exact hfreeSequence
    · obtain ⟨-, -, hlt, -⟩ := hold g hg
      exact (h.sequence g hg).grows hb.shaped.forest hlt (by omega) hgrows

theorem whole_bar (h : b.Whole) (hb : b.Sound ok) (hb' : b.take o .bar = .ok b') : b'.Whole := by
  rw [take_bar] at hb'
  cases hb'
  have hcurrent : b.current ∈ b.groups := List.mem_cons_self
  have hkind := hb.isGroup _ hcurrent
  have hopen := hb.open_group hcurrent
  have hfree := h.group _ hcurrent
  have hall := h.of_filling hb (filling_openAlternative hb.shaped hopen hkind) hfree
    (Arena.parent_size _) fun g hg ↦ Nat.ne_of_lt (group_lt hb hg)
  refine ⟨hall.looped, fun g hg ↦ ?_, fun g hg ↦ ?_, hall.captures, hall.pos⟩
  · rcases List.mem_cons.1 hg with rfl | hg
    · exact hall.group b.current hcurrent
    · exact hall.group g (List.mem_cons_of_mem _ hg)
  · rcases List.mem_cons.1 hg with rfl | hg
    · exact (free_openAlternative hb.shaped hopen hkind hfree).2
    · exact hall.sequence g (List.mem_cons_of_mem _ hg)

theorem whole_atom (h : b.Whole) (hb : b.Sound ok) {atom : Atom} {q : Quantifier}
    (hatom : (atom.kind o.encoding).Plain ok) (hb' : b.take o (.atom atom q) = .ok b') :
    b'.Whole := by
  have hgroup : ∀ g, atom.kind o.encoding ≠ .group g := by
    intro g hg
    cases atom <;> cases hg
  have hgrows : Arena.Grows b.arena.size b.arena (b.arena.add (atom.kind o.encoding)) := .add _
  obtain ⟨hadd, hne, hloose, hterm⟩ := hb.add hatom (by cases atom <;> rfl)
  have hold := hb.ne_of_mem (Arena.parent_size _) hne
  have hwhole : ({ b with arena := b.arena.add (atom.kind o.encoding) } : TreeBuilder).Whole := by
    refine ⟨h.looped.add fun g hg ↦ absurd hg (hgroup g), fun g hg ↦ ?_, fun g hg ↦ ?_,
      h.captures.add fun g hg ↦ absurd hg (hgroup g), h.pos⟩
    · obtain ⟨hlt, hne, -⟩ := hold g hg
      exact (h.group g hg).grows hb.shaped.forest hlt hne hgrows
    · obtain ⟨-, -, hlt, hne⟩ := hold g hg
      exact (h.sequence g hg).grows hb.shaped.forest hlt hne hgrows
  exact whole_place hwhole hadd (by simp) hloose hterm hne hb'

theorem whole_closeGroup (h : b.Whole) (hb : b.Sound ok) {left : Bytes} {q : Quantifier}
    (hb' : b.take o (.closeGroup left q) = .ok b') : b'.Whole := by
  obtain ⟨around, outer, houter, hfault, hplace⟩ := of_take_closeGroup hb'
  obtain ⟨-, -, hlt, hloose, hterm, -⟩ := endGroup_spec hb hfault
  obtain ⟨hended, hgroups, hne⟩ := hb.ended houter hfault
  have hf := filling_endGroup hb hfault (p := around.sequence)
  have hmem : ∀ g ∈ around :: outer, g ∈ b.groups := fun g hg ↦
    List.mem_cons_of_mem _ (houter ▸ hg)
  have hloose₀ := (hb.fillable _ List.mem_cons_self).isOpen.loose
  have hstay : ∀ p, p < b.arena.size → p ≠ b.current.group → b.arena.Free p →
      (b.ended around outer).arena.Free p :=
    fun p hlt hne hfree ↦ hfree.grows hb.shaped.forest hlt hne hf.placing.grows
  have hwhole : (b.ended around outer).Whole := by
    refine ⟨hf.looped h.looped (h.sequence _ (hmem _ List.mem_cons_self)), fun g hg ↦ ?_,
      fun g hg ↦ ?_, hf.capturesBelow h.captures, h.pos⟩
    · exact hstay _ (group_lt hb (hmem g hg)) (hgroups g hg) (h.group g (hmem g hg))
    · have hopen := (hb.fillable g (hmem g hg)).isOpen
      refine hstay _ hopen.lt (fun heq ↦ hgroups g hg ?_) (h.sequence g (hmem g hg))
      exact (heq ▸ hopen.below).eq_of_loose hloose₀
  exact whole_place hwhole hended hlt hloose hterm hne hplace

theorem whole_start : start.Whole := by
  let a := ({} : Arena).add (groupNode 0 .capture)
  have hadd : a.Shaped fun _ ↦ True := Arena.Shaped.empty.add trivial
  have hself : a.Open 0 0 := .add_self rfl
  have hfree : a.Free 0 := ⟨fun hg ↦ by cases hg; rfl, fun hup ↦ by cases hup⟩
  have hf := filling_openAlternative hadd hself rfl
  obtain ⟨hgroup, hsequence⟩ := free_openAlternative hadd hself rfl hfree
  have hempty : ({} : Arena).CapturesBelow 1 := fun id g hg ↦ by
    rw [Arena.node_of_size_le (Nat.zero_le _)] at hg
    cases hg
  refine ⟨hf.looped (Arena.Looped.empty.add fun g hg ↦ by cases hg; rfl) hfree, fun g hg ↦ ?_,
    fun g hg ↦ ?_, hf.capturesBelow (hempty.add fun g hg ↦ ?_), Nat.zero_lt_one⟩
  · rw [List.mem_singleton.1 hg]
    exact hgroup
  · rw [List.mem_singleton.1 hg]
    exact hsequence
  · cases hg
    exact ⟨fun c hc ↦ by cases hc; exact Nat.zero_lt_one, rfl⟩

/-- **The step lemma of reading a pattern**, for loops and captures. -/
theorem whole_take (h : b.Whole) (hb : b.Sound ok) {e : Event}
    (hgood : ∀ atom q, e = .atom atom q → (atom.kind o.encoding).Plain ok)
    (hb' : b.take o e = .ok b') : b'.Whole := by
  cases e with
  | atom atom q => exact whole_atom h hb (hgood atom q rfl) hb'
  | openGroup kind => exact whole_openGroup h hb hb'
  | bar => exact whole_bar h hb hb'
  | closeGroup left q => exact whole_closeGroup h hb hb'
  | failure e => cases hb'

end TreeBuilder

/-! ## Finished patterns -/

namespace Arena

variable {a b : Arena} {root n lead : Nat} {ok : CodePointSet → Prop} {full : CodePointSet}

theorem CapturesBelow.modify (h : a.CapturesBelow n) {id : Nat} {f : Node → Node}
    (hf : ∀ m g, (f m).kind = .group g → m.kind = .group g ∨
      (∀ c, g.capture = some c → c < n) ∧ ∀ c ∈ g.nested, c < n) :
    (a.modify id f).CapturesBelow n := by
  intro x g hkind
  rcases node_modify_or a id f x with heq | ⟨-, heq⟩
  · exact h (heq ▸ hkind)
  · rw [heq] at hkind
    rcases hf _ g hkind with hold | hnew
    · exact h hold
    · exact hnew

theorem CapturesBelow.setMinPaths (h : a.CapturesBelow n) (order : Array Nat) :
    (a.setMinPaths order).CapturesBelow n := fun x _ hkind ↦
  h ((kind_setMinPaths order x).symm.trans hkind)

/-- All entries of a table of captures are below a number. -/
def NotedBelow (below : Array IndexSet) (n : Nat) : Prop :=
  ∀ i, ∀ c ∈ below.getD i ∅, c < n

theorem NotedBelow.modify {below : Array IndexSet} (h : NotedBelow below n) {mine : IndexSet}
    (hmine : ∀ c ∈ mine, c < n) (id : Nat) : NotedBelow (below.modify id (· ∪ mine)) n := by
  intro i c hc
  rw [Array.getD_eq_getD_getElem?, Array.getElem?_modify] at hc
  have hold := h i
  rw [Array.getD_eq_getD_getElem?] at hold
  cases hi : below[i]? with
  | none =>
    rw [hi] at hc hold
    split at hc <;> exact hold c hc
  | some noted =>
    rw [hi] at hc hold
    split at hc
    · rcases IndexSet.mem_union.1 hc with hc | hc
      · exact hold c hc
      · exact hmine c hc
    · exact hold c hc

theorem NotedBelow.modify_if {below : Array IndexSet} (h : NotedBelow below n) {mine : IndexSet}
    (hmine : ∀ c ∈ mine, c < n) (id : Nat) {p : Prop} [Decidable p] :
    NotedBelow (if p then (a, below) else (a, below.modify id (· ∪ mine))).2 n := by
  split
  · exact h
  · exact h.modify hmine id

theorem CapturesBelow.passCaptures {s : Arena × Array IndexSet} (h : s.1.CapturesBelow n)
    (hs : NotedBelow s.2 n) (id : Nat) :
    (Arena.passCaptures root s id).1.CapturesBelow n ∧
      NotedBelow (Arena.passCaptures root s id).2 n := by
  constructor
  · rcases fst_passCaptures root s id with heq | ⟨g, hkind, heq⟩
    · rw [heq]
      exact h
    · rw [heq]
      refine h.modify fun m g' hg' ↦ .inr ?_
      cases hg'
      exact ⟨(h hkind).1, hs id⟩
  · obtain ⟨b, below⟩ := s
    unfold Arena.passCaptures
    cases hparent : (b.node id).parent with
    | none =>
      simp only [hparent]
      exact hs
    | some parent =>
      -- what a group passes on are the captures that it has noted and its own
      simp only [hparent]
      refine hs.modify_if (fun c hc ↦ ?_) parent
      split at hc
      · next g hkind =>
        dsimp only at hc
        split at hc
        · exact hs id c hc
        · next c' hcapture =>
          rcases IndexSet.mem_insert.1 hc with hc | rfl
          · exact hs id c hc
          · exact (h hkind).1 _ hcapture
      · exact hs id c hc

theorem CapturesBelow.setNested (h : a.CapturesBelow n) (root : Nat) (order : Array Nat) :
    (a.setNested root order).CapturesBelow n := by
  unfold Arena.setNested
  rw [← Array.foldr_toList]
  have hempty : NotedBelow (Array.replicate a.size ∅) n := by
    intro i c hc
    rw [Array.getD_eq_getD_getElem?, Array.getElem?_replicate] at hc
    split at hc <;> exact absurd hc (IndexSet.not_mem_empty c)
  exact (List.foldrRecOn
    (motive := fun s : Arena × Array IndexSet ↦ s.1.CapturesBelow n ∧ NotedBelow s.2 n) _ _
    ⟨h, hempty⟩ fun s hs id _ ↦ hs.1.passCaptures hs.2 id).1

theorem CapturesBelow.makeRoot (h : a.CapturesBelow n) (hpos : 0 < n) :
    (a.makeRoot root).CapturesBelow n := by
  intro x g hkind
  rw [Arena.makeRoot] at hkind
  rcases node_modify_or a root _ x with heq | ⟨-, heq⟩
  · exact h (heq ▸ hkind)
  · rw [heq] at hkind
    split at hkind
    · next g' hold =>
      cases hkind
      exact ⟨fun c hc ↦ by cases hc; exact hpos, (h hold).2⟩
    · exact h hkind

theorem CapturesBelow.measured (h : a.CapturesBelow n) (hpos : 0 < n) :
    (a.measured root).CapturesBelow n :=
  ((h.makeRoot hpos).setMinPaths _).setNested _ _

namespace Framed

variable {full : CodePointSet} {lead : Nat}

/-- Groups are the one at the top, which is plain, and old ones. -/
theorem kind_group (hf : Framed a full root lead b) (h : Ready ok a root) {x : Nat} {g : Group}
    (hkind : (b.node x).kind = .group g) :
    x = a.size + 1 ∧ g = {} ∨ x < a.size ∧ ((a.measured root).node x).kind = .group g := by
  rcases hf.kind_cases hkind nofun with hold | ⟨-, hk⟩ | ⟨rfl, hk⟩ | ⟨_, _, -, hk, -⟩ | hk
  · refine .inr ⟨hold, ?_⟩
    rw [hf.kind x hold] at hkind
    obtain ⟨-, -, hout, hin⟩ := h.complete_spec (x := x)
    by_cases hbody : ∃ id ∈ a.assertions root, x ∈ a.bodyOf id
    · obtain ⟨id, hid, hmem⟩ := hbody
      rw [hin id hid hmem, claimed] at hkind
      split at hkind
      · cases hkind
      · exact hkind
    · push Not at hbody
      rwa [hout hbody] at hkind
  · cases hk
  · cases hk
    exact .inl ⟨rfl, rfl⟩
  · cases hk
  · cases hk

theorem capturesBelow (hf : Framed a full root lead b) (h : Ready ok a root)
    (hcaptures : a.CapturesBelow n) (hpos : 0 < n) : b.CapturesBelow n := by
  intro x g hkind
  rcases hf.kind_group h hkind with ⟨-, rfl⟩ | ⟨-, hold⟩
  · exact ⟨nofun, fun c hc ↦ absurd hc (IndexSet.not_mem_empty c)⟩
  · exact hcaptures.measured hpos hold

theorem looped (hf : Framed a full root lead b) (h : Ready ok a root) (hlooped : a.Looped) :
    b.Looped := by
  refine hlooped.of_old h.shaped.forest (fun {x g} hkind hloop ↦ .inl ?_) fun y hy ↦ ?_
  · rcases hf.kind_group h hkind with ⟨-, rfl⟩ | ⟨-, hold⟩
    · cases hloop
    · have hcore := (alike_measured a root).core x
      rw [hold] at hcore
      obtain heq | ⟨g₁, g₂, hg₁, hg₂, hsame⟩ := NodeKind.eq_or_isGroup_of_core_eq hcore
      · exact ⟨g, heq.symm, hloop⟩
      · cases hg₁
        exact ⟨g₂, hg₂, hsame ▸ hloop⟩
  · rw [hf.children y hy]

end Framed

end Arena

/-- The tree of a pattern is finished from an arena whose loops are complete and whose captures have
been counted. -/
theorem Tree.exists_whole_of_ofPattern {o : Options} {pattern : Bytes} {t : Tree}
    (ht : Tree.ofPattern o pattern = .ok t) :
    ∃ a root captures, Arena.Ready o.encoding.Fits a root ∧ a.Looped ∧ a.CapturesBelow captures ∧
      0 < captures ∧ t = a.finish o.encoding root captures := by
  obtain ⟨b, hsound, hwhole, rfl⟩ :=
    exists_sound_of_ofPattern TreeBuilder.whole_start TreeBuilder.whole_take ht
  exact ⟨_, _, _, hsound.ready, hwhole.looped, hwhole.captures, hwhole.pos, rfl⟩

end PatternAutomata
