import PatternAutomata.Pattern.Parse
import PatternAutomata.Proofs.Tree.Placing
import PatternAutomata.Tree.Draft

/-!
# Where trees come from

Trees are made of patterns, or by hand. Both ways keep the shape of the arena: the reader of a
pattern because what it fills is always the innermost open group, and a draft because it refuses all
calls that would not. Either way a tree is finished at a group that has no place.
-/

namespace PatternAutomata

/-- The root of a tree to be finished: a group without a place in an arena of good shape. -/
structure Arena.Ready (ok : CodePointSet → Prop) (a : Arena) (root : Nat) : Prop where
  shaped : a.Shaped ok
  lt : root < a.size
  loose : (a.node root).parent = none
  isGroup : (a.node root).kind.isGroup = true

/-! ## Trees of patterns -/

namespace TreeBuilder

variable {ok : CodePointSet → Prop} {b b' : TreeBuilder} {o : Options}

def groups (b : TreeBuilder) : List OpenGroup := b.current :: b.outer

/-- Open groups have no place, and the sequences being filled stand below them. -/
structure Sound (ok : CodePointSet → Prop) (b : TreeBuilder) : Prop where
  shaped : b.arena.Shaped ok
  fillable : ∀ g ∈ b.groups, b.arena.Fillable g.group g.sequence
  isGroup : ∀ g ∈ b.groups, (b.arena.node g.group).kind.isGroup = true
  nodup : (b.groups.map (·.group)).Nodup

theorem Sound.of_grows (h : b.Sound ok) {arena : Arena} {atom : Nat} (hshaped : arena.Shaped ok)
    (hgrows : Arena.Grows atom b.arena arena) (hloose : (b.arena.node atom).parent = none)
    (hne : ∀ g ∈ b.groups, g.group ≠ atom) : ({ b with arena } : TreeBuilder).Sound ok where
  shaped := hshaped
  fillable g hg := by
    have hfillable := h.fillable g hg
    exact ⟨hfillable.isOpen.grows h.shaped.forest hloose (hne g hg) hgrows,
      by rw [hgrows.kind _ hfillable.isOpen.lt, hfillable.kind]⟩
  isGroup g hg := by
    have hlt := (h.fillable g hg).isOpen.top_lt h.shaped.forest
    rw [hgrows.kind _ hlt]
    exact h.isGroup g hg
  nodup := h.nodup

theorem group_lt (h : b.Sound ok) {g : OpenGroup} (hg : g ∈ b.groups) : g.group < b.arena.size :=
  (h.fillable g hg).isOpen.top_lt h.shaped.forest

theorem sound_place (h : b.Sound ok) {limit atom : Nat} {q : Quantifier}
    (hlt : atom < b.arena.size) (hloose : (b.arena.node atom).parent = none)
    (hterm : (b.arena.node atom).kind.isTerm = true) (hne : ∀ g ∈ b.groups, g.group ≠ atom)
    (hb' : b.place limit atom q = .ok b') : b'.Sound ok := by
  obtain ⟨arena, harena, rfl⟩ := exists_of_place_eq_ok hb'
  have hplacing := Arena.Placing.place h.shaped hlt hloose hterm
    (h.fillable _ List.mem_cons_self) (hne _ List.mem_cons_self) harena
  exact h.of_grows hplacing.shaped hplacing.grows hloose hne

theorem size_openAlternative (arena : Arena) (group : Nat) :
    (openAlternative arena group).size = arena.size + 1 := by
  rw [openAlternative_eq, Arena.size_link, Arena.size_add]

theorem grows_openAlternative {a : Arena} {group : Nat} (hlt : group < a.size) :
    Arena.Grows a.size a (openAlternative a group) := by
  have hsize : (a.add .sequence).size = a.size + 1 := Arena.size_add _
  exact (Arena.Grows.add .sequence).link (by omega) (by omega) (.inl rfl)

theorem Sound.open_group (h : b.Sound ok) {g : OpenGroup} (hg : g ∈ b.groups) :
    b.arena.Open g.group g.group := by
  refine .self (group_lt h hg) (h.fillable g hg).isOpen.loose ?_
  obtain ⟨g', hkind⟩ := NodeKind.isGroup_iff.1 (h.isGroup g hg)
  rw [hkind]
  rfl

theorem openAlternative_spec {a : Arena} (h : a.Shaped ok) {group : Nat}
    (hgroup : a.Open group group) (hkind : (a.node group).kind.isGroup = true) :
    (openAlternative a group).Shaped ok ∧ Arena.Grows a.size a (openAlternative a group) ∧
      (openAlternative a group).Fillable group a.size ∧
      ((openAlternative a group).node group).kind.isGroup = true := by
  obtain ⟨g, hg⟩ := NodeKind.isGroup_iff.1 hkind
  have hlt := hgroup.lt
  have hc : (a.add .sequence).Shaped ok := h.add trivial
  have hsize : (a.add .sequence).size = a.size + 1 := Arena.size_add _
  have hgroupc := hgroup.add h.forest .sequence
  have hself : (a.add .sequence).Open a.size a.size := .add_self rfl
  have hkindc : ((a.add .sequence).node group).kind = .group g := by
    rw [Arena.node_add, if_neg (Nat.ne_of_lt hlt), hg]
  have hkinds : ((a.add .sequence).node a.size).kind = .sequence := by
    rw [Arena.node_add, if_pos rfl]
  have hresult : openAlternative a group = (a.add .sequence).link group a.size := rfl
  rw [hresult]
  refine ⟨?_, grows_openAlternative hlt,
    ⟨hgroupc.link hself.lt hself (by omega), ?_⟩, ?_⟩
  · refine hc.link hgroupc hself.lt hself.loose (by omega) ?_
    rw [hkindc, hkinds]
    trivial
  · rw [Arena.kind_link hgroupc.lt hself.lt, hkinds]
  · rw [Arena.kind_link hgroupc.lt hself.lt, hkindc]
    rfl

theorem Sound.add (h : b.Sound ok) {kind : NodeKind} (hkind : kind.Plain ok)
    (hterm : kind.isTerm = true) : ({ b with arena := b.arena.add kind } : TreeBuilder).Sound ok ∧
      (∀ g ∈ b.groups, g.group ≠ b.arena.size) ∧
      ((b.arena.add kind).node b.arena.size).parent = none ∧
      ((b.arena.add kind).node b.arena.size).kind.isTerm = true := by
  have hnew := Arena.parent_size b.arena
  have hne : ∀ g ∈ b.groups, g.group ≠ b.arena.size := fun g hg ↦ Nat.ne_of_lt (group_lt h hg)
  refine ⟨h.of_grows (h.shaped.add hkind) (.add kind) hnew hne, hne, ?_, ?_⟩
  · rw [Arena.node_add, if_pos rfl]
  · rw [Arena.node_add, if_pos rfl]
    exact hterm

theorem sound_openGroup (h : b.Sound ok) {kind : GroupKind}
    (hb' : b.take o (.openGroup kind) = .ok b') : b'.Sound ok := by
  rw [take_openGroup] at hb'
  cases hb'
  have hplain : (groupNode b.captures kind).Plain ok := by cases kind <;> trivial
  have hnotLookBehind : (groupNode b.captures kind).isLookBehind = false := by cases kind <;> rfl
  obtain ⟨hold, hne, -, -⟩ := h.add hplain (by cases kind <;> rfl)
  have hadd := h.shaped.add hplain
  have hself : (b.arena.add (groupNode b.captures kind)).Open b.arena.size b.arena.size :=
    .add_self hnotLookBehind
  have hkind :
      ((b.arena.add (groupNode b.captures kind)).node b.arena.size).kind.isGroup = true := by
    rw [Arena.node_add, if_pos rfl]
    cases kind <;> rfl
  have hsize : (b.arena.add (groupNode b.captures kind)).size = b.arena.size + 1 :=
    Arena.size_add _
  obtain ⟨hshaped, hgrows, hfillable, hgroup⟩ := openAlternative_spec hadd hself hkind
  have hall := hold.of_grows hshaped hgrows (Arena.parent_size _) fun g hg ↦ by
    have := group_lt h hg
    omega
  rw [hsize] at hfillable
  refine ⟨hshaped, fun g hg ↦ ?_, fun g hg ↦ ?_, List.nodup_cons.2 ⟨fun hmem ↦ ?_, h.nodup⟩⟩
  · rcases List.mem_cons.1 hg with rfl | hg
    · exact hfillable
    · exact hall.fillable g hg
  · rcases List.mem_cons.1 hg with rfl | hg
    · exact hgroup
    · exact hall.isGroup g hg
  · obtain ⟨g, hg, heq⟩ := List.mem_map.1 hmem
    exact hne g hg heq

theorem sound_bar (h : b.Sound ok) (hb' : b.take o .bar = .ok b') : b'.Sound ok := by
  rw [take_bar] at hb'
  cases hb'
  have hcurrent : b.current ∈ b.groups := List.mem_cons_self
  obtain ⟨hshaped, hgrows, hfillable, hgroup⟩ :=
    openAlternative_spec h.shaped (h.open_group hcurrent) (h.isGroup _ hcurrent)
  have hall := h.of_grows hshaped hgrows (Arena.parent_size _) fun g hg ↦
    Nat.ne_of_lt (group_lt h hg)
  refine ⟨hshaped, fun g hg ↦ ?_, fun g hg ↦ ?_, h.nodup⟩
  · rcases List.mem_cons.1 hg with rfl | hg
    · exact hfillable
    · exact hall.fillable g (List.mem_cons_of_mem _ hg)
  · rcases List.mem_cons.1 hg with rfl | hg
    · exact hgroup
    · exact hall.isGroup g (List.mem_cons_of_mem _ hg)

theorem sound_atom (h : b.Sound ok) {atom : Atom} {q : Quantifier}
    (hatom : (atom.kind o.encoding).Plain ok) (hterm : (atom.kind o.encoding).isTerm = true)
    (hb' : b.take o (.atom atom q) = .ok b') : b'.Sound ok := by
  obtain ⟨hadd, hne, hloose, hterm⟩ := h.add hatom hterm
  exact sound_place hadd (by simp) hloose hterm hne hb'

/-- A group that can end is a term that can be placed, and so is the assertion above it. -/
theorem endGroup_spec (h : b.Sound ok) (hfault : b.fault? = none) :
    (endGroup b.arena b.current).2.Shaped ok ∧
      Arena.Grows b.current.group b.arena (endGroup b.arena b.current).2 ∧
      (endGroup b.arena b.current).1 < (endGroup b.arena b.current).2.size ∧
      ((endGroup b.arena b.current).2.node (endGroup b.arena b.current).1).parent = none ∧
      ((endGroup b.arena b.current).2.node (endGroup b.arena b.current).1).kind.isTerm = true ∧
      ((endGroup b.arena b.current).1 = b.current.group ∨
        b.arena.size ≤ (endGroup b.arena b.current).1) := by
  have hcurrent : b.current ∈ b.groups := List.mem_cons_self
  have hlt := group_lt h hcurrent
  have hloose := (h.fillable _ hcurrent).isOpen.loose
  have hgroup := h.isGroup _ hcurrent
  rw [endGroup_eq]
  by_cases hkind : b.current.kind = .lookBehind
  · rw [if_pos hkind]
    rw [fault?, if_pos hkind] at hfault
    split at hfault
    · cases hfault
    · next hone =>
      split at hfault
      · next hall =>
        have hone := not_not.1 hone
        have hchars : ∀ c ∈ b.arena.bodyTerms b.current.group,
            (b.arena.node c).kind.isChars = true := Array.all_eq_true_iff_forall_mem.1 hall
        refine ⟨h.shaped.addLookBehind hlt hloose hgroup hone hchars,
          (Arena.Grows.add _).link (by simp) (by simp; omega) (.inl rfl), ?_, ?_, ?_,
          .inr (Nat.le_refl _)⟩
        · simp
        · rw [Arena.node_addLookBehind hlt, if_pos rfl]
        · rw [Arena.kind_addLookBehind, if_pos rfl]
          rfl
      · cases hfault
  · rw [if_neg hkind]
    exact ⟨h.shaped, .refl _, hlt, hloose, NodeKind.isTerm_of_isGroup hgroup, .inl rfl⟩

/-- The state once a group has ended, when what stands for it has yet to be placed. -/
def ended (b : TreeBuilder) (around : OpenGroup) (outer : List OpenGroup) : TreeBuilder :=
  { b with arena := (endGroup b.arena b.current).2, current := around, outer }

theorem Sound.ended (h : b.Sound ok) {around : OpenGroup} {outer : List OpenGroup}
    (houter : b.outer = around :: outer) (hfault : b.fault? = none) :
    (b.ended around outer).Sound ok ∧ (∀ g ∈ around :: outer, g.group ≠ b.current.group) ∧
      ∀ g ∈ around :: outer, g.group ≠ (endGroup b.arena b.current).1 := by
  obtain ⟨hshaped, hgrows, -, -, -, hmine⟩ := endGroup_spec h hfault
  have hloose := (h.fillable _ List.mem_cons_self).isOpen.loose
  have hmem : ∀ g ∈ around :: outer, g ∈ b.groups := fun g hg ↦
    List.mem_cons_of_mem _ (houter ▸ hg)
  have hgroups : ∀ g ∈ around :: outer, g.group ≠ b.current.group := by
    intro g hg heq
    rw [← houter] at hg
    exact (List.nodup_cons.1 h.nodup).1 (List.mem_map.2 ⟨g, hg, heq⟩)
  have hrest : TreeBuilder.Sound ok { b with arena := b.arena, current := around, outer } := by
    refine ⟨h.shaped, fun g hg ↦ h.fillable g (hmem g hg), fun g hg ↦ h.isGroup g (hmem g hg), ?_⟩
    have := (List.nodup_cons.1 h.nodup).2
    rwa [houter] at this
  refine ⟨hrest.of_grows hshaped hgrows hloose hgroups, hgroups, fun g hg ↦ ?_⟩
  rcases hmine with heq | hle
  · rw [heq]
    exact hgroups g hg
  · exact Nat.ne_of_lt (Nat.lt_of_lt_of_le (group_lt hrest hg) hle)

theorem of_take_closeGroup {left : Bytes} {q : Quantifier}
    (hb' : b.take o (.closeGroup left q) = .ok b') : ∃ around outer, b.outer = around :: outer ∧
      b.fault? = none ∧ (b.ended around outer).place o.maxTreeSize
        (endGroup b.arena b.current).1 q = .ok b' := by
  rw [take_closeGroup] at hb'
  split at hb'
  · cases hb'
  · next around outer hsplit =>
    split at hb'
    · cases hb'
    · next hfault => exact ⟨around, outer, hsplit, hfault, hb'⟩

theorem sound_closeGroup (h : b.Sound ok) {left : Bytes} {q : Quantifier}
    (hb' : b.take o (.closeGroup left q) = .ok b') : b'.Sound ok := by
  obtain ⟨around, outer, houter, hfault, hplace⟩ := of_take_closeGroup hb'
  obtain ⟨-, -, hlt, hloose, hterm, -⟩ := endGroup_spec h hfault
  obtain ⟨hended, -, hne⟩ := h.ended houter hfault
  exact sound_place hended hlt hloose hterm hne hplace

theorem sound_start : start.Sound ok := by
  have hadd : (({} : Arena).add (groupNode 0 .capture)).Shaped ok := Arena.Shaped.empty.add trivial
  have hself : (({} : Arena).add (groupNode 0 .capture)).Open 0 0 := .add_self rfl
  obtain ⟨hshaped, -, hfillable, hgroup⟩ := openAlternative_spec hadd hself rfl
  refine ⟨hshaped, fun g hg ↦ ?_, fun g hg ↦ ?_, List.nodup_singleton _⟩
  · rw [List.mem_singleton.1 hg]
    exact hfillable
  · rw [List.mem_singleton.1 hg]
    exact hgroup

/-- **The step lemma of reading a pattern.** -/
theorem sound_take (h : b.Sound ok) {e : Event}
    (hgood : ∀ atom q, e = .atom atom q → (atom.kind o.encoding).Plain ok)
    (hb' : b.take o e = .ok b') : b'.Sound ok := by
  cases e with
  | atom atom q => exact sound_atom h (hgood atom q rfl) (by cases atom <;> rfl) hb'
  | openGroup kind => exact sound_openGroup h hb'
  | bar => exact sound_bar h hb'
  | closeGroup left q => exact sound_closeGroup h hb'
  | failure e => cases hb'

/-- What every event keeps, reading a pattern keeps. -/
theorem of_foldlM_take {P : TreeBuilder → Prop} {events : List Event}
    (hstep : ∀ {b b' : TreeBuilder} {e : Event}, e ∈ events → P b → b.take o e = .ok b' → P b')
    (h : P b) (hb' : events.foldlM (TreeBuilder.take o) b = .ok b') : P b' := by
  induction events generalizing b with
  | nil =>
    cases hb'
    exact h
  | cons e events ih =>
    rw [List.foldlM_cons] at hb'
    cases htake : b.take o e with
    | error e => rw [htake] at hb'; cases hb'
    | ok b₁ =>
      rw [htake] at hb'
      exact ih (fun hmem ↦ hstep (List.mem_cons_of_mem _ hmem)) (hstep List.mem_cons_self h htake)
        hb'

end TreeBuilder

/-- The tree of a pattern depends on the encoding and on the bound alone. -/
theorem Tree.ofPattern_congr {o o' : Options} (pattern : Bytes)
    (hencoding : o.encoding = o'.encoding) (hlimit : o.maxTreeSize = o'.maxTreeSize) :
    Tree.ofPattern o pattern = Tree.ofPattern o' pattern := by
  obtain ⟨encoding, mustAdvance, maxState, maxTransition, maxTreeSize⟩ := o
  cases hencoding
  cases hlimit
  have htake : TreeBuilder.take ⟨_, mustAdvance, maxState, maxTransition, _⟩ =
      TreeBuilder.take o' := rfl
  rw [Tree.ofPattern, Tree.ofPattern, Tree.ofEvents_eq, Tree.ofEvents_eq, htake]
  rfl

theorem Tree.ofEvents_of_ofPattern {o : Options} {pattern : Bytes} {t : Tree}
    (ht : Tree.ofPattern o pattern = .ok t) :
    Tree.ofEvents o (Event.read pattern.untilZero) = .ok t := by
  unfold Tree.ofPattern at ht
  dsimp only at ht
  cases hevents : Tree.ofEvents o (Event.read pattern.untilZero) with
  | error e => rw [hevents] at ht; cases ht
  | ok t' => rw [hevents] at ht; cases ht; rfl

/-- What the tree of a pattern is finished from. -/
theorem Tree.exists_builder_of_ofPattern {o : Options} {pattern : Bytes} {t : Tree}
    (ht : Tree.ofPattern o pattern = .ok t) : ∃ b : TreeBuilder,
      (Event.read pattern.untilZero).foldlM (TreeBuilder.take o) .start = .ok b ∧
        t = b.arena.finish o.encoding b.current.group b.captures := by
  have hevents := Tree.ofEvents_of_ofPattern ht
  rw [Tree.ofEvents_eq] at hevents
  split at hevents
  · cases hevents
  · next b hb =>
    rw [TreeBuilder.finish_eq] at hevents
    split at hevents
    · exact ⟨b, hb, (Except.ok.inj hevents).symm⟩
    · cases hevents

theorem TreeBuilder.Sound.ready {ok : CodePointSet → Prop} {b : TreeBuilder} (h : b.Sound ok) :
    Arena.Ready ok b.arena b.current.group :=
  have hcurrent : b.current ∈ b.groups := List.mem_cons_self
  ⟨h.shaped, group_lt h hcurrent, (h.fillable _ hcurrent).isOpen.loose, h.isGroup _ hcurrent⟩

/-- **The tree of a pattern is finished at a group of an arena of good shape.** -/
theorem Tree.ready_of_ofPattern {ok : CodePointSet → Prop} {o : Options} {pattern : Bytes}
    {t : Tree} (hgood : ∀ atom q, Event.atom atom q ∈ Event.read pattern.untilZero →
      (atom.kind o.encoding).Plain ok)
    (ht : Tree.ofPattern o pattern = .ok t) :
    ∃ a root captures, Arena.Ready ok a root ∧ t = a.finish o.encoding root captures := by
  obtain ⟨b, hb, rfl⟩ := exists_builder_of_ofPattern ht
  have hsound : b.Sound ok := TreeBuilder.of_foldlM_take
    (fun hmem h htake ↦ TreeBuilder.sound_take h (fun atom q he ↦ hgood atom q (he ▸ hmem)) htake)
    TreeBuilder.sound_start hb
  exact ⟨_, _, _, hsound.ready, rfl⟩

theorem Tree.exists_ofPattern {o : Options} {pattern : Bytes} (p : Tree → Bool)
    (h : (Tree.ofPattern o pattern).toOption.any p = true) :
    ∃ t, Tree.ofPattern o pattern = .ok t ∧ p t = true := by
  cases ht : Tree.ofPattern o pattern with
  | error e => rw [ht] at h; cases h
  | ok t => rw [ht] at h; exact ⟨t, rfl, h⟩

/-! ## Trees made by hand -/

/-- The drafts that can be made. -/
inductive Draft.Reachable : Draft → Prop
  | empty : Reachable {}
  | group {d : Draft} : Reachable d → Reachable (d.add (.group {}))
  | capture {d : Draft} (n : Int) : Reachable d → Reachable (d.addCapture n)
  | loop {d : Draft} (kind : LoopKind) : Reachable d →
      Reachable (d.add (.group { loop := some kind }))
  | sequence {d : Draft} : Reachable d → Reachable (d.add .sequence)
  | chars {d : Draft} (ranges : List CodeRange) : Reachable d →
      Reachable (d.add (.chars (.ofRanges ranges) none))
  | caret {d : Draft} : Reachable d → Reachable (d.add .caret)
  | dollar {d : Draft} : Reachable d → Reachable (d.add .dollar)
  | lookBehind {d d' : Draft} {body : Nat} : Reachable d → d.addLookBehind? body = some d' →
      Reachable d'
  | alternative {d d' : Draft} {group sequence : Nat} : Reachable d →
      d.addAlternative? group sequence = some d' → Reachable d'
  | term {d d' : Draft} {sequence term : Nat} : Reachable d →
      d.addTerm? sequence term = some d' → Reachable d'
  | copy {d d' : Draft} {id : Nat} : Reachable d → d.copy? id = some d' → Reachable d'

namespace Draft

variable {d d' : Draft} {ok : CodePointSet → Prop}

theorem exists_open_of_mayPlace (h : d.arena.Forest) {parent child : Nat}
    (hparent : d.has parent = true) (hmay : d.mayPlace parent child = true) :
    (d.arena.node child).parent = none ∧ ∃ top, d.arena.Open top parent ∧ top ≠ child := by
  rw [mayPlace, Bool.and_eq_true, List.all_eq_true] at hmay
  obtain ⟨hloose, hall⟩ := hmay
  have hlt : parent < d.arena.size := of_decide_eq_true hparent
  have habove : ∀ x, d.arena.Below parent x →
      x ≠ child ∧ (d.arena.node x).kind.isLookBehind = false := by
    intro x hx
    have := hall x ((h.mem_ancestors hlt).2 hx)
    rw [Bool.and_eq_true, bne_iff_ne, Bool.not_eq_true'] at this
    exact this
  obtain ⟨top, hbelow, htop⟩ := h.exists_top parent
  exact ⟨Option.isNone_iff_eq_none.1 hloose, top,
    ⟨hlt, hbelow, htop, fun x hx ↦ (habove x hx).2⟩, (habove top hbelow).1⟩

theorem shaped_link (h : d.arena.Shaped ok) {parent child : Nat} (hparent : d.has parent = true)
    (hchild : d.has child = true) (hmay : d.mayPlace parent child = true)
    (htakes : (d.node parent).kind.Takes (d.node child).kind) :
    (d.arena.link parent child).Shaped ok := by
  obtain ⟨hloose, top, hopen, hne⟩ := exists_open_of_mayPlace h.forest hparent hmay
  exact h.link hopen (of_decide_eq_true hchild) hloose hne htakes

/-- **Drafts keep their shape**, whatever is called. -/
theorem Reachable.shaped (h : d.Reachable) : d.arena.Shaped fun _ ↦ True := by
  induction h with
  | empty => exact .empty
  | group _ ih => exact ih.add trivial
  | capture _ _ ih => exact ih.add trivial
  | loop _ _ ih => exact ih.add trivial
  | sequence _ ih => exact ih.add trivial
  | chars _ _ ih => exact ih.add ⟨rfl, trivial⟩
  | caret _ ih => exact ih.add trivial
  | dollar _ ih => exact ih.add trivial
  | lookBehind _ hcall ih =>
    rw [addLookBehind?, Option.ite_none_right_eq_some] at hcall
    obtain ⟨hcheck, hcall⟩ := hcall
    cases hcall
    simp only [isBody, Bool.and_eq_true, beq_iff_eq] at hcheck
    obtain ⟨⟨hbody, hloose⟩, ⟨hgroup, hone⟩, hall⟩ := hcheck
    exact ih.addLookBehind (of_decide_eq_true hbody) (Option.isNone_iff_eq_none.1 hloose) hgroup
      hone (Array.all_eq_true_iff_forall_mem.1 hall)
  | alternative _ hcall ih =>
    rw [addAlternative?, Option.ite_none_right_eq_some] at hcall
    obtain ⟨hcheck, hcall⟩ := hcall
    cases hcall
    simp only [Bool.and_eq_true] at hcheck
    obtain ⟨⟨⟨⟨hparent, hchild⟩, hgroup⟩, hsequence⟩, hmay⟩ := hcheck
    refine shaped_link ih hparent hchild hmay ?_
    obtain ⟨g, hg⟩ := NodeKind.isGroup_iff.1 hgroup
    rw [hg, NodeKind.isSequence_iff.1 hsequence]
    trivial
  | term _ hcall ih =>
    rw [addTerm?, Option.ite_none_right_eq_some] at hcall
    obtain ⟨hcheck, hcall⟩ := hcall
    cases hcall
    simp only [Bool.and_eq_true] at hcheck
    obtain ⟨⟨⟨⟨hparent, hchild⟩, hsequence⟩, hterm⟩, hmay⟩ := hcheck
    refine shaped_link ih hparent hchild hmay ?_
    rw [NodeKind.isSequence_iff.1 hsequence]
    exact hterm
  | copy _ hcall ih =>
    rw [copy?, Option.ite_none_right_eq_some] at hcall
    obtain ⟨hcheck, hcall⟩ := hcall
    cases hcall
    exact ih.copy (of_decide_eq_true hcheck)

theorem ready_of_finish (h : d.Reachable) {encoding : Encoding} {root captureGroups : Nat}
    {t : Tree} (ht : d.finish? encoding root captureGroups = some t) :
    Arena.Ready (fun _ ↦ True) d.arena root ∧
      t = d.arena.finish encoding root captureGroups := by
  rw [finish?, Option.ite_none_right_eq_some] at ht
  obtain ⟨hcheck, ht⟩ := ht
  simp only [Bool.and_eq_true] at hcheck
  obtain ⟨⟨⟨⟨⟨hroot, hgroup⟩, hloose⟩, -⟩, -⟩, -⟩ := hcheck
  exact ⟨⟨h.shaped, of_decide_eq_true hroot, Option.isNone_iff_eq_none.1 hloose, hgroup⟩,
    (Option.some.inj ht).symm⟩

end Draft

/-! ## Finished trees -/

/-- The finished trees: those of patterns, and those made by hand. -/
inductive Tree.Finished : Tree → Prop
  | ofPattern {o : Options} {pattern : Bytes} {t : Tree} : Tree.ofPattern o pattern = .ok t →
      Finished t
  | ofDraft {d : Draft} {encoding : Encoding} {root captureGroups : Nat} {t : Tree} :
      d.Reachable → d.finish? encoding root captureGroups = some t → Finished t

theorem Tree.Finished.ready {t : Tree} (h : t.Finished) :
    ∃ a encoding root captures, Arena.Ready (fun _ ↦ True) a root ∧
      t = a.finish encoding root captures := by
  cases h with
  | @ofPattern o pattern t ht =>
    have hplain : ∀ atom q, Event.atom atom q ∈ Event.read pattern.untilZero →
        (atom.kind o.encoding).Plain fun _ ↦ True := by
      intro atom _ _
      cases atom <;> trivial
    obtain ⟨a, root, captures, hready, rfl⟩ := ready_of_ofPattern hplain ht
    exact ⟨a, _, root, captures, hready, rfl⟩
  | ofDraft hd ht =>
    obtain ⟨hready, rfl⟩ := Draft.ready_of_finish hd ht
    exact ⟨_, _, _, _, hready, rfl⟩

end PatternAutomata
