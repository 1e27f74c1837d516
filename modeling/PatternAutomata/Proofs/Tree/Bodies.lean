import PatternAutomata.Proofs.Tree.Nested

/-!
# Captures in the bodies of assertions

When captures are collected, the bodies of look-behind assertions are passed over. A tree can be
made by hand in which such a body is a capture group, and no loop around it keeps that capture.

In a pattern the body is a group that has been opened for the assertion, and it does not capture.
This is still so when quantifiers have made copies of the assertion. So in the tree of a pattern a
loop keeps the captures of all groups below it.
-/

namespace PatternAutomata

namespace Arena

variable {ok : CodePointSet → Prop} {a b : Arena} {body c p x y : Nat} {k : NodeKind}

theorem hasCapture_congr (h : (b.node x).kind = (a.node x).kind) :
    b.HasCapture x c ↔ a.HasCapture x c := by
  rw [HasCapture, HasCapture, h]

theorem not_hasCapture_of_isGroup (h : (a.node x).kind.isGroup = false) : ¬a.HasCapture x c := by
  rintro ⟨g, hg, -⟩
  rw [hg] at h
  cases h

/-- The bodies of look-behind assertions do not capture. -/
def Quiet (a : Arena) : Prop :=
  ∀ ⦃l body : Nat⦄, (a.node l).kind.isLookBehind = true → body ∈ (a.node l).children →
    ∀ c, ¬a.HasCapture body c

namespace Quiet

theorem of_old (h : a.Quiet)
    (hlookBehind : ∀ l, (b.node l).kind.isLookBehind = true →
      (a.node l).kind.isLookBehind = true ∧ (b.node l).children = (a.node l).children)
    (hcapture : ∀ l x c, x ∈ (a.node l).children → b.HasCapture x c → a.HasCapture x c) :
    b.Quiet := by
  intro l x hl hx c hc
  obtain ⟨hold, hchildren⟩ := hlookBehind l hl
  rw [hchildren] at hx
  exact h hold hx c (hcapture l x c hx hc)

theorem empty : Quiet {} := by
  intro l x hl
  rw [node_of_size_le (Nat.zero_le _)] at hl
  cases hl

theorem add (h : a.Quiet) (hforest : a.Forest) (hk : k.isLookBehind = false) : (a.add k).Quiet := by
  refine h.of_old (fun l hl ↦ ⟨?_, children_add⟩) fun l x c hx hc ↦ ?_
  · rw [node_add] at hl
    split at hl
    · rw [hk] at hl
      cases hl
    · exact hl
  · have hlt := lt_size_of_parent (hforest.up_of_mem hx)
    refine (hasCapture_congr ?_).1 hc
    rw [node_add, if_neg (Nat.ne_of_lt hlt)]

theorem link (h : a.Quiet) (hp : (a.node p).kind.isLookBehind = false) : (a.link p x).Quiet := by
  refine h.of_old (fun l hl ↦ ?_) fun l y c _ hc ↦ (hasCapture_congr (kind_link_eq a p x y)).1 hc
  rw [kind_link_eq] at hl
  have hne : l ≠ p := by
    rintro rfl
    rw [hp] at hl
    cases hl
  refine ⟨hl, ?_⟩
  rw [Arena.link, node_modify_of_ne _ hne]
  exact modify_congr Node.children fun _ ↦ rfl

theorem addLookBehind (h : a.Quiet) (hforest : a.Forest) (hlt : body < a.size)
    (hbody : ∀ c, ¬a.HasCapture body c) : (a.addLookBehind body).Quiet := by
  have hkind : ∀ y < a.size, ((a.addLookBehind body).node y).kind = (a.node y).kind := by
    intro y hy
    rw [kind_addLookBehind, if_neg (Nat.ne_of_lt hy)]
  intro l x hl hx c hc
  rw [children_addLookBehind hlt] at hx
  split at hx
  · obtain rfl := Array.mem_singleton.1 hx
    exact hbody c ((hasCapture_congr (hkind x hlt)).1 hc)
  · have hup := hforest.up_of_mem hx
    rw [hkind l (hforest.parent_lt hup)] at hl
    exact h hl hx c ((hasCapture_congr (hkind x (lt_size_of_parent hup))).1 hc)

theorem copy (h : a.Quiet) (hforest : a.Forest) (hx : x < a.size) : (a.copy x).Quiet := by
  obtain ⟨visited, hcopy⟩ := exists_copy hforest hx
  intro l y hl hy c hc
  rw [hcopy.kind] at hl
  have hmem := List.mem_map_of_mem (f := a.original (x :: visited)) (Array.mem_toList_iff.2 hy)
  rw [hcopy.children_eq] at hmem
  obtain ⟨g, hg, hcapture⟩ := hc
  rw [hcopy.kind] at hg
  exact h hl (Array.mem_toList_iff.1 hmem) c ⟨g, hg, hcapture⟩

theorem of_choice (h : a.Quiet) {loop : Option LoopKind}
    (hkind : ∀ y, (b.node y).kind = if y = a.size then .group { loop } else (a.node y).kind)
    (hchildren : ∀ y, y ≠ a.size → y ≠ a.size + 1 →
      (b.node y).children.toList = (a.node y).children.toList) : b.Quiet := by
  refine h.of_old (fun l hl ↦ ?_) fun l x c _ ⟨g, hg, hcapture⟩ ↦ ?_
  · rw [hkind] at hl
    split at hl
    · cases hl
    · next hne =>
      have hbody : l ≠ a.size + 1 := by
        rintro rfl
        rw [node_of_size_le (Nat.le_succ _)] at hl
        cases hl
      exact ⟨hl, Array.toList_inj.1 (hchildren l hne hbody)⟩
  · rw [hkind] at hg
    split at hg
    · cases hg
      cases hcapture
    · exact ⟨g, hg, hcapture⟩

/-- **Quantifiers make no assertion with a body that captures.** -/
theorem lasting : Lasting Quiet where
  link hp h := h.link (by rw [hp]; rfl)
  copy hforest hx h := h.copy hforest hx
  choice isLazy h := by
    refine h.of_choice (fun y ↦ (node_choice {} isLazy).1) fun y hne _ ↦ ?_
    rw [(node_choice {} isLazy).2, if_neg hne, List.append_nil]
  choiceAround loop isLazy hx h := by
    refine h.of_choice (fun y ↦ (node_choiceAround hx { loop } isLazy).1) fun y hne hne' ↦ ?_
    rw [(node_choiceAround hx { loop } isLazy).2, if_neg hne, if_neg hne', List.append_nil,
      List.append_nil]

end Quiet

end Arena

/-! ## Patterns under construction -/

namespace TreeBuilder

variable {ok : CodePointSet → Prop} {b b' : TreeBuilder} {o : Options} {atom limit : Nat}
  {q : Quantifier}

/-- The bodies of look-behind assertions do not capture, also while they are being read. -/
structure Hushed (b : TreeBuilder) : Prop where
  quiet : b.arena.Quiet
  body : ∀ g ∈ b.groups, g.kind = .lookBehind → ∀ c, ¬b.arena.HasCapture g.group c

theorem Hushed.of_grows (h : b.Hushed) (hb : b.Sound ok) {arena : Arena} (hquiet : arena.Quiet)
    (hgrows : Arena.Grows atom b.arena arena) : ({ b with arena } : TreeBuilder).Hushed :=
  ⟨hquiet, fun g hg hkind c hc ↦ h.body g hg hkind c
    ((Arena.hasCapture_congr (hgrows.kind _ (group_lt hb hg))).1 hc)⟩

theorem quiet_openAlternative {a : Arena} {group : Nat} (h : a.Quiet) (hforest : a.Forest)
    (hgroup : (a.node group).kind.isLookBehind = false) : (openAlternative a group).Quiet := by
  refine (h.add hforest rfl).link ?_
  rw [Arena.node_add]
  split
  · rfl
  · exact hgroup

theorem hushed_place (h : b.Hushed) (hb : b.Sound ok) (hlt : atom < b.arena.size)
    (hloose : (b.arena.node atom).parent = none)
    (hterm : (b.arena.node atom).kind.isTerm = true) (hne : ∀ g ∈ b.groups, g.group ≠ atom)
    (hb' : b.place limit atom q = .ok b') : b'.Hushed := by
  obtain ⟨arena, harena, rfl⟩ := exists_of_place_eq_ok hb'
  have hp := hb.fillable _ List.mem_cons_self
  have hnot := hne _ List.mem_cons_self
  exact h.of_grows hb
    (Arena.Quiet.lasting.place h.quiet hb.shaped ⟨hlt, hterm, fun _ ↦ hloose⟩ hp hnot harena)
    (Arena.Placing.place hb.shaped hlt hloose hterm hp hnot harena).grows

theorem hushed_openGroup (h : b.Hushed) (hb : b.Sound ok) {kind : GroupKind}
    (hb' : b.take o (.openGroup kind) = .ok b') : b'.Hushed := by
  rw [take_openGroup] at hb'
  cases hb'
  let a := b.arena.add (groupNode b.captures kind)
  have hplain : (groupNode b.captures kind).Plain ok := by cases kind <;> trivial
  have hnot : (groupNode b.captures kind).isLookBehind = false := by cases kind <;> rfl
  have hnode : (a.node b.arena.size).kind = groupNode b.captures kind := by
    rw [Arena.node_add, if_pos rfl]
  have hlt : b.arena.size < a.size := by simp [a]
  have hquiet : (openAlternative a b.arena.size).Quiet :=
    quiet_openAlternative (h.quiet.add hb.shaped.forest hnot) (hb.shaped.add hplain).forest
      (hnode ▸ hnot)
  have hgrows := grows_openAlternative hlt
  have hall := h.of_grows hb hquiet ((Arena.Grows.add _).trans hgrows)
  refine ⟨hquiet, fun g hg hlookBehind c hc ↦ ?_⟩
  rcases List.mem_cons.1 hg with rfl | hg
  · obtain rfl : kind = .lookBehind := hlookBehind
    obtain ⟨g, hkind, hcapture⟩ := (Arena.hasCapture_congr (hgrows.kind _ hlt)).1 hc
    cases hnode.symm.trans hkind
    cases hcapture
  · exact hall.body g hg hlookBehind c hc

theorem hushed_bar (h : b.Hushed) (hb : b.Sound ok) (hb' : b.take o .bar = .ok b') :
    b'.Hushed := by
  rw [take_bar] at hb'
  cases hb'
  have hcurrent : b.current ∈ b.groups := List.mem_cons_self
  obtain ⟨g, hg⟩ := NodeKind.isGroup_iff.1 (hb.isGroup _ hcurrent)
  have hall := h.of_grows hb (quiet_openAlternative h.quiet hb.shaped.forest (by rw [hg]; rfl))
    (grows_openAlternative (group_lt hb hcurrent))
  refine ⟨hall.quiet, fun g hg ↦ ?_⟩
  rcases List.mem_cons.1 hg with rfl | hg
  · exact hall.body b.current hcurrent
  · exact hall.body g (List.mem_cons_of_mem _ hg)

theorem hushed_atom (h : b.Hushed) (hb : b.Sound ok) {atom : Atom} {q : Quantifier}
    (hatom : (atom.kind o.encoding).Plain ok) (hb' : b.take o (.atom atom q) = .ok b') :
    b'.Hushed := by
  obtain ⟨hadd, hne, hloose, hterm⟩ := hb.add hatom (by cases atom <;> rfl)
  have hnot : (atom.kind o.encoding).isLookBehind = false := by cases atom <;> rfl
  have hgrows : Arena.Grows b.arena.size b.arena (b.arena.add (atom.kind o.encoding)) := .add _
  have hall := h.of_grows hb (h.quiet.add hb.shaped.forest hnot) hgrows
  exact hushed_place hall hadd (by simp) hloose hterm hne hb'

theorem quiet_endGroup (h : b.Hushed) (hb : b.Sound ok) : (endGroup b.arena b.current).2.Quiet := by
  have hcurrent : b.current ∈ b.groups := List.mem_cons_self
  rw [endGroup_eq]
  split
  · next hkind =>
    exact h.quiet.addLookBehind hb.shaped.forest (group_lt hb hcurrent)
      (h.body _ hcurrent hkind)
  · exact h.quiet

theorem hushed_closeGroup (h : b.Hushed) (hb : b.Sound ok) {left : Bytes} {q : Quantifier}
    (hb' : b.take o (.closeGroup left q) = .ok b') : b'.Hushed := by
  obtain ⟨around, outer, houter, hfault, hplace⟩ := of_take_closeGroup hb'
  obtain ⟨-, hgrows, hlt, hloose, hterm, -⟩ := endGroup_spec hb hfault
  obtain ⟨hended, -, hne⟩ := hb.ended houter hfault
  have hall := h.of_grows hb (quiet_endGroup h hb) hgrows
  have hhushed : (b.ended around outer).Hushed :=
    ⟨hall.quiet, fun g hg ↦ hall.body g (List.mem_cons_of_mem _ (houter ▸ hg))⟩
  exact hushed_place hhushed hended hlt hloose hterm hne hplace

/-- **The step lemma of reading a pattern**, for the bodies of look-behind assertions. -/
theorem hushed_take (h : b.Hushed) (hb : b.Sound ok) {e : Event}
    (hgood : ∀ atom q, e = .atom atom q → (atom.kind o.encoding).Plain ok)
    (hb' : b.take o e = .ok b') : b'.Hushed := by
  cases e with
  | atom atom q => exact hushed_atom h hb (hgood atom q rfl) hb'
  | openGroup kind => exact hushed_openGroup h hb hb'
  | bar => exact hushed_bar h hb hb'
  | closeGroup left q => exact hushed_closeGroup h hb hb'
  | failure e => cases hb'

theorem hushed_start : start.Hushed := by
  have hadd : (({} : Arena).add (groupNode 0 .capture)).Shaped fun _ ↦ True :=
    Arena.Shaped.empty.add trivial
  refine ⟨quiet_openAlternative (Arena.Quiet.empty.add .empty rfl) hadd.forest rfl,
    fun g hg hkind ↦ ?_⟩
  rw [List.mem_singleton.1 hg] at hkind
  cases hkind

end TreeBuilder

/-! ## Finished trees -/

namespace Arena.Framed

variable {ok : CodePointSet → Prop} {a b : Arena} {full : CodePointSet} {root lead c x : Nat}

theorem quiet (hf : Framed a full root lead b) (h : Ready ok a root) (hquiet : a.Quiet) :
    b.Quiet := by
  refine hquiet.of_old (fun l hl ↦ ?_) fun l x c hx hc ↦ ?_
  · obtain ⟨hlt, hold⟩ := hf.lt_of_isLookBehind hl
    exact ⟨hold, hf.children l hlt⟩
  · have hup := h.shaped.forest.up_of_mem hx
    have hne : x ≠ root := by
      rintro rfl
      cases hup.symm.trans h.loose
    have hmeasured := (hf.hasCapture_old h (lt_size_of_parent hup)).1 hc
    have hmade := (hasCapture_setNested _).1 hmeasured
    refine (hasCapture_congr ?_).1 hmade
    rw [kind_setMinPaths, makeRoot, node_modify_of_ne _ hne]

theorem outside_of_hasCapture (hf : Framed a full root lead b) (h : Ready ok a root)
    (hquiet : b.Quiet) (hcapture : b.HasCapture x c) : b.Outside x := by
  intro l hl hxl
  obtain ⟨hlt, hold⟩ := hf.lt_of_isLookBehind hl
  have hx := hf.lt_of_below_old h hlt hxl
  have hbare := hf.bare x hx
  rcases h.shaped.below_cases hold ((hf.below_old hx hlt).1 hxl) with heq | ⟨hup, -⟩ | hkind | hmem
  · exact heq
  · have hmem := h.shaped.forest.mem_of_up hup
    rw [← hf.children l hlt] at hmem
    exact absurd hcapture (hquiet hl hmem c)
  · refine absurd hcapture (not_hasCapture_of_isGroup ?_)
    rw [NodeKind.isGroup_of_bare_eq hbare, hkind]
    rfl
  · obtain ⟨set, claim, hchars⟩ :=
      NodeKind.isChars_iff.1 (h.shaped.of_mem_bodyOf hold hmem).2
    refine absurd hcapture (not_hasCapture_of_isGroup ?_)
    rw [NodeKind.isGroup_of_bare_eq hbare, hchars]
    rfl

end Arena.Framed

theorem Arena.Forest.outside_of_all {a : Arena} (h : a.Forest) {x : Nat} (hx : x < a.size)
    (hall : (a.ancestors x).all (fun l ↦ !(a.node l).kind.isLookBehind) = true) : a.Outside x := by
  intro l hl hxl
  have hnot := List.all_eq_true.1 hall l ((h.mem_ancestors hx).2 hxl)
  rw [hl] at hnot
  cases hnot

namespace Tree

variable {t : Tree} {x c : Nat}

/-- **The captures of a pattern are outside of look-behind assertions.** -/
theorem outside_of_ofPattern {o : Options} {pattern : Bytes}
    (ht : Tree.ofPattern o pattern = .ok t) (hcapture : t.arena.HasCapture x c) :
    t.arena.Outside x := by
  obtain ⟨b, hsound, hhushed, rfl⟩ :=
    exists_sound_of_ofPattern TreeBuilder.hushed_start TreeBuilder.hushed_take ht
  have hf := (hsound.ready.finishedFrom o.encoding b.captures).framed
  exact hf.outside_of_hasCapture hsound.ready (hf.quiet hsound.ready hhushed.quiet) hcapture

/-- **Loops keep exactly the captures below them**, in ascending order: those that stand properly
below the loop and outside of look-behind assertions. In the tree of a pattern these are all that
stand properly below it. -/
theorem Finished.nested_exact (h : t.Finished) {g : Group} (hkind : (t.node x).kind = .group g)
    (hloop : g.loop.isSome = true) (hbelow : t.arena.Below x t.root) (hout : t.arena.Outside x) :
    g.nested.toList.Pairwise (· < ·) ∧ (∀ c, c ∈ g.nested.toList ↔ t.Encloses x c) ∧
      ∀ {o : Options} {pattern : Bytes}, Tree.ofPattern o pattern = .ok t →
        ∀ c, c ∈ g.nested.toList ↔ ∃ y, y ≠ x ∧ t.arena.Below y x ∧ t.arena.HasCapture y c := by
  have hholds : t.Holds x := hbelow.trans h.regular.root_holds
  have hmem (c : Nat) : c ∈ g.nested.toList ↔ t.Encloses x c :=
    h.mem_nested hkind hloop hholds hout
  refine ⟨g.nested.ascending, hmem, fun ht c ↦ (hmem c).trans ?_⟩
  constructor
  · rintro ⟨y, hne, hyx, -, hcapture⟩
    exact ⟨y, hne, hyx, hcapture⟩
  · rintro ⟨y, hne, hyx, hcapture⟩
    exact ⟨y, hne, hyx, outside_of_ofPattern ht hcapture, hcapture⟩

/-- A loop around an assertion, a capture group and two copies of another one. -/
theorem nested_exact_copies : ∃ (t : Tree) (g : Group),
    Tree.ofPattern {} (.ofString "(?:(?<=a)(b)|(c){2})*") = .ok t ∧
    (t.node 18).kind = .group g ∧ g.loop.isSome = true ∧ t.arena.Below 18 t.root ∧
    t.arena.Outside 18 ∧ g.nested.toList = [1, 2] ∧ g.nested.toList.Pairwise (· < ·) ∧
    (∀ c, c ∈ g.nested.toList ↔ t.Encloses 18 c) ∧
    ∀ c, c ∈ g.nested.toList ↔ ∃ y, y ≠ 18 ∧ t.arena.Below y 18 ∧ t.arena.HasCapture y c := by
  obtain ⟨t, ht, htest⟩ := Tree.exists_ofPattern
    (fun t ↦ 18 < t.arena.size ∧
      (t.node 18).kind = .group { loop := some .star, nested := ⟨[1, 2], by decide⟩ } ∧
      t.root ∈ t.arena.ancestors 18 ∧
      (t.arena.ancestors 18).all (fun l ↦ !(t.arena.node l).kind.isLookBehind) = true)
    (show (Tree.ofPattern {} (.ofString "(?:(?<=a)(b)|(c){2})*")).toOption.any _ = true by
      decide +kernel)
  obtain ⟨hlt, hkind, hroot, hall⟩ := of_decide_eq_true htest
  have h := Tree.Finished.ofPattern ht
  have hforest := h.regular.forest
  have hbelow := (hforest.mem_ancestors hlt).1 hroot
  have hout := hforest.outside_of_all hlt hall
  obtain ⟨hascending, hmem, hpattern⟩ := h.nested_exact hkind rfl hbelow hout
  exact ⟨t, _, ht, hkind, rfl, hbelow, hout, rfl, hascending, hmem, hpattern ht⟩

end Tree

/-! ## A body that captures -/

/-- Made by hand: a loop around an assertion whose body, of one character, is capture group 1, and
another character. -/
def Draft.capturingBody? : Option Draft := do
  let d := (({} : Draft).addCapture 1).add .sequence
  let d := d.add (.chars (.ofRanges [.single 0x61]) none)
  let d ← d.addAlternative? 0 1
  let d ← d.addTerm? 1 2
  let d ← d.addLookBehind? 0
  let d := (d.add (.group { loop := some .star })).add .sequence
  let d := d.add (.chars (.ofRanges [.single 0x62]) none)
  let d := ((d.add .sequence).add (.group {})).add .sequence
  let d ← d.addAlternative? 4 5
  let d ← d.addTerm? 5 3
  let d ← d.addTerm? 5 6
  let d ← d.addAlternative? 4 7
  let d ← d.addAlternative? 8 9
  d.addTerm? 9 4

theorem Draft.reachable_capturingBody {d : Draft} (h : capturingBody? = some d) : d.Reachable := by
  simp only [capturingBody?, Option.bind_eq_bind, Option.bind_eq_some_iff] at h
  obtain ⟨_, hbody, _, hterm, _, hassertion, _, hfirst, _, hin, _, hin', _, hexit, _, halone, h⟩ :=
    h
  have h₁ := (((Reachable.empty.capture 1).sequence.chars _).alternative hbody).term hterm
  have h₂ := ((h₁.lookBehind hassertion).loop .star).sequence.chars [.single 0x62]
  have h₃ := ((h₂.sequence.group.sequence.alternative hfirst).term hin).term hin'
  exact ((h₃.alternative hexit).alternative halone).term h

/-- The loop does not keep the capture below it: what is in the body of an assertion is passed
over. -/
theorem Tree.nested_passes_over_body : ∃ (d : Draft) (t : Tree) (g : Group),
    Draft.capturingBody? = some d ∧ d.finish? .utf16 8 2 = some t ∧ t.Finished ∧
    (t.node 4).kind = .group g ∧ g.loop.isSome = true ∧ t.arena.Below 4 t.root ∧
    t.arena.Outside 4 ∧ 1 ∉ g.nested.toList ∧
    ∃ y, y ≠ 4 ∧ t.arena.Below y 4 ∧ t.arena.HasCapture y 1 := by
  have htest : (Draft.capturingBody?.bind fun d ↦ d.finish? .utf16 8 2).any (fun t ↦
      4 < t.arena.size ∧ (t.node 4).kind = .group { loop := some .star } ∧
      t.root ∈ t.arena.ancestors 4 ∧ 0 < t.arena.size ∧ 4 ∈ t.arena.ancestors 0 ∧
      (t.arena.node 0).kind = .group { capture := some 1 } ∧
      (t.arena.ancestors 4).all (fun l ↦ !(t.arena.node l).kind.isLookBehind) = true) = true := by
    decide +kernel
  obtain ⟨t, ht, htest⟩ := (Option.any_eq_true _ _).1 htest
  obtain ⟨d, hd, hfinish⟩ := Option.bind_eq_some_iff.1 ht
  obtain ⟨hlt, hkind, hroot, hlt', hloop, hcapture, hall⟩ := of_decide_eq_true htest
  have h := Tree.Finished.ofDraft (Draft.reachable_capturingBody hd) hfinish
  have hforest := h.regular.forest
  exact ⟨d, t, _, hd, hfinish, h, hkind, rfl, (hforest.mem_ancestors hlt).1 hroot,
    hforest.outside_of_all hlt hall, List.not_mem_nil, 0, by decide,
    (hforest.mem_ancestors hlt').1 hloop, _, hcapture, rfl⟩

end PatternAutomata
