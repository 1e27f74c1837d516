import PatternAutomata.Proofs.Tree.Whole

/-!
# Outlines of trees in the making

Whether a pattern can be read to its end does not depend on the whole tree that is made of it. It is
enough to know which groups are open, and of each of them what matters to a look-behind assertion:
whether it has a single alternative, and whether all terms of the alternative that is being filled
are classes. Such an outline follows a tree in the making event by event. Where the tree gets stuck
although the outline goes on, the tree has become too large.
-/

namespace PatternAutomata

/-- What matters of an open group. -/
structure Frame where
  /-- What the group is. -/
  kind : GroupKind
  /-- Whether the alternative that is being filled is the only one so far. -/
  isSingle : Bool
  /-- Whether its terms are classes. -/
  ofChars : Bool

namespace Frame

/-- A group that has just been opened. -/
def start (kind : GroupKind) : Frame := ⟨kind, true, true⟩

/-- The group with more terms, which are classes or not. -/
def add (f : Frame) (areChars : Bool) : Frame := { f with ofChars := f.ofChars && areChars }

/-- The group with another alternative. -/
def next (f : Frame) : Frame := ⟨f.kind, false, true⟩

/-- Whether the group may end: a look-behind assertion must be one sequence of classes. -/
def mayEnd (f : Frame) : Bool := f.kind ≠ .lookBehind || f.isSingle && f.ofChars

end Frame

/-- What matters of a tree in the making. -/
structure Outline where
  /-- The innermost group that is open. -/
  current : Frame
  /-- The groups around it, innermost first. -/
  outer : List Frame

namespace Outline

def start : Outline := ⟨.start .capture, []⟩

/-- Takes one event, if that is possible. -/
def take (o : Outline) : Event → Option Outline
  | .atom atom q => some { o with current := o.current.add (q.placesChars atom.isChars) }
  | .openGroup kind => some ⟨.start kind, o.current :: o.outer⟩
  | .bar => some { o with current := o.current.next }
  | .closeGroup _ q =>
    match o.outer with
    | [] => none
    | around :: outer =>
      if o.current.mayEnd then some ⟨around.add (q.placesChars false), outer⟩ else none
  | .failure _ => none

end Outline

/-! ## Groups -/

/-- A frame tells the truth about an open group. -/
structure Frame.Describes (f : Frame) (a : Arena) (g : OpenGroup) : Prop where
  kind : g.kind = f.kind
  /-- The alternative that is being filled is the last one. -/
  alternatives : ∃ earlier, (a.node g.group).children.toList = earlier ++ [g.sequence] ∧
    (f.isSingle = true ↔ earlier = [])
  terms : f.ofChars = true ↔
    ∀ x ∈ (a.node g.sequence).children.toList, (a.node x).kind.isChars = true

namespace Frame.Describes

variable {ok : CodePointSet → Prop} {f : Frame} {a b : Arena} {g : OpenGroup} {atom p : Nat}
  {new : List Nat}

theorem terms_iff (h : f.Describes a g) (hforest : a.Forest) (hgrows : Arena.Grows atom a b) :
    f.ofChars = true ↔
      ∀ x ∈ (a.node g.sequence).children.toList, (b.node x).kind.isChars = true := by
  rw [h.terms]
  refine forall₂_congr fun x hx ↦ ?_
  have hlt := Arena.lt_size_of_parent (hforest.up_of_mem_toList hx)
  rw [hgrows.kind x hlt]

theorem of_grows (h : f.Describes a g) (hforest : a.Forest) (hgrows : Arena.Grows atom a b)
    (hchildren : ∀ y, y = g.group ∨ y = g.sequence →
      (b.node y).children.toList = (a.node y).children.toList) : f.Describes b g where
  kind := h.kind
  alternatives := by
    rw [hchildren _ (.inl rfl)]
    exact h.alternatives
  terms := by
    rw [hchildren _ (.inr rfl)]
    exact h.terms_iff hforest hgrows

theorem add (h : f.Describes a g) (hforest : a.Forest)
    (hfilling : Arena.Filling ok atom g.sequence new a b)
    (hgroup : g.group < a.size ∧ g.group ≠ g.sequence) (hsequence : g.sequence < a.size)
    {areChars : Bool} (hnew : (∀ x ∈ new, (b.node x).kind.isChars = true) ↔ areChars = true) :
    (f.add areChars).Describes b g where
  kind := h.kind
  alternatives := by
    rw [hfilling.children _ hgroup.1, if_neg hgroup.2, List.append_nil]
    exact h.alternatives
  terms := by
    rw [hfilling.children _ hsequence, if_pos rfl, List.forall_mem_append, hnew,
      ← h.terms_iff hforest hfilling.placing.grows]
    exact Bool.and_eq_true _ _ ▸ Iff.rfl

end Frame.Describes

namespace TreeBuilder

variable {ok : CodePointSet → Prop} {b b' : TreeBuilder} {f : Frame} {o : Options}

theorem fault?_eq_none_iff (h : f.Describes b.arena b.current) :
    b.fault? = none ↔ f.mayEnd = true := by
  obtain ⟨earlier, hchildren, hsingle⟩ := h.alternatives
  have hsize : (b.arena.node b.current.group).children.size = earlier.length + 1 := by
    rw [← Array.length_toList, hchildren, List.length_append, List.length_singleton]
  unfold fault? Frame.mayEnd
  rw [h.kind]
  by_cases hkind : f.kind = .lookBehind
  · rw [if_pos hkind, hkind]
    cases earlier with
    | cons x earlier =>
      rw [if_pos (by simp [hsize])]
      have hmany : f.isSingle = false := Bool.eq_false_iff.2 fun hone ↦ by cases hsingle.1 hone
      simp [hmany]
    | nil =>
      -- the terms of the body are those of the alternative that is being filled
      have hbody : b.arena.bodyTerms b.current.group =
          (b.arena.node b.current.sequence).children := by
        have hone : (b.arena.node b.current.group).children = #[b.current.sequence] :=
          Array.toList_inj.1 hchildren
        rw [Arena.bodyTerms, hone]
        rfl
      have hall : (b.arena.bodyTerms b.current.group).all
          (fun t ↦ (b.arena.node t).kind.isChars) = true ↔ f.ofChars = true := by
        rw [hbody, Array.all_eq_true_iff_forall_mem, h.terms]
        simp only [Array.mem_toList_iff]
      rw [if_neg (by simp [hsize]), hsingle.2 rfl]
      by_cases hchars : f.ofChars = true
      · simp [hall.2 hchars, hchars]
      · simp [Bool.eq_false_iff.2 fun h ↦ hchars (hall.1 h), hchars]
  · rw [if_neg hkind]
    simp [hkind]

/-! ## Events -/

def Outlined (a : Arena) (frames : List Frame) (groups : List OpenGroup) : Prop :=
  List.Forall₂ (fun f g ↦ f.Describes a g) frames groups

theorem Outlined.of_grows {a a' : Arena} {frames : List Frame} {groups : List OpenGroup}
    {atom : Nat} (h : Outlined a frames groups) (hforest : a.Forest)
    (hgrows : Arena.Grows atom a a') (hchildren : ∀ g ∈ groups, ∀ y, y = g.group ∨ y = g.sequence →
      (a'.node y).children.toList = (a.node y).children.toList) : Outlined a' frames groups := by
  induction h with
  | nil => exact .nil
  | cons hhead _ ih =>
    obtain ⟨hfirst, hrest⟩ := List.forall_mem_cons.1 hchildren
    exact .cons (hhead.of_grows hforest hgrows hfirst) (ih hrest)

theorem Sound.group_ne_sequence (h : b.Sound ok) {g g' : OpenGroup} (hg : g ∈ b.groups)
    (hg' : g' ∈ b.groups) : g.group ≠ g'.sequence := by
  intro heq
  have hgroup := h.isGroup g hg
  rw [heq, (h.fillable g' hg').kind] at hgroup
  cases hgroup

/-- The groups around the current one, and what they fill, are something else than the current group
and what it fills. -/
theorem Sound.ne_current (h : b.Sound ok) {g : OpenGroup} (hg : g ∈ b.outer) {y : Nat}
    (hy : y = g.group ∨ y = g.sequence) :
    y < b.arena.size ∧ y ≠ b.current.group ∧ y ≠ b.current.sequence := by
  have hcurrent : b.current ∈ b.groups := List.mem_cons_self
  have hmem : g ∈ b.groups := List.mem_cons_of_mem _ hg
  have hne : g.group ≠ b.current.group := fun heq ↦
    (List.nodup_cons.1 h.nodup).1 (List.mem_map.2 ⟨g, hg, heq⟩)
  have hopen := (h.fillable g hmem).isOpen
  rcases hy with rfl | rfl
  · exact ⟨group_lt h hmem, hne, h.group_ne_sequence hmem hcurrent⟩
  · refine ⟨hopen.lt, (h.group_ne_sequence hcurrent hmem).symm, fun heq ↦ hne ?_⟩
    -- two groups above one sequence are the same group
    have hfill := (h.fillable b.current hcurrent).isOpen
    have hbelow := (heq ▸ hopen.below).below_of_loose hfill.below hfill.loose
    exact (hbelow.eq_of_loose hopen.loose).symm

/-- To place something in the current sequence is to add terms to the outline. -/
theorem outlined_place {frames : List Frame} (h : Outlined b.arena (f :: frames) b.groups)
    (hb : b.Sound ok) {limit atom : Nat} {q : Quantifier} (hlt : atom < b.arena.size)
    (hloose : (b.arena.node atom).parent = none)
    (hterm : (b.arena.node atom).kind.isTerm = true) (hne : ∀ g ∈ b.groups, g.group ≠ atom)
    (hb' : b.place limit atom q = .ok b') :
    Outlined b'.arena (f.add (q.placesChars (b.arena.node atom).kind.isChars) :: frames)
      b'.groups := by
  obtain ⟨arena, harena, rfl⟩ := exists_of_place_eq_ok hb'
  have hcurrent : b.current ∈ b.groups := List.mem_cons_self
  have hfill := hb.fillable _ hcurrent
  obtain ⟨new, hfilling, hnew⟩ := Arena.Filling.place hb.shaped hlt hloose hterm hfill
    (hne _ hcurrent) harena
  cases h with
  | cons hhead htail =>
    refine .cons (hhead.add hb.shaped.forest hfilling
      ⟨group_lt hb hcurrent, hb.group_ne_sequence hcurrent hcurrent⟩ hfill.isOpen.lt hnew) ?_
    refine Outlined.of_grows htail hb.shaped.forest hfilling.placing.grows fun g hg y hy ↦ ?_
    obtain ⟨hylt, -, hyne⟩ := hb.ne_current hg hy
    rw [hfilling.children _ hylt, if_neg hyne, List.append_nil]

theorem describes_openAlternative {a : Arena} {kind : GroupKind} {group : Nat}
    (hkind : kind = f.kind) (hlt : group < a.size)
    (hsingle : f.isSingle = true ↔ (a.node group).children.toList = [])
    (hchars : f.ofChars = true) :
    f.Describes (openAlternative a group) ⟨kind, group, a.size⟩ where
  kind := hkind
  alternatives := ⟨_, by rw [children_openAlternative hlt, if_pos rfl], hsingle⟩
  terms := by
    refine iff_of_true hchars fun x hx ↦ ?_
    dsimp only at hx
    rw [children_openAlternative hlt, if_neg (Nat.ne_of_gt hlt), List.append_nil,
      Arena.node_of_size_le (Nat.le_refl _)] at hx
    cases hx

theorem outlined_atom {frames : List Frame} (h : Outlined b.arena (f :: frames) b.groups)
    (hb : b.Sound ok) {atom : Atom} {q : Quantifier} (hatom : (atom.kind o.encoding).Plain ok)
    (hb' : b.take o (.atom atom q) = .ok b') :
    Outlined b'.arena (f.add (q.placesChars atom.isChars) :: frames) b'.groups := by
  have hchars : (atom.kind o.encoding).isChars = atom.isChars := by cases atom <;> rfl
  have hgrows : Arena.Grows b.arena.size b.arena (b.arena.add (atom.kind o.encoding)) := .add _
  obtain ⟨hadd, hne, hloose, hterm⟩ := hb.add hatom (by cases atom <;> rfl)
  have houtlined : Outlined (b.arena.add (atom.kind o.encoding)) (f :: frames) b.groups :=
    h.of_grows hb.shaped.forest hgrows fun _ _ _ _ ↦ by rw [Arena.children_add]
  have hplace := outlined_place houtlined hadd (by simp) hloose hterm hne hb'
  rwa [Arena.node_add, if_pos rfl, hchars] at hplace

theorem outlined_openGroup {frames : List Frame} (h : Outlined b.arena frames b.groups)
    (hb : b.Sound ok) {kind : GroupKind} (hb' : b.take o (.openGroup kind) = .ok b') :
    Outlined b'.arena (.start kind :: frames) b'.groups := by
  rw [take_openGroup] at hb'
  cases hb'
  let a := b.arena.add (groupNode b.captures kind)
  have hsize : a.size = b.arena.size + 1 := Arena.size_add _
  have hlt : b.arena.size < a.size := by omega
  have hchildren : ∀ y, (a.node y).children = (b.arena.node y).children := fun _ ↦
    Arena.children_add
  have hnone : (a.node b.arena.size).children.toList = [] := by
    rw [hchildren, Arena.node_of_size_le (Nat.le_refl _)]
    rfl
  have hnew : (Frame.start kind).Describes (openAlternative a b.arena.size)
      ⟨kind, b.arena.size, a.size⟩ :=
    describes_openAlternative rfl hlt (iff_of_true rfl hnone) rfl
  rw [hsize] at hnew
  have hgrows : Arena.Grows a.size b.arena (openAlternative a b.arena.size) :=
    (Arena.Grows.add _).trans (grows_openAlternative hlt)
  refine .cons hnew (h.of_grows hb.shaped.forest hgrows fun g hg y hy ↦ ?_)
  have hylt : y < b.arena.size := by
    rcases hy with rfl | rfl
    · exact group_lt hb hg
    · exact (hb.fillable g hg).isOpen.lt
  rw [children_openAlternative hlt, if_neg (Nat.ne_of_lt hylt), List.append_nil, hchildren]

theorem outlined_bar {frames : List Frame} (h : Outlined b.arena (f :: frames) b.groups)
    (hb : b.Sound ok) (hb' : b.take o .bar = .ok b') :
    Outlined b'.arena (f.next :: frames) b'.groups := by
  rw [take_bar] at hb'
  cases hb'
  have hlt := group_lt hb (List.mem_cons_self : b.current ∈ b.groups)
  cases h with
  | cons hhead htail =>
    obtain ⟨earlier, hchildren, -⟩ := hhead.alternatives
    have hsome : (b.arena.node b.current.group).children.toList ≠ [] := by
      rw [hchildren]
      simp
    have hnew : f.next.Describes (openAlternative b.arena b.current.group)
        { b.current with sequence := b.arena.size } :=
      describes_openAlternative hhead.kind hlt (iff_of_false nofun hsome) rfl
    refine .cons hnew (Outlined.of_grows htail hb.shaped.forest (grows_openAlternative hlt)
      fun g hg y hy ↦ ?_)
    obtain ⟨-, hyne, -⟩ := hb.ne_current hg hy
    rw [children_openAlternative hlt, if_neg hyne, List.append_nil]

theorem isChars_endGroup (hb : b.Sound ok) :
    ((endGroup b.arena b.current).2.node (endGroup b.arena b.current).1).kind.isChars = false := by
  have hlt := group_lt hb (List.mem_cons_self : b.current ∈ b.groups)
  obtain ⟨g, hg⟩ := NodeKind.isGroup_iff.1 (hb.isGroup b.current List.mem_cons_self)
  rw [endGroup_eq]
  split
  · rw [Arena.kind_addLookBehind, if_pos rfl]
    rfl
  · rw [hg]
    rfl

theorem outlined_closeGroup {f' : Frame} {frames : List Frame}
    (h : Outlined b.arena (f :: f' :: frames) b.groups) (hb : b.Sound ok) {left : Bytes}
    {q : Quantifier} (hb' : b.take o (.closeGroup left q) = .ok b') :
    Outlined b'.arena (f'.add (q.placesChars false) :: frames) b'.groups := by
  obtain ⟨around, outer, houter, hfault, hplace⟩ := of_take_closeGroup hb'
  obtain ⟨-, hgrows, hlt, hloose, hterm, -⟩ := endGroup_spec hb hfault
  obtain ⟨hended, -, hne⟩ := hb.ended houter hfault
  have hfilling := filling_endGroup hb hfault (p := around.sequence)
  have hrest : Outlined b.arena (f' :: frames) b.outer := by
    cases h with
    | cons _ hrest => exact hrest
  have hstay := hrest.of_grows hb.shaped.forest hgrows fun g hg y hy ↦ by
    obtain ⟨hylt, -⟩ := hb.ne_current hg hy
    rw [hfilling.children y hylt, ite_self, List.append_nil]
  rw [houter] at hstay
  have hchars : ((b.ended around outer).arena.node
      (endGroup b.arena b.current).1).kind.isChars = false := isChars_endGroup hb
  have hresult := outlined_place (b := b.ended around outer) hstay hended hlt hloose hterm hne
    hplace
  rwa [hchars] at hresult

/-! ## Runs -/

/-- An outline shows a tree in the making. -/
structure Follows (o : Options) (b : TreeBuilder) (outline : Outline) : Prop where
  sound : b.Sound o.encoding.Fits
  outlined : Outlined b.arena (outline.current :: outline.outer) b.groups

variable {outline outline' : Outline} {e : Event} {err : ReadError} {events : List Event}

theorem follows_start : Follows o start .start := by
  have hlt : 0 < (({} : Arena).add (groupNode 0 .capture)).size := by simp
  have hnew : (Frame.start .capture).Describes start.arena ⟨.capture, 0, 1⟩ :=
    describes_openAlternative rfl hlt (iff_of_true rfl rfl) rfl
  exact ⟨sound_start, .cons hnew .nil⟩

theorem Follows.fault?_eq_none_iff (h : Follows o b outline) :
    b.fault? = none ↔ outline.current.mayEnd = true := by
  cases h.outlined with
  | cons hhead _ => exact TreeBuilder.fault?_eq_none_iff hhead

theorem Follows.outer_eq_nil_iff (h : Follows o b outline) : b.outer = [] ↔ outline.outer = [] := by
  cases h.outlined with
  | cons _ htail => rw [← List.length_eq_zero_iff, ← List.length_eq_zero_iff, htail.length_eq]

/-- **The step lemma of outlines.** -/
theorem Follows.take (h : Follows o b outline) (hb' : b.take o e = .ok b') :
    ∃ outline', outline.take e = some outline' ∧ Follows o b' outline' := by
  have hsound := sound_take h.sound (fun atom q _ ↦ atom.plain_kind o.encoding) hb'
  cases e with
  | atom atom q =>
    exact ⟨_, rfl, hsound, outlined_atom h.outlined h.sound (atom.plain_kind o.encoding) hb'⟩
  | openGroup kind => exact ⟨_, rfl, hsound, outlined_openGroup h.outlined h.sound hb'⟩
  | bar => exact ⟨_, rfl, hsound, outlined_bar h.outlined h.sound hb'⟩
  | closeGroup left q =>
    obtain ⟨around, outer, houter, hfault, -⟩ := of_take_closeGroup hb'
    obtain ⟨f, frames⟩ := outline
    cases frames with
    | nil =>
      rw [h.outer_eq_nil_iff.2 rfl] at houter
      cases houter
    | cons f' frames =>
      exact ⟨_, if_pos (h.fault?_eq_none_iff.1 hfault), hsound,
        outlined_closeGroup h.outlined h.sound hb'⟩
  | failure e => cases hb'

theorem of_place_error {limit atom : Nat} {q : Quantifier} (h : b.place limit atom q = .error err) :
    err = .treeExplosion limit := by
  rw [place_eq] at h
  split at h
  · exact (Except.error.inj h).symm
  · cases h

/-- Events fail as the outline says, or else for lack of room. -/
theorem Follows.of_take_error (h : Follows o b outline) (herr : b.take o e = .error err) :
    (∃ limit, err = .treeExplosion limit) ∨ outline.take e = none := by
  cases e with
  | atom atom q => exact .inl ⟨_, of_place_error herr⟩
  | openGroup kind => cases herr
  | bar => cases herr
  | closeGroup left q =>
    rw [take_closeGroup] at herr
    split at herr
    · next houter =>
      refine .inr ?_
      rw [Outline.take, h.outer_eq_nil_iff.1 houter]
    · split at herr
      · next hfault =>
        have hnot : ¬outline.current.mayEnd = true := fun hmay ↦ by
          rw [h.fault?_eq_none_iff.2 hmay] at hfault
          cases hfault
        obtain ⟨f, frames⟩ := outline
        cases frames with
        | nil => exact .inr rfl
        | cons f' frames => exact .inr (if_neg hnot)
      · exact .inl ⟨_, of_place_error herr⟩
  | failure e => exact .inr rfl

theorem Follows.run (h : Follows o b outline)
    (hb' : events.foldlM (TreeBuilder.take o) b = .ok b') :
    ∃ outline', events.foldlM Outline.take outline = some outline' ∧ Follows o b' outline' := by
  induction events generalizing b outline with
  | nil =>
    cases hb'
    exact ⟨outline, rfl, h⟩
  | cons e events ih =>
    rw [List.foldlM_cons] at hb'
    cases htake : b.take o e with
    | error err =>
      rw [htake] at hb'
      cases hb'
    | ok b₁ =>
      rw [htake] at hb'
      obtain ⟨outline₁, hstep, h₁⟩ := h.take htake
      obtain ⟨outline', hrun, h'⟩ := ih h₁ hb'
      exact ⟨outline', by rw [List.foldlM_cons, hstep]; exact hrun, h'⟩

theorem Follows.of_run_error (h : Follows o b outline)
    (herr : events.foldlM (TreeBuilder.take o) b = .error err) :
    (∃ limit, err = .treeExplosion limit) ∨ events.foldlM Outline.take outline = none := by
  induction events generalizing b outline with
  | nil => cases herr
  | cons e events ih =>
    rw [List.foldlM_cons] at herr ⊢
    cases htake : b.take o e with
    | error err' =>
      rw [htake] at herr
      cases herr
      exact (h.of_take_error htake).imp_right fun hnone ↦ by rw [hnone]; rfl
    | ok b₁ =>
      rw [htake] at herr
      obtain ⟨outline₁, hstep, h₁⟩ := h.take htake
      rw [hstep]
      exact ih h₁ herr

end TreeBuilder

/-- **Patterns have trees if their outlines can be made**, unless their trees are too large. -/
theorem Tree.exists_ofPattern_iff_outline {o : Options} {pattern : Bytes}
    (hroom : ∀ limit, Tree.ofPattern o pattern ≠ .error (.treeExplosion limit)) :
    (∃ t, Tree.ofPattern o pattern = .ok t) ↔ ∃ outline : Outline,
      (Event.read pattern.untilZero).foldlM Outline.take .start = some outline ∧
        outline.outer = [] := by
  simp only [Tree.ofPattern, Tree.ofEvents_eq] at hroom ⊢
  cases hrun : (Event.read pattern.untilZero).foldlM (TreeBuilder.take o) .start with
  | error err =>
    rw [hrun] at hroom
    rcases TreeBuilder.follows_start.of_run_error hrun with ⟨limit, rfl⟩ | hnone
    · exact absurd rfl (hroom limit)
    · rw [hnone]
      refine iff_of_false ?_ ?_
      · rintro ⟨t, ht⟩
        cases ht
      · rintro ⟨outline, houtline, -⟩
        cases houtline
  | ok b =>
    obtain ⟨outline, houtline, h⟩ := TreeBuilder.follows_start.run hrun
    rw [houtline]
    simp only [TreeBuilder.finish_eq]
    cases houter : b.outer with
    | nil => exact iff_of_true ⟨_, rfl⟩ ⟨outline, rfl, h.outer_eq_nil_iff.1 houter⟩
    | cons around outer =>
      refine iff_of_false ?_ ?_
      · rintro ⟨t, ht⟩
        cases ht
      · rintro ⟨_, heq, hnil⟩
        cases heq
        rw [h.outer_eq_nil_iff.2 hnil] at houter
        cases houter

end PatternAutomata
