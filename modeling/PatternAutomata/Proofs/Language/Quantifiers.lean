import PatternAutomata.Proofs.Language.Powers

/-!
# Quantifiers mean powers

A quantifier lays out uses of its atom behind the terms of a sequence, and does not touch anything
else. The terms that the sequence had go on to match what they did, and the layout matches what the
atom does a number of times in a row.

The atom is used once and copied afterwards. To copy it is all that is done to it, so it stays what
it was, although it stands in the sequence by then; what it must not do is contain the sequence.
-/

namespace PatternAutomata

namespace Arena

variable {a b c : Arena} {atom sequence sequence' group body exit u x y : Nat}
  {new new' terms : List Nat} {loop : Option LoopKind} {isLazy isUsed : Bool}

/-! ## Filling a sequence -/

theorem Grows.trans_of_mine (h : Grows atom a b) (h' : Grows u b c)
    (hmine : u = atom ∨ a.size ≤ u) : Grows atom a c where
  size_le := Nat.le_trans h.size_le h'.size_le
  kind y hy := by rw [h'.kind y (Nat.lt_of_lt_of_le hy h.size_le), h.kind y hy]
  parent y hy hne := by
    rw [h'.parent y (Nat.lt_of_lt_of_le hy h.size_le) (by omega), h.parent y hy hne]

/-- `b` is `a` with more nodes, where some terms have been put behind those of a sequence. -/
structure Lengthens (atom sequence : Nat) (new : List Nat) (a b : Arena) : Prop where
  grows : Grows atom a b
  children : ∀ y < a.size, (b.node y).children.toList =
    (a.node y).children.toList ++ if y = sequence then new else []

namespace Lengthens

theorem refl (a : Arena) : Lengthens atom sequence [] a a := ⟨.refl a, fun _ _ ↦ by simp⟩

theorem trans (h : Lengthens atom sequence new a b) (h' : Lengthens u sequence new' b c)
    (hmine : u = atom ∨ a.size ≤ u) : Lengthens atom sequence (new ++ new') a c where
  grows := h.grows.trans_of_mine h'.grows hmine
  children y hy := by
    rw [h'.children y (Nat.lt_of_lt_of_le hy h.grows.size_le), h.children y hy]
    split <;> simp

theorem beyond (h : Lengthens atom sequence new a b) (h' : Lengthens atom sequence' new' b c)
    (hle : a.size ≤ sequence') : Lengthens atom sequence new a c where
  grows := h.grows.trans h'.grows
  children y hy := by
    rw [h'.children y (Nat.lt_of_lt_of_le hy h.grows.size_le), h.children y hy,
      if_neg (by omega : y ≠ sequence'), List.append_nil]

theorem mirrors (h : Lengthens atom sequence new a b) (hforest : a.Forest) (hx : x < a.size)
    (hapart : ¬a.Below sequence x) : a.Mirrors x b x := by
  refine mirrors_self hforest fun y hy ↦ ?_
  have hlt : y < a.size := hy.lt_size hx
  have hne : y ≠ sequence := by
    rintro rfl
    exact hapart hy
  rw [h.grows.kind y hlt, h.children y hlt, if_neg hne, List.append_nil]
  exact ⟨rfl, rfl⟩

theorem mirrors_term (h : Lengthens atom sequence new a b) (hforest : a.Forest)
    (hx : x ∈ (a.node sequence).children.toList) : a.Mirrors x b x := by
  have hup := hforest.up_of_mem_toList hx
  exact h.mirrors hforest (lt_size_of_parent hup) (hforest.not_below_parent hup)

end Lengthens

theorem lengthens_link {p : Nat} (hp : p < a.size) (hx : x < a.size) :
    Lengthens x p [x] a (a.link p x) :=
  ⟨(Grows.refl a).link hp hx (.inl rfl), fun _ _ ↦ children_link hp hx⟩

/-! ## New choices -/

/-- It makes no difference in which order nodes are placed below different ones. -/
theorem link_comm {p p' x x' : Nat} (hp : p < a.size) (hx : x < a.size) (hp' : p' < a.size)
    (hx' : x' < a.size) (hpp : p ≠ p') (hxx : x ≠ x') :
    (a.link p x).link p' x' = (a.link p' x').link p x := by
  refine ext_node (by simp) fun y _ ↦ ?_
  rw [node_link (by simpa using hp') (by simpa using hx'), node_link hp hx, node_link hp hx,
    node_link (by simpa using hp) (by simpa using hx), node_link hp' hx', node_link hp' hx']
  have hplace : y = x' → ¬y = x := fun h' h ↦ hxx (h.symm.trans h')
  rcases eq_or_ne y p with rfl | hy
  · simp only [if_neg hpp.symm, if_neg hpp]
    congr 1 <;> exact ite_ite_comm _ _ _ _ hplace
  · simp only [if_neg hpp.symm, if_neg hpp, if_neg hy]
    congr 1 <;> exact ite_ite_comm _ _ _ _ hplace

theorem linkChoice_link (hgroup : group < b.size) (hbody : body < b.size) (hexit : exit < b.size)
    (hu : u < b.size) (hne : group ≠ body) (hub : u ≠ body) (hue : u ≠ exit) (isLazy : Bool) :
    (b.link body u).linkChoice group body exit isLazy =
      (b.linkChoice group body exit isLazy).link body u := by
  have hlink : ∀ {c : Arena} {x : Nat}, c.size = b.size → x < b.size → u ≠ x →
      (c.link body u).link group x = (c.link group x).link body u := fun hc hx hux ↦
    link_comm (hc ▸ hbody) (hc ▸ hu) (hc ▸ hgroup) (hc ▸ hx) hne.symm hux
  rw [linkChoice_eq, linkChoice_eq]
  split
  · rw [hlink rfl hexit hue, hlink (size_link ..) hbody hub]
  · rw [hlink rfl hbody hub, hlink (size_link ..) hexit hue]

theorem choiceAround_eq (hu : u < b.size) (loop : Option LoopKind) (isLazy : Bool) :
    ((b.addChoice { loop }).link (b.size + 1) u).linkChoice b.size (b.size + 1) (b.size + 2)
        isLazy =
      ((b.addChoice { loop }).linkChoice b.size (b.size + 1) (b.size + 2) isLazy).link
        (b.size + 1) u := by
  have hsize := b.size_addChoice { loop }
  exact linkChoice_link (by omega) (by omega) (by omega) (by omega) (by omega) (by omega)
    (by omega) isLazy

theorem Forest.link_loose {p : Nat} (h : b.Forest) (hp : p < b.size) (hx : x < b.size)
    (hploose : (b.node p).parent = none) (hxloose : (b.node x).parent = none) (hne : p ≠ x) :
    (b.link p x).Forest ∧ ((b.link p x).node p).parent = none :=
  ⟨h.link hp hx hxloose fun hbelow ↦ hne (hbelow.eq_of_loose hploose).symm,
    by rw [node_link hp hx, if_neg hne, hploose]⟩

theorem Forest.linkChoice (h : b.Forest) (hgroup : group < b.size) (hbody : body < b.size)
    (hexit : exit < b.size) (hloose : (b.node group).parent = none)
    (hbloose : (b.node body).parent = none) (heloose : (b.node exit).parent = none)
    (hgb : group ≠ body) (hge : group ≠ exit) (hbe : body ≠ exit) (isLazy : Bool) :
    (b.linkChoice group body exit isLazy).Forest ∧
      ((b.linkChoice group body exit isLazy).node group).parent = none := by
  rw [linkChoice_eq]
  split
  · obtain ⟨h₁, hloose₁⟩ := h.link_loose hgroup hexit hloose heloose hge
    refine h₁.link_loose (by simpa using hgroup) (by simpa using hbody) hloose₁ ?_ hgb
    rw [node_link hgroup hexit, if_neg hbe, hbloose]
  · obtain ⟨h₁, hloose₁⟩ := h.link_loose hgroup hbody hloose hbloose hgb
    refine h₁.link_loose (by simpa using hgroup) (by simpa using hexit) hloose₁ ?_ hge
    rw [node_link hgroup hbody, if_neg hbe.symm, heloose]

theorem Grows.linkChoice (h : Grows atom a b) (hgroup : group < b.size)
    (hbody : a.size ≤ body ∧ body < b.size) (hexit : a.size ≤ exit ∧ exit < b.size)
    (isLazy : Bool) : Grows atom a (b.linkChoice group body exit isLazy) := by
  rw [linkChoice_eq]
  split
  · exact (h.link hgroup hexit.2 (.inr hexit.1)).link (by simpa using hgroup)
      (by simpa using hbody.2) (.inr hbody.1)
  · exact (h.link hgroup hbody.2 (.inr hbody.1)).link (by simpa using hgroup)
      (by simpa using hexit.2) (.inr hexit.1)

theorem grows_addChoice (g : Group) : Grows atom b (b.addChoice g) :=
  ((Grows.add _).trans (.add _)).trans (.add _)

theorem Choice.lengthen (h : b.Choice loop isLazy terms group body exit)
    (hl : Lengthens atom sequence new b c) (hgroup : group ≠ sequence) (hexit : exit ≠ sequence) :
    c.Choice loop isLazy (terms ++ if body = sequence then new else []) group body exit where
  lt := by
    have hlt := h.lt
    have hle := hl.grows.size_le
    omega
  kind := by rw [hl.grows.kind _ h.lt.1, h.kind]
  order := by rw [hl.children _ h.lt.1, if_neg hgroup, List.append_nil, h.order]
  kind_body := by rw [hl.grows.kind _ h.lt.2.1, h.kind_body]
  terms_body := by rw [hl.children _ h.lt.2.1, h.terms_body]
  kind_exit := by rw [hl.grows.kind _ h.lt.2.2, h.kind_exit]
  terms_exit := by rw [hl.children _ h.lt.2.2, if_neg hexit, List.append_nil, h.terms_exit]

theorem lengthens_choice (loop : Option LoopKind) (isLazy : Bool) :
    let d := (b.addChoice { loop }).linkChoice b.size (b.size + 1) (b.size + 2) isLazy
    Lengthens atom sequence [] b d ∧
      d.Choice loop isLazy [] b.size (b.size + 1) (b.size + 2) := by
  intro d
  have hsize := b.size_addChoice { loop }
  have hnode := fun y ↦ node_choice (b := b) (y := y) { loop } isLazy
  have habsent : ∀ {y : Nat}, b.size ≤ y →
      (b.node y).kind = .sequence ∧ (b.node y).children.toList = [] := fun hy ↦ by
    rw [node_of_size_le hy]
    exact ⟨rfl, rfl⟩
  have hdsize : d.size = b.size + 3 := (size_linkChoice ..).trans hsize
  refine ⟨⟨(grows_addChoice _).linkChoice (by omega) (by omega) (by omega) isLazy, fun y hy ↦ ?_⟩,
    by omega, ?_, ?_, ?_, ?_, ?_, ?_⟩
  · rw [(hnode y).2, if_neg (by omega), ite_self]
  · rw [(hnode _).1, if_pos rfl]
  · rw [(hnode _).2, if_pos rfl, (habsent (Nat.le_refl _)).2, List.nil_append]
  · rw [(hnode _).1, if_neg (by omega), (habsent (by omega)).1]
  · rw [(hnode _).2, if_neg (by omega), (habsent (by omega)).2, List.append_nil]
  · rw [(hnode _).1, if_neg (by omega), (habsent (by omega)).1]
  · rw [(hnode _).2, if_neg (by omega), (habsent (by omega)).2, List.append_nil]

/-! ## Unrolling -/

/-- An arena on the way to unroll an atom `x` of `a`. The atom can be used, and used in the sequence
that is being filled, which stands outside of it. -/
structure Unrolling (a : Arena) (x atom : Nat) (isUsed : Bool) (sequence : Nat) (b : Arena) :
    Prop where
  forest : b.Forest
  atom_lt : atom < b.size
  sequence_lt : sequence < b.size
  apart : ¬b.Below sequence atom
  loose : isUsed = false → (b.node atom).parent = none
  mirrors : a.Mirrors x b atom

namespace Unrolling

theorem lengthen (h : Unrolling a x atom isUsed sequence b)
    (hl : Lengthens atom sequence new b c) (hforest : c.Forest) :
    Unrolling a x atom true sequence c where
  forest := hforest
  atom_lt := Nat.lt_of_lt_of_le h.atom_lt hl.grows.size_le
  sequence_lt := Nat.lt_of_lt_of_le h.sequence_lt hl.grows.size_le
  apart := fun hbelow ↦ h.apart ((hl.grows.below_iff h.forest h.sequence_lt h.apart).1 hbelow)
  loose := nofun
  mirrors := h.mirrors.trans (hl.mirrors h.forest h.atom_lt h.apart)

theorem link (h : Unrolling a x atom false sequence b) :
    Unrolling a x atom true sequence (b.link sequence atom) :=
  h.lengthen (lengthens_link h.sequence_lt h.atom_lt)
    (h.forest.link h.sequence_lt h.atom_lt (h.loose rfl) h.apart)

theorem useAtom (h : Unrolling a x atom isUsed sequence b) :
    Unrolling a x (b.useAtom atom isUsed).1 false sequence (b.useAtom atom isUsed).2 ∧
      Lengthens atom sequence [] b (b.useAtom atom isUsed).2 ∧
      ((b.useAtom atom isUsed).1 = atom ∨ b.size ≤ (b.useAtom atom isUsed).1) := by
  cases isUsed with
  | false => exact ⟨h, .refl b, .inl rfl⟩
  | true =>
    obtain ⟨visited, hcopy⟩ := exists_copy h.forest h.atom_lt
    have hgrows : Grows atom b (b.copy atom) := .copy h.forest h.atom_lt
    have hlt : b.size < (b.copy atom).size := by
      rw [hcopy.size, List.length_cons]
      omega
    refine ⟨⟨hcopy.forest, hlt, Nat.lt_of_lt_of_le h.sequence_lt hgrows.size_le, fun hbelow ↦ ?_,
      fun _ ↦ hcopy.loose, h.mirrors.trans (mirrors_copy h.forest h.atom_lt)⟩,
      ⟨hgrows, fun y hy ↦ ?_⟩, .inr (Nat.le_refl _)⟩
    · -- what the sequence stands below of has been there before
      have hold := (hgrows.below_iff h.forest h.sequence_lt h.apart).1 hbelow
      exact Nat.lt_irrefl _ (h.forest.lt_of_below hold h.sequence_lt)
    · show ((b.copy atom).node y).children.toList = _
      rw [hcopy.old y hy, ite_self, List.append_nil]

/-- **The step lemma of unrolling.** The atom is used once more in the sequence. -/
theorem useIn (h : Unrolling a x atom isUsed sequence b) :
    let c := (b.useAtom atom isUsed).2.link sequence (b.useAtom atom isUsed).1
    Lengthens atom sequence [(b.useAtom atom isUsed).1] b c ∧
      Unrolling a x atom true sequence c ∧ a.Mirrors x c (b.useAtom atom isUsed).1 := by
  intro c
  obtain ⟨huse, hl, hmine⟩ := h.useAtom
  have hl := hl.trans (lengthens_link huse.sequence_lt huse.atom_lt) hmine
  exact ⟨hl, h.lengthen hl huse.link.forest, huse.link.mirrors⟩

/-- A number of uses, one behind the other. They mirror the atom whatever is placed next. -/
theorem placeTimes (h : Unrolling a x atom isUsed sequence b) (n : Nat) :
    ∃ uses, Lengthens atom sequence uses b (Arena.placeTimes sequence atom n isUsed b) ∧
      Unrolling a x atom (isUsed || decide (0 < n)) sequence
        (Arena.placeTimes sequence atom n isUsed b) ∧ uses.length = n ∧
      ∀ {new c}, Lengthens atom sequence new (Arena.placeTimes sequence atom n isUsed b) c →
        ∀ u ∈ uses, a.Mirrors x c u := by
  induction n generalizing isUsed b with
  | zero => exact ⟨[], .refl b, by simpa [placeTimes_zero] using h, rfl, nofun⟩
  | succ n ih =>
    obtain ⟨hl, h₁, hu⟩ := h.useIn
    obtain ⟨uses, hrest, h₂, hlength, huses⟩ := ih h₁
    refine ⟨_, hl.trans hrest (.inl rfl), by simpa [placeTimes_succ] using h₂, by simp [hlength],
      fun hc ↦ List.forall_mem_cons.2 ⟨hu.trans ?_, huses hc⟩⟩
    refine (hrest.trans hc (.inl rfl)).mirrors_term h₁.forest ?_
    rw [hl.children _ h.sequence_lt, if_pos rfl]
    exact List.mem_append_right _ (List.mem_singleton_self _)

end Unrolling

theorem unrolling_choice (hforest : b.Forest) (hatom : atom < b.size)
    (hloose : isUsed = false → (b.node atom).parent = none) (hmirrors : a.Mirrors x b atom)
    (loop : Option LoopKind) (isLazy : Bool) :
    let d := (b.addChoice { loop }).linkChoice b.size (b.size + 1) (b.size + 2) isLazy
    Unrolling a x atom isUsed (b.size + 1) d ∧ (d.node b.size).parent = none := by
  intro d
  have hsize := b.size_addChoice { loop }
  have hsame : SamePlaces b (b.addChoice { loop }) :=
    ((samePlaces_add _).trans (samePlaces_add _)).trans (samePlaces_add _)
  have habsent : ∀ {y : Nat}, b.size ≤ y → (b.node y).parent = none := fun hy ↦ by
    rw [node_of_size_le hy]
    rfl
  have hnew : ∀ {y : Nat}, b.size ≤ y → ((b.addChoice { loop }).node y).parent = none :=
    fun hy ↦ (hsame.parent _).trans (habsent hy)
  obtain ⟨hd, hgroup⟩ := (hsame.forest hforest).linkChoice (by omega) (by omega) (by omega)
    (hnew (Nat.le_refl _)) (hnew (Nat.le_succ _)) (hnew (Nat.le_add_right _ 2)) (by omega)
    (by omega) (by omega) isLazy
  obtain ⟨hl, hchoice⟩ : Lengthens b.size (b.size + 1) [] b d ∧
      d.Choice loop isLazy [] b.size (b.size + 1) (b.size + 2) := lengthens_choice loop isLazy
  have hbody : d.Up (b.size + 1) b.size := by
    refine hd.up_of_mem_toList ?_
    rw [hchoice.order]
    cases isLazy <;> simp
  have hdsize : d.size = b.size + 3 := (size_linkChoice ..).trans hsize
  refine ⟨⟨hd, by omega, by omega, fun hbelow ↦ ?_, fun hused ↦ ?_, hmirrors.trans
    (hl.mirrors hforest hatom fun hbelow ↦ ?_)⟩, hgroup⟩
  · -- above the body there are the group and nothing else
    rcases hbelow.eq_or_of_up hbody with heq | hbelow
    · omega
    · have := Below.eq_of_loose hbelow hgroup
      omega
  · rw [hl.grows.parent atom hatom (by omega), hloose hused]
  · have := hbelow.eq_of_loose (habsent (Nat.le_succ _))
    omega

namespace Unrolling

theorem openChoice (h : Unrolling a x atom isUsed sequence b) (loop : Option LoopKind)
    (isLazy : Bool) :
    let d := (b.addChoice { loop }).linkChoice b.size (b.size + 1) (b.size + 2) isLazy
    let e := d.link sequence b.size
    Lengthens atom sequence [b.size] b e ∧ Unrolling a x atom isUsed (b.size + 1) e ∧
      e.Choice loop isLazy [] b.size (b.size + 1) (b.size + 2) := by
  intro d e
  obtain ⟨hd, hgroup⟩ := unrolling_choice h.forest h.atom_lt h.loose h.mirrors loop isLazy
  obtain ⟨hl, hchoice⟩ : Lengthens atom sequence [] b d ∧
      d.Choice loop isLazy [] b.size (b.size + 1) (b.size + 2) := lengthens_choice loop isLazy
  have hs : sequence < d.size := Nat.lt_of_lt_of_le h.sequence_lt hl.grows.size_le
  have hlt : b.size < d.size := hchoice.lt.1
  have hold : ∀ {y}, d.Below sequence y ↔ b.Below sequence y :=
    hl.grows.below_iff h.forest h.sequence_lt h.apart
  have hplace : Lengthens b.size sequence [b.size] d e := lengthens_link hs hlt
  have hle : Lengthens atom sequence [b.size] b e := hl.trans hplace (.inr (Nat.le_refl _))
  have hforest : e.Forest := hd.forest.link hs hlt hgroup fun hbelow ↦
    Nat.lt_irrefl _ (h.forest.lt_of_below (hold.1 hbelow) h.sequence_lt)
  have hatom := h.atom_lt
  have hsequence := h.sequence_lt
  refine ⟨hle, ⟨hforest, Nat.lt_of_lt_of_le hatom hle.grows.size_le, ?_, fun hbelow ↦ ?_,
    fun hused ↦ ?_, h.mirrors.trans (hle.mirrors h.forest hatom h.apart)⟩, ?_⟩
  · rw [size_link]
    exact hd.sequence_lt
  · rcases (below_link hs hlt hgroup).1 hbelow with hbelow | ⟨-, hbelow⟩
    · exact hd.apart hbelow
    · exact h.apart (hold.1 hbelow)
  · rw [node_link hs hlt, if_neg (Nat.ne_of_lt hatom), hd.loose hused]
  · have hfilled := hchoice.lengthen hplace (by omega) (by omega)
    rwa [if_neg (by omega), List.append_nil] at hfilled

theorem placeOptional (h : Unrolling a x atom isUsed sequence b) (n : Nat) (isLazy : Bool) :
    ∃ new, Lengthens atom sequence new b (Arena.placeOptional atom isLazy n sequence isUsed b) ∧
      a.Unrolled x (Arena.placeOptional atom isLazy n sequence isUsed b) isLazy 0 (some n) new := by
  induction n generalizing sequence isUsed b with
  | zero => exact ⟨[], .refl b, .done⟩
  | succ n ih =>
    obtain ⟨hl, h₁, hchoice⟩ := h.openChoice none isLazy
    obtain ⟨hfirst, h₂, hu⟩ := h₁.useIn
    obtain ⟨rest, hrest, hlayout⟩ := ih h₂
    have hinner := hfirst.trans hrest (.inl rfl)
    refine ⟨[b.size], hl.beyond hinner (Nat.le_succ _),
      .optional (hu.trans (hrest.mirrors_term h₂.forest ?_)) hlayout ⟨b.size + 1, b.size + 2, ?_⟩⟩
    · rw [hfirst.children _ h₁.sequence_lt, if_pos rfl]
      exact List.mem_append_right _ (List.mem_singleton_self _)
    · have hfilled := hchoice.lengthen hinner (by omega) (by omega)
      rwa [if_pos rfl, List.nil_append] at hfilled

theorem placeLoop (h : Unrolling a x atom false sequence b) (kind : LoopKind) (isLazy : Bool) :
    let c := (b.addLoop kind isLazy atom).link sequence b.size
    Lengthens atom sequence [b.size] b c ∧ a.Mirrors x c atom ∧
      c.Offers (some kind) isLazy [atom] b.size := by
  intro c
  have hatom := h.atom_lt
  have hsequence := h.sequence_lt
  let d := (b.addChoice { loop := some kind }).linkChoice b.size (b.size + 1) (b.size + 2) isLazy
  have hsize : d.size = b.size + 3 := (size_linkChoice ..).trans (size_addChoice _)
  have hd : b.addLoop kind isLazy atom = d.link (b.size + 1) atom := choiceAround_eq hatom _ _
  obtain ⟨hl, h₁, hchoice⟩ := h.openChoice (some kind) isLazy
  -- the loop is made before it is placed, but that makes no difference
  have hc : c = (d.link sequence b.size).link (b.size + 1) atom := by
    rw [← link_comm (by omega) (by omega) (by omega) (by omega) (by omega) (by omega), ← hd]
  rw [hc]
  have hfill := lengthens_link h₁.sequence_lt h₁.atom_lt
  refine ⟨hl.beyond hfill (Nat.le_succ _), h₁.link.mirrors, b.size + 1, b.size + 2, ?_⟩
  have hfilled := hchoice.lengthen hfill (by omega) (by omega)
  rwa [if_pos rfl, List.nil_append] at hfilled

end Unrolling

theorem offers_choiceAround (hforest : a.Forest) (hatom : atom < a.size)
    (hloose : (a.node atom).parent = none) (loop : Option LoopKind) (isLazy : Bool) :
    let c := ((a.addChoice { loop }).link (a.size + 1) atom).linkChoice a.size (a.size + 1)
      (a.size + 2) isLazy
    a.Mirrors atom c atom ∧ c.Offers loop isLazy [atom] a.size := by
  intro c
  obtain ⟨h, -⟩ := unrolling_choice hforest hatom (fun _ ↦ hloose)
    (mirrors_self hforest fun _ _ ↦ ⟨rfl, rfl⟩) loop isLazy
  obtain ⟨-, hchoice⟩ : Lengthens atom a.size [] a _ ∧ Choice _ loop isLazy [] _ _ _ :=
    lengthens_choice loop isLazy
  rw [show c = _ from choiceAround_eq hatom loop isLazy]
  refine ⟨h.link.mirrors, a.size + 1, a.size + 2, ?_⟩
  have hfilled := hchoice.lengthen (lengthens_link h.sequence_lt h.atom_lt) (by omega) (by omega)
  rwa [if_pos rfl, List.nil_append] at hfilled

/-- **What is placed for a counted atom** is a layout of its uses, behind the terms of the
sequence. -/
theorem exists_unrolled {limit least : Nat} {greatest : Option Nat} (hforest : a.Forest)
    (hatom : atom < a.size) (hloose : (a.node atom).parent = none) (hsequence : sequence < a.size)
    (hapart : ¬a.Below sequence atom) (hbounds : ∀ n ∈ greatest, least ≤ n)
    (hc : a.placeCounted limit sequence atom least greatest isLazy = some c) :
    ∃ new, Lengthens atom sequence new a c ∧ a.Unrolled atom c isLazy least greatest new := by
  have h : Unrolling a atom atom false sequence a :=
    ⟨hforest, hatom, hsequence, hapart, fun _ ↦ hloose, mirrors_self hforest fun _ _ ↦ ⟨rfl, rfl⟩⟩
  rcases placeCounted_cases hc with ⟨rfl, rfl⟩ | ⟨greatest, -, rfl, -, rfl⟩ | ⟨rfl, -, rfl⟩
  · obtain rfl : least = 0 := Nat.le_zero.1 (hbounds 0 rfl)
    exact ⟨[], .refl _, .done⟩
  · obtain ⟨uses, hl, h₁, rfl, huses⟩ := h.placeTimes least
    obtain ⟨rest, hrest, hlayout⟩ :=
      Unrolling.placeOptional (by simpa using h₁) (greatest - uses.length) isLazy
    refine ⟨_, hl.trans hrest (.inl rfl), ?_⟩
    simpa [Nat.sub_add_cancel (hbounds greatest rfl)] using hlayout.times (huses hrest)
  · obtain ⟨uses, hl, h₁, hlength, huses⟩ := h.placeTimes (least - 1)
    rw [used_pred] at h₁
    obtain ⟨h₂, hl₂, hmine⟩ := h₁.useAtom
    obtain ⟨hloop, hu, hoffers⟩ :=
      h₂.placeLoop (if least = 0 then .star else .plus) isLazy
    have hrest := hl₂.trans hloop hmine
    have hlayout := (Unrolled.loop hu hoffers).times (huses hrest)
    rw [hlength, (by omega : min least 1 + (least - 1) = least)] at hlayout
    exact ⟨_, hl.trans hrest (.inl rfl), hlayout⟩

end Arena

/-! ## Matches -/

namespace Tree

variable {t : Tree} {atom : Nat}

/-- **Quantifiers mean powers.** A counted atom is laid out behind the terms that a sequence has,
and the sequence matches what it did followed by what the atom matches, a number of times within the
bounds. A loop around an atom matches what the atom does any number of times, an optional atom
matches what it does or nothing. In all groups that are made the alternative with the atom comes
first, unless the quantifier is lazy. -/
theorem matches_powers (hforest : t.arena.Forest) (hatom : atom < t.size)
    (hloose : (t.node atom).parent = none) :
    (∀ {sequence limit least : Nat} {greatest : Option Nat} {isLazy : Bool} {c : Arena},
      sequence < t.size → (t.node sequence).kind = .sequence → ¬t.arena.Below sequence atom →
      (∀ n ∈ greatest, least ≤ n) →
      t.arena.placeCounted limit sequence atom least greatest isLazy = some c →
      (∀ w anchored s e, ({ t with arena := c } : Tree).Matches w anchored (.node sequence) s e ↔
        ∃ m k, t.Matches w anchored (.node sequence) s m ∧
          (least ≤ k ∧ ∀ n ∈ greatest, k ≤ n) ∧
          t.Matches w anchored (.terms (List.replicate k atom)) m e) ∧
      ∃ new, (c.node sequence).children.toList = (t.node sequence).children.toList ++ new ∧
        t.arena.Unrolled atom c isLazy least greatest new) ∧
    (∀ kind isLazy,
      (∀ w anchored s e, ({ t with arena := t.arena.addLoop kind isLazy atom } : Tree).Matches w
        anchored (.node t.size) s e ↔ ∃ k, (kind = .plus → 1 ≤ k) ∧
          t.Matches w anchored (.terms (List.replicate k atom)) s e) ∧
      (t.arena.addLoop kind isLazy atom).Offers (some kind) isLazy [atom] t.size) ∧
    ∀ isLazy,
      (∀ w anchored s e, ({ t with arena := t.arena.addOptional isLazy atom } : Tree).Matches w
        anchored (.node t.size) s e ↔ ∃ k ≤ 1,
          t.Matches w anchored (.terms (List.replicate k atom)) s e) ∧
      (t.arena.addOptional isLazy atom).Offers none isLazy [atom] t.size := by
  refine ⟨?_, fun kind isLazy ↦ ?_, fun isLazy ↦ ?_⟩
  · intro sequence limit least greatest isLazy c hsequence hkind hapart hbounds hc
    obtain ⟨new, hl, hlayout⟩ :=
      Arena.exists_unrolled hforest hatom hloose hsequence hapart hbounds hc
    have hchildren : (({ t with arena := c } : Tree).node sequence).children.toList =
        (t.node sequence).children.toList ++ new := by
      refine (hl.children _ hsequence).trans ?_
      rw [if_pos rfl]
      rfl
    have hkind' : (({ t with arena := c } : Tree).node sequence).kind = .sequence :=
      (hl.grows.kind _ hsequence).trans hkind
    refine ⟨fun w anchored s e ↦ ?_, new, hchildren, hlayout⟩
    have hterms : ∀ x ∈ (t.node sequence).children.toList, t.arena.Mirrors x c x :=
      fun x hx ↦ hl.mirrors_term hforest hx
    rw [matches_sequence_iff hkind' hchildren, matches_append_iff]
    refine exists_congr fun m ↦ ?_
    have hold : ({ t with arena := c } : Tree).Matches w anchored
        (.terms (t.node sequence).children.toList) s m ↔
        t.Matches w anchored (.node sequence) s m :=
      (matches_terms_iff_of_mirrors (List.forall₂_same.2 hterms)).trans
        (matches_sequence_iff hkind rfl).symm
    have hnew : ({ t with arena := c } : Tree).Matches w anchored (.terms new) m e ↔ _ :=
      matches_unrolled_iff hlayout
    rw [hold, hnew, ← exists_and_left]
    simp only [and_assoc]
  · obtain ⟨hatom, hoffers⟩ :=
      Arena.offers_choiceAround hforest hatom hloose (some kind) isLazy
    exact ⟨fun w anchored s e ↦ matches_loop_iff_of_mirrors hatom hoffers, hoffers⟩
  · obtain ⟨hatom, hoffers⟩ := Arena.offers_choiceAround hforest hatom hloose none isLazy
    refine ⟨fun w anchored s e ↦ ?_, hoffers⟩
    rw [← matches_singleton_iff, matches_unrolled_iff (.optional hatom .done hoffers)]
    simp

/-- A class that is repeated two to four times, as few times as will do, behind another class. -/
theorem matches_powers_class :
    ∃ t : Tree, t.arena = (((({} : Arena).add .sequence).add (.chars (.single 98) none)).link 0
        1).add (.chars (.single 97) none) ∧
      (t.arena.Forest ∧ 2 < t.size ∧ (t.node 2).parent = none) ∧
      (0 < t.size ∧ (t.node 0).kind = .sequence ∧ ¬t.arena.Below 0 2) ∧
      ∃ c, t.arena.placeCounted 100 0 2 2 (some 4) true = some c ∧
        (∀ w anchored s e, ({ t with arena := c } : Tree).Matches w anchored (.node 0) s e ↔
          ∃ m k, t.Matches w anchored (.node 0) s m ∧ (2 ≤ k ∧ ∀ n ∈ some 4, k ≤ n) ∧
            t.Matches w anchored (.terms (List.replicate k 2)) m e) ∧
        ∃ new, (c.node 0).children.toList = (t.node 0).children.toList ++ new ∧
          t.arena.Unrolled 2 c true 2 (some 4) new := by
  let a := ((({} : Arena).add .sequence).add (.chars (.single 98) none)).link 0 1
  let t : Tree := { (default : Tree) with arena := a.add (.chars (.single 97) none) }
  have hforest : t.arena.Forest := by
    refine (Arena.samePlaces_add _).forest (Arena.Forest.link ?_ (by decide) (by decide) rfl
      fun hbelow ↦ by cases hbelow.eq_of_loose rfl)
    exact ((Arena.samePlaces_add _).trans (Arena.samePlaces_add _)).forest .empty
  have hapart : ¬t.arena.Below 0 2 := fun hbelow ↦ by cases hbelow.eq_of_loose rfl
  obtain ⟨c, hc⟩ : ∃ c, t.arena.placeCounted 100 0 2 2 (some 4) true = some c :=
    Option.isSome_iff_exists.1 (by decide +kernel)
  exact ⟨t, rfl, ⟨hforest, by decide, rfl⟩, ⟨by decide, rfl, hapart⟩, c, hc,
    (matches_powers hforest (by decide) rfl).1 (by decide) rfl hapart (by simp) hc⟩

end Tree

end PatternAutomata
