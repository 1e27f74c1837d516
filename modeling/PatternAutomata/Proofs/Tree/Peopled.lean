import PatternAutomata.Proofs.Tree.Whole

/-!
# Groups have alternatives

A group is opened together with its first alternative, and a quantifier makes groups with two of
them. Children are never taken away, and a copy has as many as its original, so every group of
a pattern has an alternative. A walk that comes to a group can always go on.
-/

namespace PatternAutomata

namespace Arena

variable {a b : Arena} {id p x : Nat} {k : NodeKind}

/-- Every group has an alternative. -/
def Peopled (a : Arena) : Prop :=
  ∀ ⦃id : Nat⦄, (a.node id).kind.isGroup = true → (a.node id).isEmpty = false

namespace Peopled

theorem of_old (h : a.Peopled)
    (hkind : ∀ id, (b.node id).kind.isGroup = true →
      (a.node id).kind.isGroup = true ∨ (b.node id).isEmpty = false)
    (hchildren : ∀ id, (a.node id).isEmpty = false → (b.node id).isEmpty = false) : b.Peopled := by
  intro id hgroup
  rcases hkind id hgroup with hold | hnew
  · exact hchildren id (h hold)
  · exact hnew

theorem add (h : a.Peopled) (hk : k.isGroup = false) : (a.add k).Peopled := by
  refine h.of_old (fun id hgroup ↦ .inl ?_) fun id hid ↦ ?_
  · rw [node_add] at hgroup
    split at hgroup
    · rw [hk] at hgroup
      cases hgroup
    · exact hgroup
  · rwa [isEmpty_eq, children_add, ← isEmpty_eq]

theorem modify (h : a.Peopled) {f : Node → Node} (hkind : ∀ n, (f n).kind = n.kind)
    (hchildren : ∀ n, n.isEmpty = false → (f n).isEmpty = false) : (a.modify x f).Peopled := by
  intro id hgroup
  rw [modify_congr Node.kind hkind] at hgroup
  rcases node_modify_or a x f id with heq | ⟨-, heq⟩
  · rw [heq]
    exact h hgroup
  · rw [heq]
    exact hchildren _ (h hgroup)

theorem link (h : a.Peopled) (p x : Nat) : (a.link p x).Peopled := by
  have hx : (a.modify x fun n ↦
      { n with parent := some p, index := (a.node p).children.size }).Peopled :=
    h.modify (fun _ ↦ rfl) fun _ hn ↦ hn
  refine hx.modify (fun _ ↦ rfl) fun n _ ↦ ?_
  rw [isEmpty_eq, Array.toList_push]
  simp

theorem copy (h : a.Peopled) (hforest : a.Forest) (hx : x < a.size) : (a.copy x).Peopled := by
  obtain ⟨visited, hcopy⟩ := exists_copy hforest hx
  intro id hgroup
  rw [hcopy.kind] at hgroup
  have hold := h hgroup
  rw [isEmpty_eq, ← hcopy.children_eq, List.isEmpty_map] at hold
  rwa [isEmpty_eq]

theorem of_append (h : a.Peopled) {more : Nat → List Nat}
    (hkind : ∀ id, (b.node id).kind.isGroup = true → (a.node id).kind.isGroup = true ∨ more id ≠ [])
    (hchildren : ∀ id, (b.node id).children.toList = (a.node id).children.toList ++ more id) :
    b.Peopled := by
  intro id hgroup
  rw [isEmpty_eq, hchildren, List.isEmpty_eq_false_iff]
  rcases hkind id hgroup with hold | hnew
  · exact List.append_ne_nil_of_left_ne_nil (List.isEmpty_eq_false_iff.1 (isEmpty_eq ▸ h hold)) _
  · exact List.append_ne_nil_of_right_ne_nil _ hnew

theorem choice (h : b.Peopled) (g : Group) (isLazy : Bool) :
    ((b.addChoice g).linkChoice b.size (b.size + 1) (b.size + 2) isLazy).Peopled := by
  refine h.of_append (fun id hgroup ↦ ?_) fun id ↦ (node_choice g isLazy).2
  rw [(node_choice g isLazy).1] at hgroup
  split at hgroup
  · next hid =>
    rw [if_pos hid]
    cases isLazy <;> exact .inr (List.cons_ne_nil _ _)
  · exact .inl hgroup

theorem choiceAround (h : b.Peopled) (hx : x < b.size) (g : Group) (isLazy : Bool) :
    (((b.addChoice g).link (b.size + 1) x).linkChoice b.size (b.size + 1) (b.size + 2)
      isLazy).Peopled := by
  refine h.of_append (fun id hgroup ↦ ?_) fun id ↦ by
    rw [(node_choiceAround hx g isLazy).2, List.append_assoc]
  rw [(node_choiceAround hx g isLazy).1] at hgroup
  split at hgroup
  · next hid =>
    rw [if_pos hid]
    cases isLazy <;> exact .inr (List.append_ne_nil_of_right_ne_nil _ (List.cons_ne_nil _ _))
  · exact .inl hgroup

theorem lasting : Lasting Peopled where
  link _ h := h.link _ _
  copy hforest hx h := h.copy hforest hx
  choice isLazy h := h.choice {} isLazy
  choiceAround _ isLazy hx h := h.choiceAround hx _ isLazy

end Peopled

end Arena

/-! ## Patterns under construction -/

namespace TreeBuilder

variable {ok : CodePointSet → Prop} {b b' : TreeBuilder} {o : Options} {atom limit : Nat}
  {q : Quantifier}

theorem peopled_openAlternative {a : Arena} {group : Nat} (hlt : group < a.size)
    (h : ∀ id, id ≠ group → (a.node id).kind.isGroup = true → (a.node id).isEmpty = false) :
    (openAlternative a group).Peopled := by
  intro id hgroup
  rw [Arena.isEmpty_eq, children_openAlternative hlt, List.isEmpty_eq_false_iff]
  by_cases hid : id = group
  · rw [if_pos hid]
    exact List.append_ne_nil_of_right_ne_nil _ (List.cons_ne_nil _ _)
  · refine List.append_ne_nil_of_left_ne_nil (List.isEmpty_eq_false_iff.1 ?_) _
    rw [← Arena.isEmpty_eq]
    refine h id hid ?_
    have hsize : (a.add .sequence).size = a.size + 1 := Arena.size_add _
    rw [openAlternative_eq, Arena.kind_link (by omega) (by omega), Arena.node_add] at hgroup
    split at hgroup
    · cases hgroup
    · exact hgroup

theorem peopled_place (h : b.arena.Peopled) (hb : b.Sound ok) (hlt : atom < b.arena.size)
    (hloose : (b.arena.node atom).parent = none)
    (hterm : (b.arena.node atom).kind.isTerm = true) (hne : ∀ g ∈ b.groups, g.group ≠ atom)
    (hb' : b.place limit atom q = .ok b') : b'.arena.Peopled := by
  obtain ⟨arena, harena, rfl⟩ := exists_of_place_eq_ok hb'
  exact Arena.Peopled.lasting.place h hb.shaped ⟨hlt, hterm, fun _ ↦ hloose⟩
    (hb.fillable _ List.mem_cons_self) (hne _ List.mem_cons_self) harena

theorem peopled_endGroup (h : b.arena.Peopled) : (endGroup b.arena b.current).2.Peopled := by
  rw [endGroup_eq]
  split
  · exact (h.add rfl).link _ _
  · exact h

/-- **The step lemma of reading a pattern**, for the alternatives of groups. -/
theorem peopled_take (h : b.arena.Peopled) (hb : b.Sound ok) {e : Event}
    (hgood : ∀ atom q, e = .atom atom q → (atom.kind o.encoding).Plain ok)
    (hb' : b.take o e = .ok b') : b'.arena.Peopled := by
  cases e with
  | atom atom q =>
    have hgroup : (atom.kind o.encoding).isGroup = false := by cases atom <;> rfl
    obtain ⟨hadd, hne, hloose, hterm⟩ := hb.add (hgood atom q rfl) (by cases atom <;> rfl)
    exact peopled_place (h.add hgroup) hadd (by simp) hloose hterm hne hb'
  | openGroup kind =>
    rw [take_openGroup] at hb'
    cases hb'
    refine peopled_openAlternative (by simp) fun id hid hgroup ↦ ?_
    rw [Arena.node_add, if_neg hid] at hgroup ⊢
    exact h hgroup
  | bar =>
    rw [take_bar] at hb'
    cases hb'
    exact peopled_openAlternative (group_lt hb List.mem_cons_self) fun id _ hgroup ↦ h hgroup
  | closeGroup left q =>
    obtain ⟨around, outer, houter, hfault, hplace⟩ := of_take_closeGroup hb'
    obtain ⟨-, -, hlt, hloose, hterm, -⟩ := endGroup_spec hb hfault
    obtain ⟨hended, -, hne⟩ := hb.ended houter hfault
    exact peopled_place (peopled_endGroup h) hended hlt hloose hterm hne hplace
  | failure e => cases hb'

theorem peopled_start : start.arena.Peopled := by
  rw [start_eq]
  refine peopled_openAlternative (by simp) fun id hid hgroup ↦ ?_
  rw [Arena.node_of_size_le (Nat.one_le_iff_ne_zero.2 hid)] at hgroup
  cases hgroup

end TreeBuilder

/-! ## Finished patterns -/

namespace Arena.Framed

variable {ok : CodePointSet → Prop} {a b : Arena} {full : CodePointSet} {root lead : Nat}

theorem peopled (hf : Framed a full root lead b) (h : Ready ok a root) (hpeopled : a.Peopled) :
    b.Peopled := by
  intro x hgroup
  obtain ⟨g, hkind⟩ := NodeKind.isGroup_iff.1 hgroup
  rcases hf.kind_group h hkind with ⟨rfl, -⟩ | ⟨hlt, -⟩
  · rw [hf.top]
    rfl
  · rw [Node.isEmpty, hf.children x hlt]
    exact hpeopled ((NodeKind.isGroup_of_bare_eq (hf.bare x hlt)).symm.trans hgroup)

end Arena.Framed

/-- **The groups of a pattern have alternatives**, and its loops have both of theirs. -/
theorem Tree.peopled_of_ofPattern {o : Options} {pattern : Bytes} {t : Tree}
    (ht : Tree.ofPattern o pattern = .ok t) : t.arena.Peopled ∧ t.arena.Looped := by
  obtain ⟨b, hsound, ⟨hwhole, hpeopled⟩, rfl⟩ :=
    exists_sound_of_ofPattern (P := fun b ↦ b.Whole ∧ b.arena.Peopled)
      ⟨TreeBuilder.whole_start, TreeBuilder.peopled_start⟩
      (fun h hb _ hgood htake ↦ ⟨TreeBuilder.whole_take h.1 hb hgood htake,
        TreeBuilder.peopled_take h.2 hb hgood htake⟩) ht
  have hf := (hsound.ready.finishedFrom o.encoding b.captures).framed
  exact ⟨hf.peopled hsound.ready hpeopled, hf.looped hsound.ready hwhole.looped⟩

end PatternAutomata
