import PatternAutomata.Proofs.Tree.Forest

/-!
# How forests grow

An arena stays a forest when a node is made, when a node without a place is placed somewhere outside
of its own tree, and when nodes are changed without touching their places.
-/

namespace PatternAutomata

namespace Arena

variable {a b : Arena}

/-! ## Changes that leave all places alone -/

/-- All nodes have the same places and children in both arenas. -/
def SamePlaces (a b : Arena) : Prop :=
  ∀ id, (b.node id).parent = (a.node id).parent ∧ (b.node id).index = (a.node id).index ∧
    (b.node id).children = (a.node id).children

namespace SamePlaces

theorem refl (a : Arena) : SamePlaces a a := fun _ ↦ ⟨rfl, rfl, rfl⟩

theorem trans {c : Arena} (hab : SamePlaces a b) (hbc : SamePlaces b c) : SamePlaces a c :=
  fun id ↦ ⟨(hbc id).1.trans (hab id).1, (hbc id).2.1.trans (hab id).2.1,
    (hbc id).2.2.trans (hab id).2.2⟩

theorem parent (h : SamePlaces a b) (id : Nat) : (b.node id).parent = (a.node id).parent := (h id).1

theorem index (h : SamePlaces a b) (id : Nat) : (b.node id).index = (a.node id).index := (h id).2.1

theorem children (h : SamePlaces a b) (id : Nat) : (b.node id).children = (a.node id).children :=
  (h id).2.2

theorem up_iff (h : SamePlaces a b) {c p : Nat} : b.Up c p ↔ a.Up c p := by
  rw [Up, Up, h.parent]

theorem below_iff (h : SamePlaces a b) {c p : Nat} : b.Below c p ↔ a.Below c p := by
  have hup : b.Up = a.Up := funext fun _ ↦ funext fun _ ↦ propext h.up_iff
  rw [Below, Below, hup]

theorem forest (h : SamePlaces a b) (ha : a.Forest) : b.Forest where
  child hc := by
    rw [h.children] at hc
    rw [h.parent, h.index]
    exact ha.child hc
  parent hup := by
    rw [h.children, h.index]
    exact ha.parent (h.up_iff.1 hup)
  grounded id := by
    have hup : b.Up = a.Up := funext fun _ ↦ funext fun _ ↦ propext h.up_iff
    rw [hup]
    exact ha.grounded id

end SamePlaces

theorem samePlaces_modify {id : Nat} {f : Node → Node}
    (hf : ∀ n, (f n).parent = n.parent ∧ (f n).index = n.index ∧ (f n).children = n.children) :
    SamePlaces a (a.modify id f) := by
  intro x
  rcases node_modify_or a id f x with h | ⟨-, h⟩
  · rw [h]
    exact ⟨rfl, rfl, rfl⟩
  · rw [h]
    exact hf _

/-- A new node without a place does not show: it has the place of a node that is not there. -/
theorem samePlaces_push {n : Node} (hparent : n.parent = none) (hindex : n.index = 0)
    (hchildren : n.children = #[]) : SamePlaces a ⟨a.nodes.push n⟩ := by
  intro x
  rw [node_push]
  by_cases hx : x = a.size
  · rw [if_pos hx, node_of_size_le (Nat.le_of_eq hx.symm)]
    exact ⟨hparent, hindex, hchildren⟩
  · rw [if_neg hx]
    exact ⟨rfl, rfl, rfl⟩

theorem samePlaces_add (kind : NodeKind) : SamePlaces a (a.add kind) := samePlaces_push rfl rfl rfl

/-! ## Placing a node -/

section Link

variable {p c : Nat}

theorem up_link (hp : p < a.size) (hc : c < a.size) (hloose : (a.node c).parent = none)
    {x y : Nat} : (a.link p c).Up x y ↔ a.Up x y ∨ x = c ∧ y = p := by
  rw [Up, node_link hp hc]
  by_cases hx : x = c
  · subst hx
    simp [Up, hloose, eq_comm]
  · simp [Up, hx]

theorem below_link (hp : p < a.size) (hc : c < a.size) (hloose : (a.node c).parent = none)
    {x y : Nat} : (a.link p c).Below x y ↔ a.Below x y ∨ a.Below x c ∧ a.Below p y := by
  have hmono : ∀ {x y}, a.Below x y → (a.link p c).Below x y := fun h ↦
    Relation.ReflTransGen.mono (fun _ _ hup ↦ (up_link hp hc hloose).2 (.inl hup)) _ _ h
  constructor
  · intro h
    induction h with
    | refl => exact .inl .refl
    | tail _ hup ih =>
      rcases (up_link hp hc hloose).1 hup with hup | ⟨rfl, rfl⟩
      · rcases ih with hx | ⟨hxc, hpx⟩
        · exact .inl (hx.tail hup)
        · exact .inr ⟨hxc, hpx.tail hup⟩
      · rcases ih with hx | ⟨hxc, hpx⟩
        · exact .inr ⟨hx, .refl⟩
        · exact .inr ⟨hxc, .refl⟩
  · rintro (h | ⟨hxc, hpy⟩)
    · exact hmono h
    · exact (hmono hxc).trans (.head ((up_link hp hc hloose).2 (.inr ⟨rfl, rfl⟩)) (hmono hpy))

theorem Forest.link (h : a.Forest) (hp : p < a.size) (hc : c < a.size)
    (hloose : (a.node c).parent = none) (houtside : ¬a.Below p c) : (a.link p c).Forest where
  child {q i x} hx := by
    rw [node_link hp hc] at hx ⊢
    by_cases hq : q = p
    · subst hq
      simp only [if_true, Array.getElem?_push] at hx
      by_cases hi : i = (a.node q).children.size
      · rw [if_pos hi] at hx
        cases hx
        simp [hi]
      · rw [if_neg hi] at hx
        have hxc : x ≠ c := by
          rintro rfl
          rw [(h.child hx).1] at hloose
          cases hloose
        simpa [hxc] using h.child hx
    · simp only [if_neg hq] at hx
      have hxc : x ≠ c := by
        rintro rfl
        rw [(h.child hx).1] at hloose
        cases hloose
      simpa [hxc] using h.child hx
  parent {x q} hup := by
    rw [node_link hp hc, node_link hp hc]
    rcases (up_link hp hc hloose).1 hup with hold | ⟨rfl, rfl⟩
    · have hxc : x ≠ c := by
        rintro rfl
        rw [Up, hloose] at hold
        cases hold
      have hx := h.parent hold
      by_cases hq : q = p
      · subst hq
        simp only [if_true, if_neg hxc]
        rw [Array.getElem?_push_lt (h.index_lt hold), ← hx]
        exact (Array.getElem?_eq_getElem (h.index_lt hold)).symm
      · simpa [hq, hxc] using hx
    · simp
  grounded := by
    -- first the nodes outside the tree that is placed, whose way up has not changed
    have hout : ∀ id, ¬a.Below id c → Acc (fun p' c' ↦ (a.link p c).Up c' p') id := by
      intro id
      induction h.grounded id with
      | intro id _ ih =>
        intro hid
        refine .intro id fun q hq ↦ ?_
        rcases (up_link hp hc hloose).1 hq with hq | ⟨rfl, rfl⟩
        · exact ih q hq fun hqc ↦ hid (.head hq hqc)
        · exact absurd .refl hid
    intro id
    induction h.grounded id with
    | intro id _ ih =>
      refine .intro id fun q hq ↦ ?_
      rcases (up_link hp hc hloose).1 hq with hq | ⟨rfl, rfl⟩
      · exact ih q hq
      · exact hout q houtside

end Link

section AddLookBehind

variable {body : Nat}

theorem up_addLookBehind (hbody : body < a.size) (hloose : (a.node body).parent = none)
    {x y : Nat} : (a.addLookBehind body).Up x y ↔ a.Up x y ∨ x = body ∧ y = a.size := by
  have hsame : SamePlaces a (a.add (.lookBehind (a.bodyTerms body).size)) := samePlaces_add _
  rw [addLookBehind_eq, up_link (by simp) (by simp; omega) (hsame.parent _ ▸ hloose), hsame.up_iff]

theorem Forest.addLookBehind (h : a.Forest) (hbody : body < a.size)
    (hloose : (a.node body).parent = none) : (a.addLookBehind body).Forest := by
  have hsame : SamePlaces a (a.add (.lookBehind (a.bodyTerms body).size)) := samePlaces_add _
  refine (hsame.forest h).link (by simp) (by simp; omega) (hsame.parent _ ▸ hloose) fun hbelow ↦ ?_
  exact Nat.ne_of_lt hbody ((hsame.below_iff.1 hbelow).eq_of_loose (parent_size a))

end AddLookBehind

end Arena

end PatternAutomata
