import Mathlib.Data.List.Forall2
import PatternAutomata.Proofs.Language.Matches

/-!
# Nodes that mirror each other

What a node matches depends on what is below it and on nothing else. So two nodes, of one arena or
of two, match the same stretches of a text if what is below them looks the same: nodes that
correspond to each other are of the same kind, and so do their children, in order.

A copy of a node mirrors it. A node mirrors itself in an arena that has grown somewhere else, which
is how what has been placed lasts while more is placed.
-/

namespace PatternAutomata

namespace Arena

variable {a b c : Arena} {R S : Nat → Nat → Prop} {x y z : Nat}

/-- A relation between the nodes of two arenas that related nodes cannot be told apart by: they are
of the same kind, and their children are related one by one. -/
structure Corresponds (a b : Arena) (R : Nat → Nat → Prop) : Prop where
  kind : ∀ {x y}, R x y → (b.node y).kind = (a.node x).kind
  children : ∀ {x y}, R x y →
    List.Forall₂ R (a.node x).children.toList (b.node y).children.toList

/-- What is below the one node looks like what is below the other. -/
def Mirrors (a : Arena) (x : Nat) (b : Arena) (y : Nat) : Prop := ∃ R, Corresponds a b R ∧ R x y

theorem forall₂_comp {xs ys zs : List Nat} (h : List.Forall₂ R xs ys) (h' : List.Forall₂ S ys zs) :
    List.Forall₂ (Relation.Comp R S) xs zs := by
  induction h generalizing zs with
  | nil =>
    cases h'
    exact .nil
  | cons hr _ ih =>
    cases h' with
    | cons hs h' => exact .cons ⟨_, hr, hs⟩ (ih h')

namespace Corresponds

theorem symm (h : Corresponds a b R) : Corresponds b a (flip R) where
  kind hr := (h.kind hr).symm
  children hr := (h.children hr).flip

theorem trans (h : Corresponds a b R) (h' : Corresponds b c S) :
    Corresponds a c (Relation.Comp R S) where
  kind := fun ⟨_, hr, hs⟩ ↦ (h'.kind hs).trans (h.kind hr)
  children := fun ⟨_, hr, hs⟩ ↦ forall₂_comp (h.children hr) (h'.children hs)

/-- Related nodes have related first children, or none, and then they stand for them themselves. -/
theorem first (h : Corresponds a b R) (hr : R x y) :
    R ((a.node x).children.getD 0 x) ((b.node y).children.getD 0 y) := by
  have key : ∀ {xs ys : List Nat}, List.Forall₂ R xs ys → R (xs[0]?.getD x) (ys[0]?.getD y)
    | _, _, .nil => hr
    | _, _, .cons hfirst _ => hfirst
  rw [Array.getD_eq_getD_getElem?, Array.getD_eq_getD_getElem?, ← Array.getElem?_toList,
    ← Array.getElem?_toList]
  exact key (h.children hr)

theorem exists_child (h : Corresponds a b R) (hr : R x y) (hz : z ∈ (a.node x).children) :
    ∃ z' ∈ (b.node y).children, R z z' := by
  obtain ⟨hlength, hget⟩ := List.forall₂_iff_get.1 (h.children hr)
  obtain ⟨i, hi, rfl⟩ := List.getElem_of_mem (Array.mem_toList_iff.2 hz)
  exact ⟨_, Array.mem_toList_iff.1 (List.getElem_mem (hlength ▸ hi)), hget i hi (hlength ▸ hi)⟩

theorem isEmpty_eq (h : Corresponds a b R) (hr : R x y) :
    (b.node y).isEmpty = (a.node x).isEmpty := by
  rw [Node.isEmpty, Node.isEmpty, ← Array.isEmpty_toList, ← Array.isEmpty_toList,
    Bool.eq_iff_iff, List.isEmpty_iff, List.isEmpty_iff, ← List.length_eq_zero_iff,
    ← List.length_eq_zero_iff, (h.children hr).length_eq]

end Corresponds

/-! ## Mirroring -/

theorem corresponds_mirrors : Corresponds a b fun x y ↦ a.Mirrors x b y where
  kind := fun ⟨_, h, hr⟩ ↦ h.kind hr
  children := fun ⟨R, h, hr⟩ ↦ (h.children hr).imp fun _ _ hr ↦ ⟨R, h, hr⟩

theorem Mirrors.trans (h : a.Mirrors x b y) (h' : b.Mirrors y c z) : a.Mirrors x c z := by
  obtain ⟨R, h, hr⟩ := h
  obtain ⟨S, h', hs⟩ := h'
  exact ⟨_, h.trans h', y, hr, hs⟩

theorem mirrors_self (hforest : a.Forest)
    (hsame : ∀ y, a.Below y x → (b.node y).kind = (a.node y).kind ∧
      (b.node y).children.toList = (a.node y).children.toList) : a.Mirrors x b x := by
  refine ⟨fun y z ↦ y = z ∧ a.Below y x, ⟨?_, ?_⟩, rfl, .refl⟩
  · rintro y _ ⟨rfl, hy⟩
    exact (hsame y hy).1
  · rintro y _ ⟨rfl, hy⟩
    rw [(hsame y hy).2]
    exact List.forall₂_same.2 fun z hz ↦
      ⟨rfl, .head (hforest.up_of_mem_toList hz) hy⟩

theorem mirrors_copy (hforest : a.Forest) (hx : x < a.size) : a.Mirrors x (a.copy x) a.size := by
  obtain ⟨visited, hcopy⟩ := exists_copy hforest hx
  refine ⟨fun y z ↦ y = a.original (x :: visited) z, ⟨?_, ?_⟩, ?_⟩
  · rintro _ z rfl
    exact hcopy.kind z
  · rintro _ z rfl
    rw [← hcopy.children z, List.filter_nil, List.map_nil, List.append_nil,
      List.forall₂_map_left_iff]
    exact List.forall₂_same.2 fun _ _ ↦ rfl
  · exact original_cons_size.symm

end Arena

/-! ## Matches -/

namespace Tree

variable {t t' : Tree} {w : List CodePoint} {anchored : Bool} {s e x y : Nat}
  {R : Nat → Nat → Prop} {xs ys : List Nat}

/-- Pieces of two trees correspond to each other. -/
inductive Piece.Corresponds (R : Nat → Nat → Prop) : Piece → Piece → Prop
  | node {x y : Nat} : R x y → Corresponds R (.node x) (.node y)
  | terms {xs ys : List Nat} : List.Forall₂ R xs ys → Corresponds R (.terms xs) (.terms ys)
  | rounds {x y : Nat} {isAgain : Bool} : R x y →
      Corresponds R (.rounds x isAgain) (.rounds y isAgain)

theorem reads_of_corresponds (h : t.arena.Corresponds t'.arena R) (hr : R x y) {c : CodePoint}
    (hreads : t.Reads x c) : t'.Reads y c := by
  obtain ⟨set, claim, hkind, hc⟩ := hreads
  exact ⟨set, claim, (h.kind hr).trans hkind, hc⟩

theorem precedes_of_corresponds (h : t.arena.Corresponds t'.arena R) (hr : R x y)
    (hprecedes : t.Precedes w s x) : t'.Precedes w s y := by
  have hbody : List.Forall₂ R (t.body x).toList (t'.body y).toList :=
    h.children (h.first (h.first hr))
  have hsize : (t'.body y).size = (t.body x).size := by
    simpa using hbody.length_eq.symm
  refine ⟨by rw [hsize]; exact hprecedes.size_le, fun {j y'} hy' ↦ ?_⟩
  obtain ⟨hj, rfl⟩ := Array.getElem?_eq_some_iff.1 hy'
  have hj' : j < (t.body x).size := hsize ▸ hj
  obtain ⟨c, hw, hreads⟩ := hprecedes.reads (Array.getElem?_eq_getElem hj')
  rw [hsize]
  exact ⟨c, hw, reads_of_corresponds h
    ((List.forall₂_iff_get.1 hbody).2 j (by simpa using hj') (by simpa using hj)) hreads⟩

/-- **A match of a piece is one of every piece that corresponds to it.** -/
theorem Matches.of_corresponds {piece piece' : Piece} (h : t.arena.Corresponds t'.arena R)
    (hm : t.Matches w anchored piece s e) (hpiece : piece.Corresponds R piece') :
    t'.Matches w anchored piece' s e := by
  -- along the match: what is matched next corresponds, as do the children of what corresponds
  induction hm generalizing piece' with
  | chars hreads hw =>
    obtain @⟨_, y, hr⟩ := hpiece
    exact .chars (reads_of_corresponds h hr hreads) hw
  | caret hkind hanchored =>
    obtain @⟨_, y, hr⟩ := hpiece
    exact .caret ((h.kind hr).trans hkind) hanchored
  | dollar hkind =>
    obtain @⟨_, y, hr⟩ := hpiece
    exact .dollar ((h.kind hr).trans hkind)
  | lookBehind hkind hprecedes =>
    obtain @⟨_, y, hr⟩ := hpiece
    exact .lookBehind ((h.kind hr).trans hkind) (precedes_of_corresponds h hr hprecedes)
  | sequence hkind _ ih =>
    obtain @⟨_, y, hr⟩ := hpiece
    exact .sequence ((h.kind hr).trans hkind) (ih (.terms (h.children hr)))
  | nil =>
    cases hpiece with
    | terms hall =>
      cases hall
      exact .nil
  | cons _ _ ih ihs =>
    cases hpiece with
    | terms hall =>
      cases hall with
      | cons hr hall => exact .cons (ih (.node hr)) (ihs (.terms hall))
  | choice hkind hloop hc _ ih =>
    obtain @⟨_, y, hr⟩ := hpiece
    obtain ⟨c', hc', hr'⟩ := h.exists_child hr hc
    exact .choice ((h.kind hr).trans hkind) hloop hc' (ih (.node hr'))
  | loop hkind hloop _ ih =>
    obtain @⟨_, y, hr⟩ := hpiece
    exact .loop ((h.kind hr).trans hkind) hloop (ih (.rounds hr))
  | exit hkind hplus hc hempty _ ih =>
    cases hpiece with
    | rounds hr =>
      obtain ⟨c', hc', hr'⟩ := h.exists_child hr hc
      exact .exit ((h.kind hr).trans hkind) hplus hc' ((h.isEmpty_eq hr').trans hempty)
        (ih (.node hr'))
  | round hkind hloop hc hempty _ _ ih ihs =>
    cases hpiece with
    | rounds hr =>
      obtain ⟨c', hc', hr'⟩ := h.exists_child hr hc
      exact .round ((h.kind hr).trans hkind) hloop hc' ((h.isEmpty_eq hr').trans hempty)
        (ih (.node hr')) (ihs (.rounds hr))

theorem matches_iff_of_mirrors (h : t.arena.Mirrors x t'.arena y) :
    t'.Matches w anchored (.node y) s e ↔ t.Matches w anchored (.node x) s e := by
  obtain ⟨R, h, hr⟩ := h
  exact ⟨fun hm ↦ hm.of_corresponds h.symm (.node hr), fun hm ↦ hm.of_corresponds h (.node hr)⟩

theorem matches_terms_iff_of_mirrors
    (h : List.Forall₂ (fun x y ↦ t.arena.Mirrors x t'.arena y) xs ys) :
    t'.Matches w anchored (.terms ys) s e ↔ t.Matches w anchored (.terms xs) s e :=
  ⟨fun hm ↦ hm.of_corresponds Arena.corresponds_mirrors.symm (.terms h.flip),
    fun hm ↦ hm.of_corresponds Arena.corresponds_mirrors (.terms h)⟩

end Tree

end PatternAutomata
