import PatternAutomata.Proofs.Tree.Growth
import PatternAutomata.Tree.Basic

/-!
# What finishing leaves alone

The passes over a complete tree note distances, captures and claims. They move no node, and save for
what captures and claims are about, no node becomes something else.
-/

namespace PatternAutomata

/-- What a node stands for, captures apart. -/
def NodeKind.core : NodeKind → NodeKind
  | .group g => .group { loop := g.loop }
  | k => k

namespace NodeKind

variable {k k' : NodeKind}

theorem core_eq_sequence (h : k.core = .sequence) : k = .sequence := by
  cases k <;> first | exact h | cases h

theorem core_eq_chars {set : CodePointSet} {claim : Option Nat} (h : k.core = .chars set claim) :
    k = .chars set claim := by
  cases k <;> first | exact h | cases h

/-- What a node stands for, captures and claims apart. -/
def bare : NodeKind → NodeKind
  | group g => group { loop := g.loop }
  | chars set _ => chars set none
  | k => k

theorem cases_of_bare_eq (h : k.bare = k'.bare) :
    k = k' ∨ (∃ g g', k = .group g ∧ k' = .group g' ∧ g.loop = g'.loop) ∨
      ∃ set c c', k = .chars set c ∧ k' = .chars set c' := by
  cases k <;> cases k' <;> simp_all [bare]

theorem bare_eq_of_core_eq (h : k.core = k'.core) : k.bare = k'.bare := by
  cases k <;> cases k' <;> simp_all [core, bare]

section Bare

variable (h : k.bare = k'.bare)
include h

theorem isGroup_of_bare_eq : k.isGroup = k'.isGroup := by
  rcases cases_of_bare_eq h with rfl | ⟨_, _, rfl, rfl, -⟩ | ⟨_, _, _, rfl, rfl⟩ <;> rfl

theorem isLookBehind_of_bare_eq : k.isLookBehind = k'.isLookBehind := by
  rcases cases_of_bare_eq h with rfl | ⟨_, _, rfl, rfl, -⟩ | ⟨_, _, _, rfl, rfl⟩ <;> rfl

theorem isChars_of_bare_eq : k.isChars = k'.isChars := by
  rcases cases_of_bare_eq h with rfl | ⟨_, _, rfl, rfl, -⟩ | ⟨_, _, _, rfl, rfl⟩ <;> rfl

theorem isTerm_of_bare_eq : k.isTerm = k'.isTerm := by
  rcases cases_of_bare_eq h with rfl | ⟨_, _, rfl, rfl, -⟩ | ⟨_, _, _, rfl, rfl⟩ <;> rfl

theorem eq_iff_of_bare_eq {l : NodeKind} (hgroup : l.isGroup = false) (hchars : l.isChars = false) :
    k = l ↔ k' = l := by
  rcases cases_of_bare_eq h with rfl | ⟨_, _, rfl, rfl, -⟩ | ⟨_, _, _, rfl, rfl⟩
  · exact Iff.rfl
  · constructor <;> (rintro rfl; cases hgroup)
  · constructor <;> (rintro rfl; cases hchars)

end Bare

theorem eq_or_isGroup_of_core_eq (h : k.core = k'.core) :
    k = k' ∨ ∃ g g', k = .group g ∧ k' = .group g' ∧ g.loop = g'.loop := by
  cases k <;> cases k' <;> simp_all [core]

theorem isLookBehind_of_core_eq (h : k.core = k'.core) : k.isLookBehind = k'.isLookBehind := by
  rcases eq_or_isGroup_of_core_eq h with rfl | ⟨g, g', rfl, rfl, -⟩ <;> rfl

theorem isGroup_of_core_eq (h : k.core = k'.core) : k.isGroup = k'.isGroup := by
  rcases eq_or_isGroup_of_core_eq h with rfl | ⟨g, g', rfl, rfl, -⟩ <;> rfl

theorem isChars_of_core_eq (h : k.core = k'.core) : k.isChars = k'.isChars := by
  rcases eq_or_isGroup_of_core_eq h with rfl | ⟨g, g', rfl, rfl, -⟩ <;> rfl

end NodeKind

namespace Arena

/-- All nodes are at the same places in both arenas, and they are the same but for captures and
distances. -/
structure Alike (a b : Arena) : Prop where
  size : b.size = a.size
  places : SamePlaces a b
  core : ∀ x, (b.node x).kind.core = (a.node x).kind.core

namespace Alike

variable {a b c : Arena}

theorem refl (a : Arena) : Alike a a := ⟨rfl, .refl a, fun _ ↦ rfl⟩

theorem trans (hab : Alike a b) (hbc : Alike b c) : Alike a c :=
  ⟨hbc.size.trans hab.size, hab.places.trans hbc.places, fun x ↦ (hbc.core x).trans (hab.core x)⟩

theorem modify (h : Alike a b) {id : Nat} {f : Node → Node}
    (hf : ∀ n, (f n).parent = n.parent ∧ (f n).index = n.index ∧ (f n).children = n.children)
    (hcore : ∀ n, (f n).kind.core = n.kind.core) : Alike a (b.modify id f) :=
  h.trans ⟨size_modify f, samePlaces_modify hf, fun _ ↦ modify_congr (fun n ↦ n.kind.core) hcore⟩

theorem foldl {α β : Type} {f : β → α → β} {g : β → Arena}
    (hf : ∀ s x, Alike a (g s) → Alike a (g (f s x))) (l : List α) {s : β} (h : Alike a (g s)) :
    Alike a (g (l.foldl f s)) := by
  induction l generalizing s with
  | nil => exact h
  | cons x l ih => exact ih (hf s x h)

end Alike

variable {a b : Arena}

theorem alike_makeRoot (root : Nat) : Alike a (a.makeRoot root) := by
  refine (Alike.refl a).modify (fun n ↦ ?_) fun n ↦ ?_
  · split <;> exact ⟨rfl, rfl, rfl⟩
  · split
    · next hkind => rw [hkind]; rfl
    · rfl

theorem Alike.setMinPath (h : Alike a b) (id minPath : Nat) : Alike a (b.setMinPath id minPath) :=
  h.modify (fun _ ↦ ⟨rfl, rfl, rfl⟩) fun _ ↦ rfl

theorem Alike.passMinPath (h : Alike a b) (lengths : Array Nat) (id : Nat) :
    Alike a (b.passMinPath lengths id) := by
  unfold Arena.passMinPath
  dsimp only
  split
  · rw [← Array.foldl_toList]
    exact Alike.foldl (g := Prod.fst) (fun s child hs ↦ hs.setMinPath _ _) _ h
  · rw [← Array.foldl_toList]
    exact Alike.foldl (g := fun x ↦ x) (fun s child hs ↦ hs.setMinPath _ _) _ h
  · exact h

theorem alike_setMinPaths (order : Array Nat) : Alike a (a.setMinPaths order) := by
  unfold setMinPaths
  rw [← Array.foldl_toList]
  exact Alike.foldl (g := fun x ↦ x) (fun s id hs ↦ hs.passMinPath _ id) _ (.refl a)

/-! Passing on distances leaves everything else about a node alone, captures as well. -/

theorem kind_setMinPath (id minPath x : Nat) :
    ((a.setMinPath id minPath).node x).kind = (a.node x).kind :=
  modify_congr Node.kind fun _ ↦ rfl

theorem kind_passMinPath (lengths : Array Nat) (id x : Nat) :
    ((a.passMinPath lengths id).node x).kind = (a.node x).kind := by
  unfold passMinPath
  dsimp only
  split
  · rw [← Array.foldl_toList]
    exact List.foldlRecOn
      (motive := fun s : Arena × Nat ↦ (s.1.node x).kind = (a.node x).kind) _ _ rfl
      fun s hs child _ ↦ (kind_setMinPath child _ x).trans hs
  · rw [← Array.foldl_toList]
    exact List.foldlRecOn (motive := fun b : Arena ↦ (b.node x).kind = (a.node x).kind) _ _ rfl
      fun b hb child _ ↦ (kind_setMinPath child _ x).trans hb
  · rfl

theorem kind_setMinPaths (order : Array Nat) (x : Nat) :
    ((a.setMinPaths order).node x).kind = (a.node x).kind := by
  unfold setMinPaths
  rw [← Array.foldl_toList]
  exact List.foldlRecOn (motive := fun b : Arena ↦ (b.node x).kind = (a.node x).kind) _ _ rfl
    fun b hb id _ ↦ (kind_passMinPath _ id x).trans hb

theorem fst_passCaptures_of_group {root id : Nat} {s : Arena × Array IndexSet} {g : Group}
    (hkind : (s.1.node id).kind = .group g) : (passCaptures root s id).1 =
      if g.loop.isSome then
        s.1.modify id ({ · with kind := .group { g with nested := s.2.getD id ∅ } })
      else s.1 := by
  obtain ⟨b, below⟩ := s
  unfold passCaptures
  simp only [hkind]
  cases (b.node id).parent with
  | none => rfl
  | some parent => exact (apply_ite Prod.fst ..).trans (ite_self _)

theorem fst_passCaptures_of_not_group {root id : Nat} {s : Arena × Array IndexSet}
    (hkind : (s.1.node id).kind.isGroup = false) : (passCaptures root s id).1 = s.1 := by
  obtain ⟨b, below⟩ := s
  unfold passCaptures
  cases hk : (b.node id).kind with
  | group g =>
    rw [hk] at hkind
    cases hkind
  | _ =>
    simp only [hk]
    cases (b.node id).parent with
    | none => rfl
    | some parent => exact (apply_ite Prod.fst ..).trans (ite_self _)

theorem fst_passCaptures (root : Nat) (s : Arena × Array IndexSet) (id : Nat) :
    (passCaptures root s id).1 = s.1 ∨ ∃ g, (s.1.node id).kind = .group g ∧
      (passCaptures root s id).1 =
        s.1.modify id ({ · with kind := .group { g with nested := s.2.getD id ∅ } }) := by
  cases hkind : (s.1.node id).kind with
  | group g =>
    rw [fst_passCaptures_of_group hkind]
    split
    · exact .inr ⟨g, rfl, rfl⟩
    · exact .inl rfl
  | _ => exact .inl (fst_passCaptures_of_not_group (by rw [hkind]; rfl))

theorem Alike.passCaptures {root : Nat} {s : Arena × Array IndexSet} (h : Alike a s.1) (id : Nat) :
    Alike a (Arena.passCaptures root s id).1 := by
  rcases fst_passCaptures root s id with heq | ⟨g, hkind, heq⟩
  · rw [heq]
    exact h
  · rw [heq]
    refine h.trans ⟨size_modify _, samePlaces_modify fun _ ↦ ⟨rfl, rfl, rfl⟩, fun x ↦ ?_⟩
    rcases node_modify_or s.1 id _ x with h | ⟨rfl, h⟩
    · rw [h]
    · rw [h, hkind]
      rfl

theorem alike_setNested (root : Nat) (order : Array Nat) : Alike a (a.setNested root order) := by
  unfold setNested
  rw [← Array.foldr_toList, List.foldr_eq_foldl_reverse]
  exact Alike.foldl (g := Prod.fst) (fun s id hs ↦ hs.passCaptures id) _ (.refl a)

end Arena

end PatternAutomata
