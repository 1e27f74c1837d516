import Mathlib.Tactic.Common
import PatternAutomata.Tree.Arena

/-!
# What the calls on arenas do to single nodes

Each call on an arena is described by the nodes of its result, one equation a call. Everything that
is proved about arenas goes through these equations.
-/

namespace PatternAutomata

namespace Arena

variable {a : Arena} {id x : Nat}

theorem node_of_size_le (h : a.size ≤ id) : a.node id = default := by
  rw [node, Array.getD_eq_getD_getElem?, Array.getElem?_eq_none h, Option.getD_none]

theorem parent_size (a : Arena) : (a.node a.size).parent = none := by
  rw [node_of_size_le (Nat.le_refl _)]
  rfl

theorem node_eq_getElem (h : id < a.nodes.size) : a.node id = a.nodes[id] := by
  rw [node, Array.getD_eq_getD_getElem?, Array.getElem?_eq_getElem h, Option.getD_some]

theorem lt_size_of_node_ne (h : a.node id ≠ default) : id < a.size := by
  by_contra hge
  exact h (node_of_size_le (Nat.not_lt.1 hge))

theorem lt_size_of_parent {p : Nat} (h : (a.node id).parent = some p) : id < a.size := by
  refine lt_size_of_node_ne fun hd ↦ ?_
  rw [hd] at h
  cases h

theorem lt_size_of_child {i c : Nat} (h : (a.node id).children[i]? = some c) : id < a.size := by
  refine lt_size_of_node_ne fun hd ↦ ?_
  rw [hd] at h
  cases h

theorem ext_node {a b : Arena} (hsize : a.size = b.size)
    (h : ∀ id, id < a.size → a.node id = b.node id) : a = b := by
  obtain ⟨as⟩ := a
  obtain ⟨bs⟩ := b
  congr 1
  refine Array.ext hsize fun i hi hi' ↦ ?_
  rw [← node_eq_getElem (a := ⟨as⟩) hi, h i hi, node_eq_getElem (a := ⟨bs⟩) hi']

/-! ## Changing a node -/

@[simp] theorem size_modify (f : Node → Node) : (a.modify id f).size = a.size :=
  Array.size_modify

theorem node_modify (f : Node → Node) (hid : id < a.size) :
    (a.modify id f).node x = if x = id then f (a.node x) else a.node x := by
  by_cases hx : x < a.size
  · have hx' : x < (a.modify id f).size := by simpa using hx
    rw [node_eq_getElem hx', node_eq_getElem hx]
    simp only [modify, Array.getElem_modify]
    split <;> split <;> first | rfl | omega
  · have hne : x ≠ id := by omega
    rw [if_neg hne, node_of_size_le (by simpa using hx), node_of_size_le (by simpa using hx)]

theorem node_modify_of_ne (f : Node → Node) (hne : x ≠ id) : (a.modify id f).node x = a.node x := by
  by_cases hid : id < a.size
  · rw [node_modify f hid, if_neg hne]
  · by_cases hx : x < a.size
    · have hx' : x < (a.modify id f).size := by simpa using hx
      rw [node_eq_getElem hx', node_eq_getElem hx]
      exact Array.getElem_modify_of_ne hne.symm f (by simpa [size] using hx)
    · rw [node_of_size_le (by simpa using hx), node_of_size_le (by simpa using hx)]

theorem node_modify_of_size_le (f : Node → Node) (hid : a.size ≤ id) :
    (a.modify id f).node x = a.node x := by
  by_cases hx : x = id
  · rw [node_of_size_le (by rw [size_modify, hx]; exact hid), node_of_size_le (hx ▸ hid)]
  · exact node_modify_of_ne f hx

theorem node_modify_or (a : Arena) (id : Nat) (f : Node → Node) (x : Nat) :
    (a.modify id f).node x = a.node x ∨ x = id ∧ (a.modify id f).node x = f (a.node x) := by
  by_cases hx : x = id
  · by_cases hid : id < a.size
    · exact .inr ⟨hx, by rw [node_modify f hid, if_pos hx]⟩
    · exact .inl (node_modify_of_size_le f (Nat.not_lt.1 hid))
  · exact .inl (node_modify_of_ne f hx)

theorem modify_congr {α : Type} (g : Node → α) {f : Node → Node} (hf : ∀ n, g (f n) = g n) :
    g ((a.modify id f).node x) = g (a.node x) := by
  rcases node_modify_or a id f x with h | ⟨-, h⟩
  · rw [h]
  · rw [h, hf]

/-! ## Adding a node -/

@[simp] theorem size_push (n : Node) : Arena.size ⟨a.nodes.push n⟩ = a.size + 1 :=
  Array.size_push n

theorem node_push (n : Node) :
    Arena.node ⟨a.nodes.push n⟩ x = if x = a.size then n else a.node x := by
  have hlt : ∀ {x : Nat}, x ≤ a.size → x < Arena.size ⟨a.nodes.push n⟩ := fun hx ↦ by
    rw [size_push]
    omega
  by_cases hx : x < a.size
  · rw [node_eq_getElem (hlt (Nat.le_of_lt hx)), node_eq_getElem hx, if_neg (by omega)]
    exact Array.getElem_push_lt hx
  · by_cases hxs : x = a.size
    · subst hxs
      rw [if_pos rfl, node_eq_getElem (hlt (Nat.le_refl _))]
      exact Array.getElem_push_eq
    · rw [if_neg hxs, node_of_size_le (by simp; omega), node_of_size_le (by omega)]

@[simp] theorem size_add (kind : NodeKind) : (a.add kind).size = a.size + 1 := size_push _

theorem node_add (kind : NodeKind) :
    (a.add kind).node x = if x = a.size then { kind } else a.node x := node_push _

/-! ## Placing a node -/

@[simp] theorem size_link (p c : Nat) : (a.link p c).size = a.size := by simp [link]

theorem node_link {p c : Nat} (hp : p < a.size) (hc : c < a.size) :
    (a.link p c).node x =
      { a.node x with
        parent := if x = c then some p else (a.node x).parent
        index := if x = c then (a.node p).children.size else (a.node x).index
        children := if x = p then (a.node x).children.push c else (a.node x).children } := by
  rw [link, node_modify _ (by simpa using hp), node_modify _ hc]
  by_cases hxp : x = p
  · subst hxp
    rw [if_pos rfl, if_pos rfl]
    by_cases hxc : x = c
    · simp only [if_pos hxc]
    · simp only [if_neg hxc]
  · rw [if_neg hxp, if_neg hxp]
    by_cases hxc : x = c
    · simp only [if_pos hxc]
    · simp only [if_neg hxc]

/-- Placing changes no kind, whether or not the nodes are there. -/
theorem kind_link_eq (a : Arena) (p c x : Nat) : ((a.link p c).node x).kind = (a.node x).kind := by
  refine (modify_congr Node.kind ?_).trans (modify_congr Node.kind ?_) <;> exact fun _ ↦ rfl

@[simp] theorem kind_link {p c : Nat} (hp : p < a.size) (hc : c < a.size) :
    ((a.link p c).node x).kind = (a.node x).kind := by
  rw [node_link hp hc]

/-! ## Making a look-behind assertion -/

@[simp] theorem size_addLookBehind (body : Nat) : (a.addLookBehind body).size = a.size + 1 := by
  simp [addLookBehind_eq]

theorem node_addLookBehind {body : Nat} (hbody : body < a.size) :
    (a.addLookBehind body).node x =
      if x = a.size then { kind := .lookBehind (a.bodyTerms body).size, children := #[body] }
      else if x = body then { a.node body with parent := some a.size, index := 0 }
      else a.node x := by
  have hne : body ≠ a.size := Nat.ne_of_lt hbody
  rw [addLookBehind_eq, node_link (by simp) (by simp; omega), node_add, node_add]
  by_cases hx : x = a.size
  · subst hx
    simp [hne.symm]
  · by_cases hxb : x = body
    · subst hxb
      simp [hne]
    · simp [hx, hxb]

theorem kind_addLookBehind (body : Nat) :
    ((a.addLookBehind body).node x).kind =
      if x = a.size then .lookBehind (a.bodyTerms body).size else (a.node x).kind := by
  rw [addLookBehind_eq, kind_link_eq, node_add]
  split <;> rfl

theorem children_addLookBehind {body : Nat} (hbody : body < a.size) :
    ((a.addLookBehind body).node x).children =
      if x = a.size then #[body] else (a.node x).children := by
  rw [node_addLookBehind hbody]
  split
  · rfl
  · split
    · next hx => rw [hx]
    · rfl

theorem getD_zero_of_toList {l : Array Nat} {y d : Nat} (hl : l.toList = [y]) : l.getD 0 d = y := by
  rw [Array.getD_eq_getD_getElem?, ← Array.getElem?_toList, hl]
  rfl

end Arena

end PatternAutomata
