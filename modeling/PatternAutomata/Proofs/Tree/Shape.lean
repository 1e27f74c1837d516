import PatternAutomata.Proofs.Tree.Copy

/-!
# The shape of an arena under construction

Groups hold sequences, sequences hold terms, and a look-behind assertion holds one group, whose one
sequence has as many classes as the assertion says. The last of these is settled when the assertion
is made, so nothing may be placed below an assertion later on. A place that is not below one is
*open*.
-/

namespace PatternAutomata

namespace NodeKind

/-- What a node may hold. -/
def Takes : NodeKind → NodeKind → Prop
  | group _, k => k = .sequence
  | sequence, k => k.isTerm = true
  | lookBehind _, k => k.isGroup = true
  | _, _ => False

/-- What a node is that is made on its own. -/
def Plain (ok : CodePointSet → Prop) : NodeKind → Prop
  | group _ | sequence | caret | dollar => True
  | chars set claim => claim = none ∧ ok set
  | lookBehind _ | matchFound | marker _ _ => False

variable {k : NodeKind}

theorem isGroup_iff : k.isGroup = true ↔ ∃ g, k = .group g := by
  cases k <;> simp [isGroup, group?]

theorem isSequence_iff : k.isSequence = true ↔ k = .sequence := by
  cases k <;> simp [isSequence]

theorem isChars_iff : k.isChars = true ↔ ∃ set lookBehind, k = .chars set lookBehind := by
  cases k <;> simp [isChars, chars?]

theorem isLookBehind_iff : k.isLookBehind = true ↔ ∃ length, k = .lookBehind length := by
  cases k <;> simp [isLookBehind]

theorem isTerm_of_isGroup (h : k.isGroup = true) : k.isTerm = true := by
  obtain ⟨g, rfl⟩ := isGroup_iff.1 h
  rfl

end NodeKind

namespace Arena

variable {a b c : Arena} {top id atom x : Nat}

/-! ## Open places -/

/-- A node of the tree whose root `top` has no place, outside of all look-behind assertions. -/
structure Open (a : Arena) (top id : Nat) : Prop where
  /-- The node is in the arena. -/
  lt : id < a.size
  /-- The node stands below the root. -/
  below : a.Below id top
  /-- The root has no place. -/
  loose : (a.node top).parent = none
  /-- No look-behind assertion is above the node. -/
  clear : ∀ x, a.Below id x → (a.node x).kind.isLookBehind = false

namespace Open

theorem top_lt (h : a.Open top id) (hforest : a.Forest) : top < a.size :=
  hforest.lt_of_below h.below h.lt

theorem not_below (h : a.Open top id) (hloose : (a.node x).parent = none) (hne : top ≠ x) :
    ¬a.Below id x :=
  fun hx ↦ hne ((h.below.below_of_loose hx hloose).eq_of_loose h.loose).symm

theorem self (hid : id < a.size) (hloose : (a.node id).parent = none)
    (hkind : (a.node id).kind.isLookBehind = false) : a.Open id id where
  lt := hid
  below := .refl
  loose := hloose
  clear x hx := by rwa [hx.eq_of_loose hloose]

end Open

/-! ## Growth -/

/-- `b` is `a` with more nodes, and with places for some of them and for `atom`. -/
structure Grows (atom : Nat) (a b : Arena) : Prop where
  /-- No nodes are taken away. -/
  size_le : a.size ≤ b.size
  /-- Nodes stay what they are. -/
  kind : ∀ x < a.size, (b.node x).kind = (a.node x).kind
  /-- All but one stay where they are. -/
  parent : ∀ x < a.size, x ≠ atom → (b.node x).parent = (a.node x).parent

namespace Grows

theorem refl (a : Arena) : Grows atom a a := ⟨Nat.le_refl _, fun _ _ ↦ rfl, fun _ _ _ ↦ rfl⟩

theorem trans (hab : Grows atom a b) (hbc : Grows atom b c) : Grows atom a c where
  size_le := Nat.le_trans hab.size_le hbc.size_le
  kind x hx := by rw [hbc.kind x (Nat.lt_of_lt_of_le hx hab.size_le), hab.kind x hx]
  parent x hx hne := by
    rw [hbc.parent x (Nat.lt_of_lt_of_le hx hab.size_le) hne, hab.parent x hx hne]

theorem add (kind : NodeKind) : Grows atom a (a.add kind) where
  size_le := by simp
  kind x hx := by rw [node_add, if_neg (Nat.ne_of_lt hx)]
  parent x hx _ := by rw [node_add, if_neg (Nat.ne_of_lt hx)]

theorem link (h : Grows atom a b) {p x : Nat} (hp : p < b.size) (hx : x < b.size)
    (hnew : x = atom ∨ a.size ≤ x) : Grows atom a (b.link p x) where
  size_le := by rw [size_link]; exact h.size_le
  kind y hy := by rw [kind_link hp hx, h.kind y hy]
  parent y hy hne := by
    have hyx : y ≠ x := by omega
    rw [node_link hp hx, if_neg hyx, h.parent y hy hne]

theorem copy (h : a.Forest) (hid : id < a.size) : Grows atom a (a.copy id) := by
  obtain ⟨visited, hcopy⟩ := exists_copy h hid
  exact ⟨hcopy.size ▸ Nat.le_add_right _ _, fun x hx ↦ by rw [hcopy.old x hx],
    fun x hx _ ↦ by rw [hcopy.old x hx]⟩

end Grows

theorem Grows.below_iff {y : Nat} (h : Grows atom a b) (hforest : a.Forest) (hx : x < a.size)
    (hapart : ¬a.Below x atom) : b.Below x y ↔ a.Below x y := by
  have hup : ∀ {z v}, a.Below x z → (b.Up z v ↔ a.Up z v) := by
    intro z v hz
    have hne : z ≠ atom := by
      rintro rfl
      exact hapart hz
    rw [Up, Up, h.parent z (hforest.lt_of_below hz hx) hne]
  constructor
  · intro hb
    induction hb with
    | refl => exact .refl
    | tail _ hzv ih => exact ih.tail ((hup ih).1 hzv)
  · intro ha
    induction ha with
    | refl => exact .refl
    | tail hxz hzv ih => exact ih.tail ((hup hxz).2 hzv)

theorem Open.grows (h : a.Open top id) (hforest : a.Forest)
    (hloose : (a.node atom).parent = none) (hne : top ≠ atom) (hgrows : Grows atom a b) :
    b.Open top id := by
  have hbelow : ∀ {x}, b.Below id x ↔ a.Below id x :=
    hgrows.below_iff hforest h.lt (h.not_below hloose hne)
  refine ⟨Nat.lt_of_lt_of_le h.lt hgrows.size_le, hbelow.2 h.below, ?_, fun x hx ↦ ?_⟩
  · rw [hgrows.parent top (h.top_lt hforest) hne, h.loose]
  · rw [hgrows.kind x (hforest.lt_of_below (hbelow.1 hx) h.lt)]
    exact h.clear x (hbelow.1 hx)

theorem Open.link {p y : Nat} (h : a.Open top p) (hx : x < a.size)
    (hy : a.Open x y) (hne : top ≠ x) : (a.link p x).Open top y := by
  have hbelow : ∀ {u v}, (a.link p x).Below u v ↔ a.Below u v ∨ a.Below u x ∧ a.Below p v :=
    below_link h.lt hx hy.loose
  refine ⟨by simpa using hy.lt, hbelow.2 (.inr ⟨hy.below, h.below⟩), ?_, fun v hv ↦ ?_⟩
  · rw [node_link h.lt hx, if_neg hne, h.loose]
  · rw [kind_link h.lt hx]
    rcases hbelow.1 hv with hv | ⟨-, hv⟩
    · exact hy.clear v hv
    · exact h.clear v hv

/-! ## Shape -/

/-- All nodes are taken to be at the start of the pattern. -/
def Unmeasured (a : Arena) : Prop := ∀ id, (a.node id).minPath = 0

namespace Unmeasured

theorem push (h : a.Unmeasured) {n : Node} (hn : n.minPath = 0) :
    Unmeasured ⟨a.nodes.push n⟩ := by
  intro x
  rw [node_push]
  split
  · exact hn
  · exact h x

theorem modify (h : a.Unmeasured) {f : Node → Node} (hf : ∀ n, (f n).minPath = n.minPath) :
    (a.modify id f).Unmeasured := fun x ↦ (modify_congr Node.minPath hf).trans (h x)

theorem add (h : a.Unmeasured) (k : NodeKind) : (a.add k).Unmeasured := h.push rfl

theorem link (h : a.Unmeasured) (p c : Nat) : (a.link p c).Unmeasured := by
  rw [Arena.link]
  refine modify (modify h ?_) ?_ <;> exact fun _ ↦ rfl

theorem copyAll (fuel : Nat) (pending : List (Nat × Option Nat)) (h : a.Unmeasured) :
    (copyAll fuel pending a).Unmeasured := by
  induction fuel generalizing a pending with
  | zero => exact h
  | succ fuel ih =>
    rcases pending with - | ⟨⟨id, into⟩, pending⟩
    · exact h
    · have hpush := h.push (n := { a.node id with parent := none, index := 0, children := #[] })
        (h id)
      rcases into with - | parent
      · exact ih ((a.node id).children.toList.map (·, some a.size) ++ pending) hpush
      · exact ih ((a.node id).children.toList.map (·, some a.size) ++ pending) (hpush.link _ _)

theorem copy (h : a.Unmeasured) (id : Nat) : (a.copy id).Unmeasured := copyAll _ _ h

end Unmeasured

/-- A group with one sequence of so many classes, as an assertion has it for a body. -/
def IsBody (a : Arena) (group length : Nat) : Prop :=
  ∃ sequence, (a.node group).children.toList = [sequence] ∧
    (a.node sequence).children.toList.length = length ∧
    ∀ c ∈ (a.node sequence).children.toList, (a.node c).kind.isChars = true

namespace IsBody

variable {group length : Nat}

theorem keep (h : a.IsBody group length) (hforest : a.Forest)
    (hkind : ∀ y < a.size, a.Below y group → (b.node y).kind = (a.node y).kind)
    (hchildren : ∀ y < a.size, a.Below y group → (b.node y).children = (a.node y).children) :
    b.IsBody group length := by
  obtain ⟨s, hs, hlength, hchars⟩ := h
  have hup : a.Up s group := hforest.up_of_mem_toList (hs ▸ List.mem_singleton_self s)
  have hkept := hchildren s (lt_size_of_parent hup) (.single hup)
  refine ⟨s, ?_, ?_, fun c hc ↦ ?_⟩
  · rw [hchildren group (hforest.parent_lt hup) .refl, hs]
  · rw [hkept, hlength]
  · rw [hkept] at hc
    have hcs := hforest.up_of_mem_toList hc
    rw [hkind c (lt_size_of_parent hcs) (.head hcs (.single hup))]
    exact hchars c hc

theorem of_bodyTerms (hone : (a.node group).children.size = 1)
    (hchars : ∀ c ∈ a.bodyTerms group, (a.node c).kind.isChars = true) :
    a.IsBody group (a.bodyTerms group).size := by
  obtain ⟨s, hs⟩ := List.length_eq_one_iff.1 ((Array.length_toList).trans hone)
  have hterms : a.bodyTerms group = (a.node s).children := by
    rw [bodyTerms, getD_zero_of_toList hs]
  refine ⟨s, hs, ?_, fun c hc ↦ hchars c ?_⟩
  · rw [Array.length_toList, ← hterms]
  · rw [hterms]
    exact Array.mem_toList_iff.1 hc

end IsBody

/-- Everything is of the right kind for its place, and look-behind assertions know the lengths of
their bodies. -/
structure Shaped (ok : CodePointSet → Prop) (a : Arena) : Prop where
  /-- The nodes make up a forest. -/
  forest : a.Forest
  /-- Children are of a kind that their parents take. -/
  takes : ∀ {c p : Nat}, a.Up c p → (a.node p).kind.Takes (a.node c).kind
  /-- The body of an assertion is one sequence of classes. -/
  body : ∀ {id length : Nat}, (a.node id).kind = .lookBehind length →
    ∃ group sequence, (a.node id).children.toList = [group] ∧
      (a.node group).children.toList = [sequence] ∧
      (a.node sequence).children.toList.length = length ∧
      ∀ c ∈ (a.node sequence).children.toList, (a.node c).kind.isChars = true
  /-- There are only sequences and terms of sequences. -/
  kinds : ∀ id, (a.node id).kind.isTerm = true ∨ (a.node id).kind = .sequence
  /-- Classes have good sets and are not claimed by assertions. -/
  chars : ∀ {id : Nat} {set : CodePointSet} {lookBehind : Option Nat},
    (a.node id).kind = .chars set lookBehind → lookBehind = none ∧ ok set
  /-- No distances have been worked out yet. -/
  unmeasured : a.Unmeasured

namespace Shaped

variable {ok : CodePointSet → Prop}

theorem empty : Shaped ok {} := by
  have hnode : ∀ id, node {} id = default := fun id ↦ node_of_size_le (Nat.zero_le _)
  refine ⟨.empty, fun hup ↦ ?_, fun hkind ↦ ?_, fun id ↦ .inr ?_, fun hkind ↦ ?_,
    fun id ↦ by rw [hnode]; rfl⟩
  · rw [Up, hnode] at hup; cases hup
  · rw [hnode] at hkind; cases hkind
  · rw [hnode]; rfl
  · rw [hnode] at hkind; cases hkind

theorem exists_body (h : a.Shaped ok) {id length : Nat}
    (hid : (a.node id).kind = .lookBehind length) :
    ∃ g s, (a.node id).children.toList = [g] ∧ (a.node g).children.toList = [s] ∧
      (a.node s).children.toList.length = length ∧
      (∀ c ∈ (a.node s).children.toList, (a.node c).kind.isChars = true) ∧
      a.bodyTerms ((a.node id).children.getD 0 id) = (a.node s).children := by
  obtain ⟨g, s, hg, hs, hlength, hchars⟩ := h.body hid
  refine ⟨g, s, hg, hs, hlength, hchars, ?_⟩
  rw [getD_zero_of_toList hg, bodyTerms, getD_zero_of_toList hs]

theorem add {k : NodeKind} (h : a.Shaped ok) (hk : k.Plain ok) : (a.add k).Shaped ok := by
  have hsame : SamePlaces a (a.add k) := samePlaces_add k
  have hkind : ∀ x, ((a.add k).node x).kind = if x = a.size then k else (a.node x).kind := by
    intro x
    rw [node_add]
    split <;> rfl
  have hold : ∀ x, x < a.size → ((a.add k).node x).kind = (a.node x).kind := fun x hx ↦ by
    rw [hkind, if_neg (Nat.ne_of_lt hx)]
  refine ⟨hsame.forest h.forest, fun hup ↦ ?_, fun hid ↦ ?_, fun id ↦ ?_, fun hid ↦ ?_,
    h.unmeasured.add k⟩
  · have hup := hsame.up_iff.1 hup
    rw [hold _ (lt_size_of_parent hup), hold _ (h.forest.parent_lt hup)]
    exact h.takes hup
  · rw [hkind] at hid
    split at hid
    · rw [hid] at hk
      exact hk.elim
    · obtain ⟨g, s, hg, hs⟩ := h.body hid
      obtain ⟨s, hs⟩ := IsBody.keep ⟨s, hs⟩ h.forest (fun y hy _ ↦ hold y hy) fun y _ _ ↦
        hsame.children y
      exact ⟨g, s, by rw [hsame.children, hg], hs⟩
  · rw [hkind]
    split
    · cases k <;> first | exact .inl rfl | exact .inr rfl | exact hk.elim
    · exact h.kinds id
  · rw [hkind] at hid
    split at hid
    · rw [hid] at hk
      exact hk
    · exact h.chars hid

theorem link (h : a.Shaped ok) {p : Nat} (hp : a.Open top p) (hx : x < a.size)
    (hloose : (a.node x).parent = none) (hne : top ≠ x)
    (htakes : (a.node p).kind.Takes (a.node x).kind) : (a.link p x).Shaped ok := by
  have hkind : ∀ y, ((a.link p x).node y).kind = (a.node y).kind := fun y ↦ kind_link hp.lt hx
  refine ⟨h.forest.link hp.lt hx hloose (hp.not_below hloose hne), fun hup ↦ ?_,
    fun {id _} hid ↦ ?_, fun id ↦ ?_, fun hid ↦ ?_, h.unmeasured.link p x⟩
  · rw [hkind, hkind]
    rcases (up_link hp.lt hx hloose).1 hup with hup | ⟨rfl, rfl⟩
    · exact h.takes hup
    · exact htakes
  · rw [hkind] at hid
    obtain ⟨g, s, hg, hs⟩ := h.body hid
    -- nothing is placed in the body, as the place would not be open
    have hstay : ∀ y, a.Below y id → ((a.link p x).node y).children = (a.node y).children := by
      intro y hy
      have hne : y ≠ p := by
        rintro rfl
        have hclear := hp.clear _ hy
        rw [hid] at hclear
        cases hclear
      rw [node_link hp.lt hx, if_neg hne]
    have hgid : a.Up g id := h.forest.up_of_mem_toList (hg ▸ List.mem_singleton_self g)
    obtain ⟨s, hs⟩ := IsBody.keep ⟨s, hs⟩ h.forest (fun y _ _ ↦ hkind y) fun y _ hy ↦
      hstay y (hy.tail hgid)
    exact ⟨g, s, by rw [hstay id .refl, hg], hs⟩
  · rw [hkind]
    exact h.kinds id
  · rw [hkind] at hid
    exact h.chars hid

/-- A group with one alternative that holds only classes can be the body of an assertion. -/
theorem addLookBehind (h : a.Shaped ok) {body : Nat} (hbody : body < a.size)
    (hloose : (a.node body).parent = none) (hgroup : (a.node body).kind.isGroup = true)
    (hone : (a.node body).children.size = 1)
    (hchars : ∀ c ∈ a.bodyTerms body, (a.node c).kind.isChars = true) :
    (a.addLookBehind body).Shaped ok := by
  have hkind : ∀ y < a.size, ((a.addLookBehind body).node y).kind = (a.node y).kind := fun y hy ↦ by
    rw [kind_addLookBehind, if_neg (Nat.ne_of_lt hy)]
  have hchildren : ∀ y < a.size,
      ((a.addLookBehind body).node y).children = (a.node y).children := fun y hy ↦ by
    rw [children_addLookBehind hbody, if_neg (Nat.ne_of_lt hy)]
  refine ⟨h.forest.addLookBehind hbody hloose, fun hup ↦ ?_, fun {id length} hid ↦ ?_, fun id ↦ ?_,
    fun hid ↦ ?_, (h.unmeasured.add _).link _ _⟩
  · rcases (up_addLookBehind hbody hloose).1 hup with hup | ⟨rfl, rfl⟩
    · rw [hkind _ (lt_size_of_parent hup), hkind _ (h.forest.parent_lt hup)]
      exact h.takes hup
    · rw [kind_addLookBehind, if_pos rfl, hkind _ hbody]
      exact hgroup
  · -- the body of the new assertion, or one from before
    have hbodies : ∃ g, ((a.addLookBehind body).node id).children.toList = [g] ∧
        a.IsBody g length := by
      rw [kind_addLookBehind] at hid
      rw [children_addLookBehind hbody]
      split at hid
      · cases hid
        rw [if_pos ‹_›]
        exact ⟨body, rfl, .of_bodyTerms hone hchars⟩
      · rw [if_neg ‹_›]
        obtain ⟨g, s, hg, hs⟩ := h.body hid
        exact ⟨g, hg, s, hs⟩
    obtain ⟨g, hg, hisBody⟩ := hbodies
    obtain ⟨s, hs⟩ := hisBody.keep h.forest (fun y hy _ ↦ hkind y hy) fun y hy _ ↦ hchildren y hy
    exact ⟨g, s, hg, hs⟩
  · rw [kind_addLookBehind]
    split
    · exact .inl rfl
    · exact h.kinds id
  · rw [kind_addLookBehind] at hid
    split at hid
    · cases hid
    · exact h.chars hid

theorem copy (h : a.Shaped ok) (hid : id < a.size) : (a.copy id).Shaped ok := by
  obtain ⟨visited, hcopy⟩ := exists_copy h.forest hid
  have hchildren : ∀ x, ((a.copy id).node x).children.toList.map (a.original (id :: visited)) =
      (a.node (a.original (id :: visited) x)).children.toList := fun x ↦ by
    simpa using hcopy.children x
  have hup : ∀ {c p}, (a.copy id).Up c p →
      a.Up (a.original (id :: visited) c) (a.original (id :: visited) p) := by
    intro c p hcp
    refine h.forest.up_of_mem_toList ?_
    rw [← hchildren]
    exact List.mem_map_of_mem (Array.mem_toList_iff.2 (hcopy.forest.mem_of_up hcp))
  have hone : ∀ {x y : Nat}, (a.node (a.original (id :: visited) x)).children.toList = [y] →
      ∃ z, ((a.copy id).node x).children.toList = [z] ∧ a.original (id :: visited) z = y := by
    intro x y hxy
    rw [← hchildren] at hxy
    obtain ⟨z, hz, hzy⟩ := List.map_eq_singleton_iff.1 hxy
    exact ⟨z, hz, hzy⟩
  refine ⟨hcopy.forest, fun hcp ↦ ?_, fun hkind ↦ ?_, fun x ↦ ?_, fun hkind ↦ ?_,
    h.unmeasured.copy id⟩
  · rw [hcopy.kind, hcopy.kind]
    exact h.takes (hup hcp)
  · rw [hcopy.kind] at hkind
    obtain ⟨g, s, hg, hs, hlength, hchars⟩ := h.body hkind
    obtain ⟨g', hg', rfl⟩ := hone hg
    obtain ⟨s', hs', rfl⟩ := hone hs
    refine ⟨g', s', hg', hs', ?_, fun t ht ↦ ?_⟩
    · rw [← hlength, ← hchildren, List.length_map]
    · rw [hcopy.kind]
      refine hchars _ ?_
      rw [← hchildren]
      exact List.mem_map_of_mem ht
  · rw [hcopy.kind]
    exact h.kinds _
  · rw [hcopy.kind] at hkind
    exact h.chars hkind

end Shaped

end Arena

end PatternAutomata
