import Mathlib.Order.Bounds.Basic
import PatternAutomata.Proofs.Language.Walks
import PatternAutomata.Proofs.Tree.Measured

/-!
# Ways through a pattern, whatever the text

A stroll goes through the pattern as a walk does, but it looks at no text: assertions always hold,
and every class has a character to read. What is left of a walk is how many characters it has read
so far, and the distances of a finished tree are the least of these numbers.

No stroll comes to a node sooner: from spot to spot, what a stroll has read does not fall behind
what the tree says. And there is a stroll that is as fast, as every node can be crossed with no more
characters than its length. The way out of a loop that has to run once is different, as the
distance of its front is that of the loop and leaves out the iteration that a stroll has to make.
-/

namespace PatternAutomata

namespace Tree

variable {t : Tree} {length : Nat → Nat} {u v : Spot} {n m x p c i : Nat}

/-! ## Strolls -/

/-- A stroll goes on within the pattern, with the number of characters that it has read. -/
inductive Strides (t : Tree) : Spot × Nat → Spot × Nat → Prop
  | move {u v : Spot} {n : Nat} : Move t (fun _ ↦ True) True u v → t.arena.Below v.node t.root →
      Strides t (u, n) (v, n)
  | read {id n : Nat} {r : Bool} : (t.node id).kind.isChars = true →
      Strides t (⟨id, false, r⟩, n) (.back id, n + 1)

/-- One place on a stroll and a later one. -/
def Strolls (t : Tree) : Spot × Nat → Spot × Nat → Prop := Relation.ReflTransGen t.Strides

/-- Some stroll through the whole pattern comes to a node when it has read `n` characters. -/
def PassedAfter (t : Tree) (x n : Nat) : Prop :=
  ∃ r m, t.Strolls (.front t.root, 0) (⟨x, false, r⟩, n) ∧
    t.Strolls (⟨x, false, r⟩, n) (.back t.root, m)

/-- A node is the empty way out of a loop that has to run once. -/
structure PlusExit (t : Tree) (loop x : Nat) : Prop where
  parent : t.arena.Up x loop
  loops : ∃ g, (t.node loop).kind = .group g ∧ g.loop = some .plus
  empty : (t.node x).isEmpty = true

theorem countsForLength_iff {g : Group} (hup : t.arena.Up c p)
    (hkind : (t.node p).kind = .group g) :
    t.arena.countsForLength g c = true ↔ ¬t.PlusExit p c := by
  have hexit : t.PlusExit p c ↔ g.loop = some .plus ∧ (t.node c).isEmpty = true := by
    refine ⟨fun hexit ↦ ?_, fun hplus ↦ ⟨hup, ⟨g, hkind, hplus.1⟩, hplus.2⟩⟩
    obtain ⟨g', hkind', hplus⟩ := hexit.loops
    cases hkind.symm.trans hkind'
    exact ⟨hplus, hexit.empty⟩
  rw [hexit, Arena.countsForLength, Bool.not_eq_true', Bool.and_eq_false_iff, ← Tree.node]
  rw [not_and_or, Bool.not_eq_true, beq_eq_false_iff_ne]

section

variable (h : t.Finished)
include h

theorem PlusExit.sequence (hexit : t.PlusExit p x) : (t.node x).kind = .sequence := by
  obtain ⟨g, hkind, -⟩ := hexit.loops
  exact h.regular.sequences hexit.parent hkind

theorem not_plusExit_of_up (hup : t.arena.Up c x) : ¬t.PlusExit p x := by
  intro hexit
  have hmem := h.regular.forest.mem_of_up hup
  have hempty := hexit.empty
  rw [Node.isEmpty, Array.isEmpty_iff] at hempty
  rw [← Tree.node, hempty] at hmem
  exact Array.not_mem_empty _ hmem

theorem Walkable.move {passes : Nat → Prop} {isAtStart : Prop} (hu : t.Walkable u.node)
    (hmove : Move t passes isAtStart u v) (hv : t.arena.Below v.node t.root) :
    t.Walkable v.node := by
  refine ⟨hv, fun l hl hbelow ↦ ?_⟩
  by_contra hne
  obtain ⟨hbelow, hne⟩ := move_properly_below h.regular.forest hl hmove ⟨hbelow, hne⟩
  exact hne (hu.2 l hl hbelow)

theorem Walkable.parent_of_next (hx : t.Walkable x) (hup : t.arena.Up x p)
    (hc : (t.node p).children[(t.node x).index + 1]? = some c) (hbelow : t.arena.Below c t.root) :
    t.Walkable p := by
  have hforest := h.regular.forest
  exact hx.parent hforest hup (hforest.below_of_next hup hc hx.1 hbelow)

end

/-! ## No stroll is faster -/

/-- What a stroll has read when it has come to a spot: no less than the tree says. -/
structure Paced (t : Tree) (length : Nat → Nat) (u : Spot) (n : Nat) : Prop where
  proper : t.Proper u
  walkable : t.Walkable u.node
  /-- As much as lies in front of the node. -/
  front : (t.node u.node).minPath ≤ n
  /-- As much as passing the node takes, when it has been passed. -/
  through : u.isLeaving = true ∨ u.isReentry = true → (t.node u.node).minPath + length u.node ≤ n
  /-- An iteration, on the way out of a loop that has to run once. -/
  iteration : ∀ p, t.PlusExit p u.node → (t.node p).minPath + length p ≤ n

namespace Measured

variable (hm : t.Measured length)
include hm

theorem minPath_next (hp : t.Walkable p) (hkind : (t.node p).kind = .sequence) {d : Nat}
    (hc : (t.node p).children[i]? = some c) (hd : (t.node p).children[i + 1]? = some d) :
    (t.node d).minPath = (t.node c).minPath + length c := by
  rw [hm.term hp hkind hc, hm.term hp hkind hd, List.take_add_one, Array.getElem?_toList, hc]
  simp [Nat.add_assoc]

theorem minPath_last (hp : t.Walkable p) (hkind : (t.node p).kind = .sequence)
    (hc : (t.node p).children[i]? = some c) (hnil : (t.node p).children[i + 1]? = none) :
    (t.node p).minPath + length p = (t.node c).minPath + length c := by
  have hall : (t.node p).children.toList.take (i + 1) = (t.node p).children.toList := by
    rw [← Array.getElem?_toList, List.getElem?_eq_none_iff] at hnil
    exact List.take_of_length_le hnil
  rw [hm.sequence hp hkind, ← hall, List.take_add_one, Array.getElem?_toList, hc,
    hm.term hp hkind hc]
  simp [Nat.add_assoc]

end Measured

namespace Paced

theorem of_term (hc : t.Walkable c) (hup : t.arena.Up c p) (hkind : (t.node p).kind = .sequence)
    (hle : (t.node c).minPath ≤ n) : t.Paced length (.front c) n where
  proper := nofun
  walkable := hc
  front := hle
  through hspot := by rcases hspot with hspot | hspot <;> cases hspot
  iteration q hexit := by
    obtain ⟨g, hgroup, -⟩ := hexit.loops
    obtain rfl : q = p := Option.some.inj (hexit.parent.symm.trans hup)
    cases hkind.symm.trans hgroup

theorem of_parent (h : t.Finished) (hproper : t.Proper v) (hv : t.Walkable v.node)
    (hup : t.arena.Up c v.node) (hle : (t.node v.node).minPath + length v.node ≤ n) :
    t.Paced length v n where
  proper := hproper
  walkable := hv
  front := Nat.le_trans (Nat.le_add_right ..) hle
  through _ := hle
  iteration _ hexit := absurd hexit (not_plusExit_of_up h hup)

theorem of_front {r : Bool} (hu : t.Paced length ⟨x, false, r⟩ n) (hle : n + length x ≤ m) :
    t.Paced length (.back x) m where
  proper := nofun
  walkable := hu.walkable
  front := Nat.le_trans hu.front (Nat.le_of_add_right_le hle)
  through _ := Nat.le_trans (Nat.add_le_add_right hu.front _) hle
  iteration p hexit := Nat.le_trans (hu.iteration p hexit) (Nat.le_of_add_right_le hle)

end Paced

/-- **The step lemma of strolls**: none falls behind. -/
theorem Paced.strides (hm : t.Measured length) (h : t.Finished) (hu : t.Paced length u n)
    (hstep : t.Strides (u, n) (v, m)) : t.Paced length v m := by
  have hforest := h.regular.forest
  cases hstep with
  | @read id _ r hchars => exact hu.of_front (by rw [hm.chars hu.walkable hchars])
  | move hmove hv =>
    have hwalk := hu.walkable.move h hmove hv
    have hproper := hu.proper.move hmove
    -- what takes no characters is passed at once
    have hpass : ∀ {id : Nat} {r : Bool} {k : NodeKind}, u = ⟨id, false, r⟩ →
        (t.node id).kind = k → k.isGroup = false → length id = 0 →
        t.Paced length ⟨id, true, r⟩ n := by
      rintro id r k rfl hkind hgroup hzero
      obtain rfl := hu.proper.eq_false_of_kind hkind hgroup
      exact hu.of_front (by rw [hzero, Nat.add_zero])
    cases hmove with
    | @again loop hrepeats =>
      obtain ⟨hleaving, hup, ⟨g, hkind, -⟩, hempty⟩ := hrepeats
      have hcounts : t.arena.countsForLength g u.node = true :=
        (countsForLength_iff hup hkind).2 fun hexit ↦ by
          rw [hexit.empty] at hempty
          cases hempty
      have hmem := hforest.mem_of_up hup
      refine .of_parent h hproper hwalk hup (Nat.le_trans ?_ (hu.through (.inl hleaving)))
      rw [hm.alternative hwalk hkind hmem]
      exact Nat.add_le_add_left (hm.least hwalk hkind hmem hcounts) _
    | onward honward =>
      cases honward with
      | @first id c r hkind hc =>
        obtain rfl := hu.proper.eq_false_of_kind hkind rfl
        refine .of_term hwalk (hforest.child hc).1 hkind ?_
        rw [hm.term hu.walkable hkind hc]
        exact hu.front
      | @skip id r hkind hnil =>
        refine hpass rfl hkind rfl ?_
        rw [← Array.getElem?_toList, List.getElem?_eq_none_iff, Nat.le_zero,
          List.length_eq_zero_iff] at hnil
        rw [hm.sequence hu.walkable hkind, hnil]
        rfl
      | @choose id c r g hkind hc hadmits =>
        have hup := hforest.up_of_mem hc
        have hfront := hm.alternative hu.walkable hkind hc
        refine ⟨nofun, hwalk, hfront.symm ▸ hu.front, fun hspot ↦ ?_, fun p hexit ↦ ?_⟩
        · rcases hspot with hspot | hspot <;> cases hspot
        · -- the way out of a loop that has to run once is open after an iteration
          obtain rfl : p = id := Option.some.inj (hexit.parent.symm.trans hup)
          obtain ⟨g', hkind', hplus⟩ := hexit.loops
          cases hkind.symm.trans hkind'
          exact hu.through (.inr (hadmits hplus hexit.empty))
      | caret hkind _ => exact hpass rfl hkind rfl (hm.assertion hu.walkable hkind rfl rfl rfl)
      | dollar hkind => exact hpass rfl hkind rfl (hm.assertion hu.walkable hkind rfl rfl rfl)
      | lookBehind hkind _ =>
        exact hpass rfl hkind rfl (hm.assertion hu.walkable hkind rfl rfl rfl)
      | marker hkind => exact hpass rfl hkind rfl (hm.assertion hu.walkable hkind rfl rfl rfl)
      | @next id p c r hup hkind hc =>
        obtain rfl := hu.proper.eq_false_of_leaving
        have hp := hu.walkable.parent_of_next h hup hc hv
        refine .of_term hwalk (hforest.child hc).1 hkind ?_
        rw [hm.minPath_next hp hkind (hforest.parent hup) hc]
        exact hu.through (.inl rfl)
      | @last id p r hup hkind hnil =>
        refine .of_parent h hproper hwalk hup ?_
        rw [hm.minPath_last hwalk hkind (hforest.parent hup) hnil]
        exact hu.through (.inl rfl)
      | @out id p r g hup hkind hempty =>
        refine .of_parent h hproper hwalk hup ?_
        by_cases hexit : t.PlusExit p id
        · exact hu.iteration p hexit
        · have hmem := hforest.mem_of_up hup
          refine Nat.le_trans ?_ (hu.through (.inl rfl))
          rw [hm.alternative hwalk hkind hmem]
          exact Nat.add_le_add_left
            (hm.least hwalk hkind hmem ((countsForLength_iff hup hkind).2 hexit)) _

/-- **No stroll falls behind**, from the front of the pattern on. -/
theorem Paced.of_strolls (hm : t.Measured length) (h : t.Finished)
    (hstroll : t.Strolls (.front t.root, 0) (u, n)) : t.Paced length u n := by
  generalize hend : (u, n) = place at hstroll
  induction hstroll generalizing u n with
  | refl =>
    cases hend
    refine ⟨nofun, h.walkable_root, Nat.le_of_eq hm.root, fun hspot ↦ ?_, fun p hexit ↦ ?_⟩
    · rcases hspot with hspot | hspot <;> cases hspot
    · have hgroup := h.regular.root_group
      rw [hexit.sequence h] at hgroup
      cases hgroup
  | tail _ hstep ih =>
    subst hend
    exact (ih rfl).strides hm h hstep

/-! ## Some stroll is as fast -/

theorem Strides.onward (h : Onward t (fun _ ↦ True) True u v) (hv : t.arena.Below v.node t.root) :
    t.Strides (u, n) (v, n) :=
  .move (.onward h) hv

section

variable (h : t.Finished) (hlooped : t.arena.Looped)
include h hlooped

theorem strolls_again {g : Group} (hx : t.Walkable x) (hkind : (t.node x).kind = .group g)
    (hloop : g.loop.isSome = true) : t.Strolls (.again x, n) (.back x, n) := by
  obtain ⟨body, exit, hchildren, -, hempty⟩ := hlooped hkind hloop
  have hmem : exit ∈ (t.node x).children := by
    rw [← Array.mem_toList_iff, Tree.node]
    rcases hchildren with h | h <;> simp [h]
  have hup := h.regular.forest.up_of_mem hmem
  have hexit := (hx.child hup (by rw [hkind]; rfl)).1
  have hnil : (t.node exit).children[0]? = none := by
    rw [Node.isEmpty, Array.isEmpty_iff] at hempty
    rw [Tree.node, hempty]
    rfl
  have hout : t.Strides (.back exit, n) (.back x, n) := .onward (.out hup hkind fun _ ↦ hempty) hx.1
  have hskip : t.Strides (.front exit, n) (.back exit, n) :=
    .onward (.skip (h.regular.sequences hup hkind) hnil) hexit
  have hchoose : t.Strides (.again x, n) (.front exit, n) :=
    .onward (.choose hkind hmem fun _ _ ↦ rfl) hexit
  exact .head hchoose (.head hskip (.single hout))

/-- A group is left at the end of any of its alternatives, a loop through the empty one. -/
theorem strolls_out {g : Group} (hx : t.Walkable x) (hkind : (t.node x).kind = .group g)
    (hc : c ∈ (t.node x).children) : t.Strolls (.back c, n) (.back x, n) := by
  have hup := h.regular.forest.up_of_mem hc
  by_cases hout : g.loop.isSome = true → (t.node c).isEmpty = true
  · exact .single (.onward (.out hup hkind hout) hx.1)
  · rw [Classical.not_imp, Bool.not_eq_true] at hout
    have hagain : t.Strides (.back c, n) (.again x, n) :=
      .move (.again ⟨rfl, hup, ⟨g, hkind, hout.1⟩, hout.2⟩) hx.1
    exact .head hagain (strolls_again h hlooped hx hkind hout.1)

end

theorem strolls_rest (h : t.Finished) (hx : t.Walkable x) (hkind : (t.node x).kind = .sequence)
    (hterms : ∀ c n, t.arena.Up c x → t.Strolls (.front c, n) (.back c, n + length c))
    {ids : List Nat} (hids : (t.node x).children.toList.drop i = ids) :
    t.Strolls (t.entry x i, n) (.back x, n + (ids.map length).sum) := by
  induction ids generalizing i n with
  | nil =>
    have hnone : (t.node x).children[i]? = none := by
      rw [← Array.getElem?_toList, List.getElem?_eq_none_iff]
      exact List.drop_eq_nil_iff.1 hids
    rw [entry, hnone]
    exact .refl
  | cons c ids ih =>
    have hget : (t.node x).children[i]? = some c := by
      rw [← Array.getElem?_toList, ← List.head?_drop, hids]
      rfl
    have hids' : (t.node x).children.toList.drop (i + 1) = ids := by
      rw [← List.drop_drop, hids]
      rfl
    obtain ⟨hup, hindex⟩ := h.regular.child hget
    have hnext : t.Strides (.back c, n + length c) (t.entry x (i + 1), n + length c) := by
      rw [entry, ← hindex]
      split
      · next d hd => exact .onward (.next hup hkind hd) (.head (h.regular.child hd).1 hx.1)
      · next hnone => exact .onward (.last hup hkind hnone) hx.1
    rw [entry, hget, List.map_cons, List.sum_cons, ← Nat.add_assoc]
    exact (hterms c n hup).trans (.head hnext (ih hids'))

namespace Measured

variable (hm : t.Measured length) (h : t.Finished) (hlooped : t.arena.Looped)
include hm h hlooped

/-- **Every node can be crossed with as few characters as its length says.** -/
theorem strolls_through (hx : t.Walkable x) (n : Nat) :
    t.Strolls (.front x, n) (.back x, n + length x) := by
  have hforest := h.regular.forest
  induction x using hforest.induction_down generalizing n with
  | hnode x ih =>
    have hpass : length x = 0 → Onward t (fun _ ↦ True) True (.front x) (.back x) →
        t.Strolls (.front x, n) (.back x, n + length x) := by
      intro hzero hpass
      rw [hzero]
      exact .single (.onward hpass hx.1)
    cases hkind : (t.node x).kind with
    | sequence =>
      have hup : ∀ c, t.arena.Up c x → t.Walkable c := fun c hup ↦
        hx.child hup (by rw [hkind]; rfl)
      have hfirst : t.Strides (.front x, n) (t.entry x 0, n) := by
        rw [entry]
        split
        · next c hc => exact .onward (.first hkind hc) (hup c (h.regular.child hc).1).1
        · next hnone => exact .onward (.skip hkind hnone) hx.1
      rw [hm.sequence hx hkind]
      exact .head hfirst
        (strolls_rest h hx hkind (fun c n hc ↦ ih c hc (hup c hc) n) List.drop_zero)
    | group g =>
      obtain ⟨c, hc, hcounts, heq⟩ := hm.exists_least hx hkind
      have hup := hforest.up_of_mem hc
      have hwalk := hx.child hup (by rw [hkind]; rfl)
      have hadmits : t.Admits g false c := by
        intro hplus hempty
        exact absurd ⟨hup, ⟨g, hkind, hplus⟩, hempty⟩ ((countsForLength_iff hup hkind).1 hcounts)
      rw [heq]
      exact .head (.onward (.choose hkind hc hadmits) hwalk.1)
        ((ih c hup hwalk n).trans (strolls_out h hlooped hx hkind hc))
    | chars set claim =>
      have hchars : (t.node x).kind.isChars = true := by rw [hkind]; rfl
      rw [hm.chars hx hchars]
      exact .single (.read hchars)
    | caret => exact hpass (hm.assertion hx hkind rfl rfl rfl) (.caret hkind trivial)
    | dollar => exact hpass (hm.assertion hx hkind rfl rfl rfl) (.dollar hkind)
    | lookBehind _ => exact hpass (hm.assertion hx hkind rfl rfl rfl) (.lookBehind hkind trivial)
    | _ =>
      rcases h.regular.inner hx.1 with hterm | hterm <;> (rw [hkind] at hterm; cases hterm)

/-- From the end of a node, a stroll can go on to the end of the pattern. -/
theorem exists_strolls_back (hx : t.Walkable x) (n : Nat) :
    ∃ m, t.Strolls (.back x, n) (.back t.root, m) := by
  have hforest := h.regular.forest
  obtain ⟨hbelow, hout⟩ := hx
  induction hbelow using Relation.ReflTransGen.head_induction_on generalizing n with
  | refl => exact ⟨n, .refl⟩
  | @head x p hup hp ih =>
    have hx : t.Walkable x := ⟨.head hup hp, hout⟩
    have hwalk := hx.parent hforest hup hp
    suffices hleave : ∃ m, t.Strolls (.back x, n) (.back p, m) by
      obtain ⟨m, hleave⟩ := hleave
      obtain ⟨e, hrest⟩ := ih m hwalk.2
      exact ⟨e, hleave.trans hrest⟩
    rcases h.kind_of_up hx hup with hkind | ⟨g, hkind⟩
    · have hnext : t.Strides (.back x, n) (t.entry p ((t.node x).index + 1), n) := by
        rw [entry]
        split
        · next d hd => exact .onward (.next hup hkind hd) (.head (h.regular.child hd).1 hp)
        · next hnone => exact .onward (.last hup hkind hnone) hp
      have hrest := strolls_rest (i := (t.node x).index + 1) (n := n) h hwalk hkind
        (fun c n hc ↦ hm.strolls_through h hlooped (hwalk.child hc (by rw [hkind]; rfl)) n) rfl
      exact ⟨_, .head hnext hrest⟩
    · exact ⟨n, strolls_out h hlooped hwalk hkind (hforest.mem_of_up hup)⟩

/-- **Every node is come to with as few characters as its distance says**, the ways out of loops
that have to run once left out. -/
theorem strolls_front (hx : t.Walkable x) (hexit : ∀ p, ¬t.PlusExit p x) :
    t.Strolls (.front t.root, 0) (.front x, (t.node x).minPath) := by
  have hforest := h.regular.forest
  obtain ⟨hbelow, hout⟩ := hx
  induction hbelow using Relation.ReflTransGen.head_induction_on with
  | refl =>
    rw [hm.root]
    exact .refl
  | @head x p hup hp ih =>
    have hx : t.Walkable x := ⟨.head hup hp, hout⟩
    have hwalk := hx.parent hforest hup hp
    refine (ih (fun q ↦ not_plusExit_of_up h hup) hwalk.2).trans ?_
    rcases h.kind_of_up hx hup with hkind | ⟨g, hkind⟩
    · -- from term to term
      have hterm : ∀ i c : Nat, (t.node p).children[i]? = some c →
          t.Strolls (.front p, (t.node p).minPath) (.front c, (t.node c).minPath) := by
        intro i
        induction i with
        | zero =>
          intro c hc
          rw [hm.term hwalk hkind hc]
          exact .single (.onward (.first hkind hc) (.head (h.regular.child hc).1 hp))
        | succ i ihi =>
          intro c hc
          obtain ⟨hi, -⟩ := Array.getElem?_eq_some_iff.1 hc
          obtain ⟨d, hd⟩ : ∃ d, (t.node p).children[i]? = some d :=
            ⟨_, Array.getElem?_eq_getElem (Nat.lt_of_succ_lt hi)⟩
          obtain ⟨hupd, hindex⟩ := h.regular.child hd
          have hthrough := hm.strolls_through h hlooped
            (hwalk.child hupd (by rw [hkind]; rfl)) (t.node d).minPath
          rw [hm.minPath_next hwalk hkind hd hc]
          refine ((ihi d hd).trans hthrough).tail (.onward (.next hupd hkind ?_) ?_)
          · rw [hindex]
            exact hc
          · exact .head (h.regular.child hc).1 hp
      exact hterm _ x (hforest.parent hup)
    · have hadmits : t.Admits g false x := by
        intro hplus hempty
        exact absurd ⟨hup, ⟨g, hkind, hplus⟩, hempty⟩ (hexit p)
      rw [hm.alternative hwalk hkind (hforest.mem_of_up hup)]
      exact .single (.onward (.choose hkind (hforest.mem_of_up hup) hadmits) hx.1)

/-- **Distances are exact.** -/
theorem isLeast_minPath (hx : t.Walkable x) (hexit : ∀ p, ¬t.PlusExit p x) :
    IsLeast {n | t.PassedAfter x n} (t.node x).minPath := by
  constructor
  · obtain ⟨m, hback⟩ := hm.exists_strolls_back h hlooped hx ((t.node x).minPath + length x)
    exact ⟨false, m, hm.strolls_front h hlooped hx hexit,
      (hm.strolls_through h hlooped hx _).trans hback⟩
  · rintro n ⟨r, m, hstroll, -⟩
    exact (Paced.of_strolls hm h hstroll).front

end Measured

/-! ## What the distances are used for -/

variable {o : Options} {pattern : Bytes}

/-- **The numbers that a tree is finished with are exact.** Distances are the least numbers of
characters, a caret is listed unless there is always a character in front of it, and the lead-in is
the shortest one that holds what look-behind assertions reach back over. None of the numbers is as
large as the number of nodes. -/
theorem minPath_exact (ht : ofPattern o pattern = .ok t) :
    (∀ x, t.Walkable x → (∀ loop, ¬t.PlusExit loop x) →
      IsLeast {n | t.PassedAfter x n} (t.node x).minPath ∧ (t.node x).minPath < t.size) ∧
    (∀ x, t.arena.Below x t.root → (t.node x).kind = .caret →
      (x ∉ t.carets ↔ ∀ n, t.PassedAfter x n → 0 < n)) ∧
    IsLeast {lead | ∀ x length n, t.arena.Below x t.root →
      (t.node x).kind = .lookBehind length → t.PassedAfter x n → length ≤ lead + n} t.leadLength ∧
    t.leadLength < t.size := by
  have h : t.Finished := .ofPattern ht
  have hsize := (h.lt_matchFound .refl).2
  obtain ⟨hpeopled, hlooped⟩ := peopled_of_ofPattern ht
  obtain ⟨length, hm⟩ : ∃ length, t.Measured length := by
    obtain ⟨a, encoding, root, captures, hready, rfl⟩ := h.ready
    exact ⟨_, (hready.finishedFrom encoding captures).measured_tree hready hpeopled hlooped⟩
  have hleast : ∀ {x k}, t.arena.Below x t.root → (t.node x).kind = k → k.isGroup = false →
      k.isSequence = false → k.isChars = false →
        IsLeast {n | t.PassedAfter x n} (t.node x).minPath := by
    intro x k hx hkind hgroup hsequence hchars
    refine hm.isLeast_minPath h hlooped
      (h.walkable_of_kind hx hkind hgroup hsequence hchars) fun p hexit ↦ ?_
    rw [← hkind, hexit.sequence h] at hsequence
    cases hsequence
  refine ⟨fun x hx hexit ↦ ⟨hm.isLeast_minPath h hlooped hx hexit, ?_⟩, fun x hx hkind ↦ ?_,
    ⟨fun x l n hx hkind hn ↦ ?_, fun lead hlead ↦ ?_⟩, Nat.lt_of_le_of_lt h.leadLength_le hsize⟩
  · have := hm.minPath_add_length_le h hx
    omega
  · -- a caret is listed if its distance is none
    obtain ⟨hpasses, hbound⟩ := hleast hx hkind rfl rfl rfl
    have hholds : t.Holds x := hx.trans h.regular.root_holds
    rw [h.regular.mem_carets, and_iff_right hkind, and_iff_right hholds, ← ne_eq,
      ← Nat.pos_iff_ne_zero]
    exact ⟨fun hpos n hn ↦ Nat.lt_of_lt_of_le hpos (hbound hn), fun hall ↦ hall _ hpasses⟩
  · obtain ⟨-, hbound⟩ := hleast hx hkind rfl rfl rfl
    exact Nat.le_trans (h.leadLength_le_iff.1 (Nat.le_refl _) x l hx hkind)
      (Nat.add_le_add_left (hbound hn) _)
  · refine h.leadLength_le_iff.2 fun x l hx hkind ↦ ?_
    exact hlead x l _ hx hkind (hleast hx hkind rfl rfl rfl).1

/-- In `(?:a|bc)+(?<=xyz)^` every way has read one character at least when it comes to the
assertions: the look-behind reaches back two more, and the caret never holds. -/
theorem minPath_exact_plus :
    ∃ t, ofPattern {} (.ofString "(?:a|bc)+(?<=xyz)^") = .ok t ∧ t.Walkable 16 ∧
      IsLeast {n | t.PassedAfter 16 n} 1 ∧ (∀ n, t.PassedAfter 17 n → 0 < n) ∧
      IsLeast {lead | ∀ x length n, t.arena.Below x t.root →
        (t.node x).kind = .lookBehind length → t.PassedAfter x n → length ≤ lead + n} 2 := by
  obtain ⟨t, ht, htests⟩ := exists_ofPattern
    (fun t ↦ decide ((t.node 16).kind = .lookBehind 3 ∧ (t.node 16).minPath = 1 ∧
      (t.node 17).kind = .caret ∧ 17 ∉ t.carets ∧ t.leadLength = 2 ∧ 17 < t.arena.size ∧
      t.root ∈ t.arena.ancestors 16 ∧ t.root ∈ t.arena.ancestors 17))
    (show (ofPattern {} (.ofString "(?:a|bc)+(?<=xyz)^")).toOption.any _ = true by decide +kernel)
  obtain ⟨hlookBehind, hminPath, hcaret, hout, hlead, hsize, hbelow, hbelow'⟩ :=
    of_decide_eq_true htests
  have h : t.Finished := .ofPattern ht
  have hforest := h.regular.forest
  have hwalk := h.walkable_of_kind ((hforest.mem_ancestors (Nat.lt_of_succ_lt hsize)).1 hbelow)
    hlookBehind rfl rfl rfl
  obtain ⟨hdistances, hcarets, hleads, -⟩ := minPath_exact ht
  refine ⟨t, ht, hwalk, ?_, ?_, hlead ▸ hleads⟩
  · have hexit : ∀ loop, ¬t.PlusExit loop 16 := fun loop hexit ↦ by
      cases hlookBehind.symm.trans (hexit.sequence h)
    exact hminPath ▸ (hdistances 16 hwalk hexit).1
  · exact (hcarets 17 ((hforest.mem_ancestors hsize).1 hbelow') hcaret).1 hout

end Tree

end PatternAutomata
