import PatternAutomata.Proofs.Tree.Whole

/-!
# Well-formed trees

The trees of patterns, described from above: what can be come by on the way down from the root of
the whole. All of it is about numbers of nodes and about what stands there, so it can be told from
the finished tree alone.

A node is known by its place in the arena and holds no number of its own that could differ from it.
-/

namespace PatternAutomata

/-- What may stand right below a node: the alternatives of a group, the terms of a sequence, the
body of a look-behind assertion. -/
def NodeKind.mayHold : NodeKind → NodeKind → Bool
  | group _, sequence => true
  | sequence, group _ | sequence, chars _ _ | sequence, caret | sequence, dollar => true
  | sequence, lookBehind _ | sequence, marker _ _ | sequence, matchFound => true
  | lookBehind _, group _ => true
  | _, _ => false

namespace Tree

/-- `c` stands right below `p`. -/
def Holding (t : Tree) (p c : Nat) : Prop := c ∈ (t.node p).children

/-- The nodes that the ways down from the root of the whole come by. -/
def Reachable (t : Tree) : Nat → Prop := Relation.ReflTransGen t.Holding t.wrappedRoot

structure WellFormed (t : Tree) : Prop where
  /-- Nodes have their places in the arena. -/
  lt_size : ∀ {x : Nat}, t.Reachable x → x < t.size
  /-- The root of the whole has no parent. -/
  root_loose : (t.node t.wrappedRoot).parent = none
  /-- A child knows its parent, and its place among the children there. -/
  child : ∀ {p i c : Nat}, t.Reachable p → (t.node p).children[i]? = some c →
    (t.node c).parent = some p ∧ (t.node c).index = i
  /-- All others have a parent, and they stand where they say that they do. -/
  parent : ∀ {x : Nat}, t.Reachable x → x ≠ t.wrappedRoot → ∃ p, t.Reachable p ∧
    (t.node x).parent = some p ∧ (t.node p).children[(t.node x).index]? = some x
  /-- No way down leads back. -/
  acyclic : ∀ {x : Nat}, t.Reachable x → ¬Relation.TransGen t.Holding x x
  /-- These are the nodes that belong to the tree. -/
  reachable_iff : ∀ {x : Nat}, t.Reachable x ↔ t.isMarker x = true
  /-- Everything is of a kind that may stand where it does. -/
  kinds : ∀ {p c : Nat}, t.Reachable p → t.Holding p c →
    (t.node p).kind.mayHold (t.node c).kind = true
  /-- The whole is a group with one alternative, which ends behind the pattern. -/
  top : ∃ s, (t.node t.wrappedRoot).kind = .group {} ∧ (t.node t.wrappedRoot).children = #[s] ∧
    (t.node s).children.back? = some t.matchFound
  /-- Nothing else is the place behind the pattern. -/
  matchFound_iff : ∀ {x : Nat}, (t.node x).kind = .matchFound ↔ x = t.matchFound
  /-- A look-behind assertion has one group with one sequence of classes, as many as it says. -/
  lookBehind : ∀ {l length : Nat}, (t.node l).kind = .lookBehind length →
    ∃ g s, (t.node l).children = #[g] ∧ (t.node g).children = #[s] ∧
      t.body l = (t.node s).children ∧ (t.body l).size = length ∧
      ∀ c ∈ t.body l, (t.node c).kind.isChars = true
  /-- A loop has one alternative that is not empty, and one that is. -/
  loops : ∀ {x : Nat} {g : Group}, t.Reachable x → (t.node x).kind = .group g →
    g.loop.isSome = true → t.arena.HasWayOut x
  /-- The classes of look-behind bodies name their assertions, and nothing else does. -/
  lookBehindOf_iff : ∀ {x l : Nat}, t.lookBehindOf x = some l ↔
    t.Reachable l ∧ (t.node l).kind.isLookBehind = true ∧ x ∈ t.body l
  /-- The assertions are listed. -/
  mem_lookBehinds : ∀ {l : Nat}, l ∈ t.lookBehinds ↔
    (t.node l).kind.isLookBehind = true ∧ t.Reachable l
  /-- Captures are below the number of capture groups. -/
  captures : ∀ {x : Nat} {g : Group}, t.Reachable x → (t.node x).kind = .group g →
    (∀ c, g.capture = some c → c < t.captureGroups) ∧ ∀ c ∈ g.nested, c < t.captureGroups
  /-- There are two markers for every length of the lead-in that is left. -/
  starts : t.unanchored.size = t.leadLength + 1 ∧ t.anchored.size = t.leadLength + 1 ∧
    ∀ {lead : Nat} {anchored : Bool}, lead ≤ t.leadLength →
      t.Reachable (t.start anchored lead) ∧
        (t.node (t.start anchored lead)).kind = .marker anchored lead

end Tree

namespace NodeKind

variable {k k' l l' : NodeKind}

theorem mayHold_of_bare_eq (hk : k.bare = k'.bare) (hl : l.bare = l'.bare) :
    k.mayHold l = k'.mayHold l' := by
  rcases cases_of_bare_eq hk with rfl | ⟨_, _, rfl, rfl, -⟩ | ⟨_, _, _, rfl, rfl⟩ <;>
    rcases cases_of_bare_eq hl with rfl | ⟨_, _, rfl, rfl, -⟩ | ⟨_, _, _, rfl, rfl⟩ <;>
    first | rfl | (cases k <;> rfl) | (cases l <;> rfl)

theorem Takes.mayHold (h : k.Takes l) : k.mayHold l = true := by
  cases k with
  | group _ => cases h; rfl
  | sequence => cases l <;> first | rfl | cases h
  | lookBehind _ =>
    obtain ⟨g, rfl⟩ := isGroup_iff.1 h
    rfl
  | _ => exact h.elim

theorem mayHold_sequence (h : l ≠ .sequence) : sequence.mayHold l = true := by
  cases l <;> first | rfl | exact absurd rfl h

end NodeKind

namespace Arena

variable {ok : CodePointSet → Prop} {a b : Arena} {root x : Nat}

namespace Framed

variable {full : CodePointSet} {lead : Nat}

theorem mayHold (hf : Framed a full root lead b) (h : Ready ok a root) {p c : Nat}
    (hc : c ∈ (b.node p).children) : (b.node p).kind.mayHold (b.node c).kind = true := by
  obtain ⟨i, hi⟩ := Array.mem_iff_getElem?.1 hc
  rcases hf.cases_lt (lt_size_of_child hi) with hold | rfl | rfl | rfl | ⟨j, k, rfl, hk⟩
  · rw [hf.children p hold] at hc
    have hup := h.shaped.forest.up_of_mem hc
    rw [NodeKind.mayHold_of_bare_eq (hf.bare p hold) (hf.bare c (lt_size_of_parent hup))]
    exact (h.shaped.takes hup).mayHold
  · rw [hf.matchFound] at hi
    cases hi
  · rw [hf.top] at hc
    rw [Array.mem_singleton.1 hc, hf.sequence.1, hf.top]
    rfl
  · rw [hf.sequence.1]
    refine NodeKind.mayHold_sequence fun hsequence ↦ ?_
    rw [hf.getElem?] at hi
    split at hi
    · next hlt =>
      cases hi
      have hkind := List.getElem?_eq_getElem (l := leadKinds full lead) (i := i)
        (by rwa [length_leadKinds])
      rw [hf.leadNode i _ hkind] at hsequence
      rcases of_getElem?_leadKinds hkind with ⟨j, -, heq, -⟩ | ⟨j, -, heq, -⟩ | heq <;>
        cases heq.symm.trans hsequence
    · split at hi
      · cases hi
        rw [NodeKind.eq_iff_of_bare_eq (hf.bare root h.lt) rfl rfl] at hsequence
        have hgroup := h.isGroup
        rw [hsequence] at hgroup
        cases hgroup
      · split at hi
        · cases hi
          rw [hf.matchFound] at hsequence
          cases hsequence
        · cases hi
  · rw [hf.leadNode j k hk] at hi
    cases hi

theorem lookBehind (hf : Framed a full root lead b) (h : Ready ok a root) {length : Nat}
    (hx : (b.node x).kind = .lookBehind length) :
    ∃ g s, (b.node x).children = #[g] ∧ (b.node g).children = #[s] ∧
      b.bodyOf x = (b.node s).children ∧ ∀ c ∈ b.bodyOf x, (b.node c).kind.isChars = true := by
  have hlookBehind : (b.node x).kind.isLookBehind = true := by rw [hx]; rfl
  have hlt := (hf.lt_of_isLookBehind hlookBehind).1
  have hkind := (NodeKind.eq_iff_of_bare_eq (hf.bare x hlt) rfl rfl).1 hx
  obtain ⟨g, s, hg, hs, -, hchars, hterms⟩ := h.shaped.exists_body hkind
  have hlt_of : ∀ {c p : Nat}, c ∈ (a.node p).children.toList → c < a.size := fun hc ↦
    lt_size_of_parent (h.shaped.forest.up_of_mem_toList hc)
  have hglt := hlt_of (hg ▸ List.mem_singleton_self g)
  have hslt := hlt_of (hs ▸ List.mem_singleton_self s)
  have hbody : b.bodyOf x = (b.node s).children := by
    rw [hf.bodyOf_old h hlookBehind, bodyOf, hterms, hf.children s hslt]
  refine ⟨g, s, ?_, ?_, hbody, fun c hc ↦ ?_⟩
  · rw [hf.children x hlt]
    exact Array.toList_inj.1 hg
  · rw [hf.children g hglt]
    exact Array.toList_inj.1 hs
  · rw [hbody, hf.children s hslt, ← Array.mem_toList_iff] at hc
    rw [NodeKind.isChars_of_bare_eq (hf.bare c (hlt_of hc))]
    exact hchars c hc

end Framed

theorem size_starts_finish (a : Arena) (encoding : Encoding) (root captureGroups : Nat) :
    (a.finish encoding root captureGroups).unanchored.size = a.reach root + 1 ∧
      (a.finish encoding root captureGroups).anchored.size = a.reach root + 1 := by
  obtain ⟨-, hun, han⟩ :=
    extended_leadIn (a := a.complete root) encoding.fullSet (a.reach root)
  rw [finish_eq]
  constructor
  · rw [hun]
    simp
  · rw [han]
    simp

/-- In a forest, the ways down and the ways up are the same. -/
theorem Forest.reachable_iff_below {t : Tree} (h : t.arena.Forest) {p x : Nat} :
    Relation.ReflTransGen t.Holding p x ↔ t.arena.Below x p := by
  have hswap : t.Holding = fun p c ↦ t.arena.Up c p := by
    funext p c
    exact propext h.mem_children_iff
  rw [hswap]
  exact Relation.reflTransGen_swap

theorem Ready.wellFormed (h : Ready ok a root) (hlooped : a.Looped) {captures : Nat}
    (hcaptures : a.CapturesBelow captures) (hpos : 0 < captures) (encoding : Encoding) :
    (a.finish encoding root captures).WellFormed := by
  have ht := h.finishedFrom encoding captures
  have hstarts := size_starts_finish a encoding root captures
  have hgroups : (a.finish encoding root captures).captureGroups = captures := by
    rw [finish_eq]
  generalize a.finish encoding root captures = t at *
  have hf := ht.framed
  have hregular := ht.regular h
  have hreach : ∀ {x : Nat}, t.Reachable x ↔ t.Holds x := hf.forest.reachable_iff_below
  have hlt : ∀ {x : Nat}, t.Holds x → x < t.size := by
    intro x hx
    refine Below.lt_size hx ?_
    rw [ht.wrappedRoot_eq, hf.size]
    omega
  constructor
  case lt_size => exact fun hx ↦ hlt (hreach.1 hx)
  case root_loose => exact hregular.wrappedRoot_loose
  case child => exact fun _ hc ↦ hf.forest.child hc
  case parent =>
    intro x hx hne
    rcases (hreach.1 hx).cases_head with rfl | ⟨p, hp, hpw⟩
    · exact absurd rfl hne
    · exact ⟨p, hreach.2 hpw, hp, hf.forest.parent hp⟩
  case acyclic =>
    intro x _ hcycle
    obtain ⟨y, hxy, hyx⟩ := Relation.TransGen.tail'_iff.1 hcycle
    exact hf.forest.not_below_parent (hf.forest.up_of_mem hyx) (hf.forest.reachable_iff_below.1 hxy)
  case reachable_iff =>
    intro x
    rw [hreach, Tree.isMarker, Bool.and_eq_true, decide_eq_true_eq, List.contains_iff_mem]
    constructor
    · exact fun hx ↦ ⟨hlt hx, (hf.forest.mem_ancestors (hlt hx)).2 hx⟩
    · exact fun ⟨hx, hmem⟩ ↦ (hf.forest.mem_ancestors hx).1 hmem
  case kinds => exact fun _ hc ↦ hf.mayHold h hc
  case top =>
    refine ⟨a.size + 2, ?_, ?_, ?_⟩
    · rw [ht.wrappedRoot_eq, Tree.node, hf.top]
    · rw [ht.wrappedRoot_eq, Tree.node, hf.top]
    · have hsize : (t.node (a.size + 2)).children.size = 3 * a.reach root + 4 := by
        have hlast := hf.getElem? (3 * a.reach root + 3)
        have hnone := hf.getElem? (3 * a.reach root + 4)
        rw [if_neg (by omega), if_neg (by omega), if_pos rfl] at hlast
        rw [if_neg (by omega), if_neg (by omega), if_neg (by omega)] at hnone
        have := (Array.getElem?_eq_some_iff.1 hlast).1
        have := Array.getElem?_eq_none_iff.1 hnone
        rw [Tree.node]
        omega
      rw [Array.back?, hsize, Tree.node, hf.getElem?, if_neg (by omega), if_neg (by omega),
        if_pos (by omega), ht.matchFound_eq]
  case matchFound_iff => exact hregular.matchFound_iff
  case lookBehind =>
    intro l length hl
    obtain ⟨g, s, hg, hs, hbody, hchars⟩ := hf.lookBehind h hl
    exact ⟨g, s, hg, hs, hbody, hf.size_bodyOf h hl, hchars⟩
  case loops => exact fun _ hx hloop ↦ hf.looped h hlooped hx hloop
  case lookBehindOf_iff =>
    intro x l
    rw [hreach, ← and_assoc, and_comm (a := t.Holds l), ← hregular.mem_lookBehinds]
    constructor
    · intro hl
      unfold Tree.lookBehindOf at hl
      split at hl
      · next set claim hkind => exact hregular.claims (hl ▸ hkind)
      · cases hl
    · rintro ⟨hl, hx⟩
      obtain ⟨-, set, hkind⟩ := hregular.body hl hx
      rw [Tree.lookBehindOf, hkind]
  case mem_lookBehinds =>
    intro l
    rw [hreach]
    exact hregular.mem_lookBehinds
  case captures =>
    intro x g _ hx
    rw [hgroups]
    exact hf.capturesBelow h hcaptures hpos hx
  case starts =>
    rw [ht.leadLength_eq]
    refine ⟨hstarts.1, hstarts.2, fun {lead anchored} hlead ↦ ?_⟩
    rw [← ht.leadLength_eq] at hlead
    exact ⟨hreach.2 (hregular.start_holds hlead), hregular.start_kind hlead⟩

end Arena

/-- The trees of patterns are well-formed. -/
theorem Tree.wellFormed_of_ofPattern {o : Options} {pattern : Bytes} {t : Tree}
    (ht : Tree.ofPattern o pattern = .ok t) : t.WellFormed := by
  obtain ⟨a, root, captures, hready, hlooped, hcaptures, hpos, rfl⟩ :=
    exists_whole_of_ofPattern ht
  exact hready.wellFormed hlooped hcaptures hpos o.encoding

end PatternAutomata
