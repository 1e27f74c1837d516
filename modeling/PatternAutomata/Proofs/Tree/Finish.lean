import PatternAutomata.Proofs.Pattern.Classes
import PatternAutomata.Proofs.Tree.Regular

/-!
# Finishing makes regular trees

Finishing reads off the nodes below the root in preorder, leaving out the bodies of look-behind
assertions. Nothing that is looked for stands in a body, so nothing is missed. Then the bodies are
claimed, and the root is wrapped.
-/

namespace PatternAutomata

namespace Arena

variable {ok : CodePointSet → Prop} {a b : Arena} {root x lookBehind : Nat}

/-! ## Below look-behind assertions -/

/-- The tree below a look-behind assertion: a group right below it, a sequence, and the classes of
the body. -/
theorem Shaped.below_cases (h : a.Shaped ok)
    (hlookBehind : (a.node lookBehind).kind.isLookBehind = true) (hx : a.Below x lookBehind) :
    x = lookBehind ∨ a.Up x lookBehind ∧ (a.node x).kind.isGroup = true ∨
      (a.node x).kind = .sequence ∨ x ∈ a.bodyOf lookBehind := by
  obtain ⟨length, hkind⟩ := NodeKind.isLookBehind_iff.1 hlookBehind
  obtain ⟨g, s, hg, hs, -, hchars, hterms⟩ := h.exists_body hkind
  have hchild : ∀ {c p : Nat}, a.Up c p → c ∈ (a.node p).children.toList := fun hup ↦
    Array.mem_toList_iff.2 (h.forest.mem_of_up hup)
  rcases hx.cases_tail with rfl | ⟨y, hxy, hbody⟩
  · exact .inl rfl
  have hy := hchild hbody
  rw [hg, List.mem_singleton] at hy
  subst hy
  have hgtakes := h.takes hbody
  rw [hkind] at hgtakes
  rcases hxy.cases_tail with rfl | ⟨z, hxz, hz⟩
  · exact .inr (.inl ⟨hbody, hgtakes⟩)
  have hz := hchild hz
  rw [hs, List.mem_singleton] at hz
  subst hz
  have hstakes := h.takes (h.forest.up_of_mem_toList (hs ▸ List.mem_singleton_self z))
  obtain ⟨gr, hgr⟩ := NodeKind.isGroup_iff.1 hgtakes
  rw [hgr] at hstakes
  rcases hxz.cases_tail with rfl | ⟨c, hxc, hc⟩
  · exact .inr (.inr (.inl hstakes))
  have hc := hchild hc
  rcases hxc.cases_tail with rfl | ⟨d, -, hd⟩
  · refine .inr (.inr (.inr ?_))
    rw [bodyOf, hterms]
    exact Array.mem_toList_iff.1 hc
  -- nothing is below a class
  · have htakes := h.takes hd
    obtain ⟨set, claim, hset⟩ := NodeKind.isChars_iff.1 (hchars c hc)
    rw [hset] at htakes
    exact htakes.elim

theorem Shaped.of_mem_bodyOf (h : a.Shaped ok)
    (hlookBehind : (a.node lookBehind).kind.isLookBehind = true) (hx : x ∈ a.bodyOf lookBehind) :
    (∃ s g, a.Up x s ∧ a.Up s g ∧ a.Up g lookBehind) ∧ (a.node x).kind.isChars = true := by
  obtain ⟨length, hkind⟩ := NodeKind.isLookBehind_iff.1 hlookBehind
  obtain ⟨g, s, hg, hs, -, hchars, hterms⟩ := h.exists_body hkind
  rw [bodyOf, hterms, ← Array.mem_toList_iff] at hx
  exact ⟨⟨s, g, h.forest.up_of_mem_toList hx,
    h.forest.up_of_mem_toList (hs ▸ List.mem_singleton_self s),
    h.forest.up_of_mem_toList (hg ▸ List.mem_singleton_self g)⟩, hchars x hx⟩

theorem Shaped.bodyOf_unique (h : a.Shaped ok) {lookBehind' : Nat}
    (hl : (a.node lookBehind).kind.isLookBehind = true)
    (hl' : (a.node lookBehind').kind.isLookBehind = true)
    (hx : x ∈ a.bodyOf lookBehind) (hx' : x ∈ a.bodyOf lookBehind') :
    lookBehind' = lookBehind := by
  obtain ⟨⟨s, g, hxs, hsg, hg⟩, -⟩ := h.of_mem_bodyOf hl hx
  obtain ⟨⟨s', g', hxs', hsg', hg'⟩, -⟩ := h.of_mem_bodyOf hl' hx'
  obtain rfl : s' = s := Option.some.inj (hxs'.symm.trans hxs)
  obtain rfl : g' = g := Option.some.inj (hsg'.symm.trans hsg)
  exact Option.some.inj (hg'.symm.trans hg)

/-! ## The nodes in preorder -/

theorem Alike.collectedBelow (h : Alike a b) (bodies : Bool) :
    b.collectedBelow bodies = a.collectedBelow bodies := by
  funext id
  rw [Arena.collectedBelow, Arena.collectedBelow, h.places.children,
    NodeKind.isLookBehind_of_core_eq (h.core id)]

/-- Preorder comes by all nodes below the root that are not within a look-behind assertion. -/
theorem Ready.reaches_iff (h : Ready ok a root) :
    Reaches (a.collectedBelow false) root x ↔ a.Below x root ∧
      ∀ y, (a.node y).kind.isLookBehind = true → a.Below x y → x = y := by
  have hforest := h.shaped.forest
  have hstep : ∀ {p c : Nat}, c ∈ a.collectedBelow false p ↔
      a.Up c p ∧ (a.node p).kind.isLookBehind = false := by
    intro p c
    unfold collectedBelow
    cases (a.node p).kind.isLookBehind with
    | true => simp
    | false => simp [hforest.mem_children_iff]
  constructor
  · intro hx
    induction hx with
    | refl =>
      refine ⟨.refl, fun y hy hbelow ↦ ?_⟩
      exact (hbelow.eq_of_loose h.loose).symm
    | @tail p c _ hc ih =>
      obtain ⟨hup, hout⟩ := hstep.1 hc
      refine ⟨.head hup ih.1, fun y hy hbelow ↦ ?_⟩
      rcases hbelow.eq_or_of_up hup with rfl | hpy
      · rfl
      · rw [ih.2 y hy hpy, hy] at hout
        cases hout
  · rintro ⟨hx, hout⟩
    induction hx using Relation.ReflTransGen.head_induction_on with
    | refl => exact .refl
    | @head x p hup _ ih =>
      have hp : (a.node p).kind.isLookBehind = false := by
        by_contra hne
        have heq := hout p (by simpa using hne) (.single hup)
        rw [heq] at hup
        exact hforest.not_below_parent hup .refl
      refine Relation.ReflTransGen.tail (ih fun y hy hbelow ↦ ?_) (hstep.2 ⟨hup, hp⟩)
      have heq := hout y hy (.head hup hbelow)
      exact absurd hbelow (heq ▸ hforest.not_below_parent hup)

/-! ## The stages of finishing -/

/-- The nodes of the pattern in preorder. -/
def order (a : Arena) (root : Nat) : Array Nat := (a.makeRoot root).preorder root

/-- The arena when everything is known that is worked out for single nodes. -/
def measured (a : Arena) (root : Nat) : Arena :=
  ((a.makeRoot root).setMinPaths (a.order root)).setNested root (a.order root)

def assertions (a : Arena) (root : Nat) : Array Nat :=
  (a.measured root).select (a.order root) fun n ↦ n.kind.isLookBehind

/-- The arena when the look-behind assertions have claimed their bodies. -/
def complete (a : Arena) (root : Nat) : Arena :=
  (a.assertions root).toList.foldl claimBody (a.measured root)

theorem alike_measured (a : Arena) (root : Nat) : Alike a (a.measured root) :=
  ((alike_makeRoot root).trans (alike_setMinPaths _)).trans (alike_setNested _ _)

namespace Ready

variable (h : Ready ok a root)
include h

theorem descent_order : (a.makeRoot root).Descent ((a.makeRoot root).collectedBelow false) root
    (a.order root).toList [] := by
  have halike : Alike a (a.makeRoot root) := alike_makeRoot root
  obtain ⟨visited, horder, hdescent⟩ :=
    exists_collect (halike.places.forest h.shaped.forest) false
      (halike.size ▸ h.lt : root < (a.makeRoot root).size)
  rwa [order, preorder, horder]

theorem mem_order : x ∈ a.order root ↔ a.Below x root ∧
    ∀ y, (a.node y).kind.isLookBehind = true → a.Below x y → x = y := by
  have hvisited := h.descent_order.mem_visited_iff (x := x)
  rw [(alike_makeRoot root).collectedBelow] at hvisited
  rw [← Array.mem_toList_iff, hvisited, h.reaches_iff]

/-- No node comes in front of one that it stands below. -/
theorem pairwise_order : (a.order root).toList.Pairwise fun x y ↦ ¬a.Below x y :=
  h.descent_order.order.imp fun hxy hbelow ↦ hxy ((alike_makeRoot root).places.below_iff.2 hbelow)

theorem nodup_order : (a.order root).toList.Nodup := by
  refine h.pairwise_order.imp ?_
  rintro x y hbelow rfl
  exact hbelow .refl

theorem mem_select {p : Node → Bool}
    (hp : ∀ n, p n = true → n.kind.isGroup = false ∧ n.kind ≠ .sequence ∧ n.kind.isChars = false) :
    x ∈ (a.measured root).select (a.order root) p ↔
      p ((a.measured root).node x) = true ∧ a.Below x root := by
  have hcore := (alike_measured a root).core x
  rw [select, Array.mem_filter, h.mem_order]
  constructor
  · rintro ⟨⟨hx, -⟩, hpx⟩
    exact ⟨hpx, hx⟩
  · rintro ⟨hpx, hx⟩
    obtain ⟨hgroup, hsequence, hchars⟩ := hp _ hpx
    rw [NodeKind.isGroup_of_core_eq hcore] at hgroup
    rw [NodeKind.isChars_of_core_eq hcore] at hchars
    refine ⟨⟨hx, fun y hy hbelow ↦ ?_⟩, hpx⟩
    rcases h.shaped.below_cases hy hbelow with heq | ⟨-, hx⟩ | hx | hx
    · exact heq
    · rw [hgroup] at hx; cases hx
    · rw [hx] at hcore
      exact absurd (NodeKind.core_eq_sequence hcore) hsequence
    · rw [(h.shaped.of_mem_bodyOf hy hx).2] at hchars
      cases hchars

theorem mem_assertions :
    x ∈ a.assertions root ↔ (a.node x).kind.isLookBehind = true ∧ a.Below x root := by
  rw [assertions, h.mem_select fun n hn ↦ ?_]
  · rw [NodeKind.isLookBehind_of_core_eq ((alike_measured a root).core x)]
  · obtain ⟨length, hkind⟩ := NodeKind.isLookBehind_iff.1 hn
    rw [hkind]
    exact ⟨rfl, nofun, rfl⟩

/-- The complete arena: places are what they were, and so is everything but captures, distances and
the claims of the assertions below the root. -/
theorem complete_spec :
    (a.complete root).size = a.size ∧ SamePlaces a (a.complete root) ∧
      ((∀ id ∈ a.assertions root, x ∉ a.bodyOf id) →
        (a.complete root).node x = (a.measured root).node x) ∧
      ∀ id ∈ a.assertions root, x ∈ a.bodyOf id →
        (a.complete root).node x = claimed id ((a.measured root).node x) := by
  have halike := alike_measured a root
  obtain ⟨hplaces, hsize, hout, hin⟩ :=
    @foldl_claimBody x (a.assertions root).toList (a.measured root)
  simp only [halike.places.bodyOf, Array.mem_toList_iff] at hout hin
  refine ⟨hsize.trans halike.size, halike.places.trans hplaces, hout, fun id hid hx ↦ ?_⟩
  exact hin id hid hx fun id' hid' hx' ↦
    h.shaped.bodyOf_unique (h.mem_assertions.1 hid).1 (h.mem_assertions.1 hid').1 hx hx'

theorem bare_complete : ((a.complete root).node x).kind.bare = (a.node x).kind.bare := by
  obtain ⟨-, -, hout, hin⟩ := h.complete_spec (x := x)
  have hcore := NodeKind.bare_eq_of_core_eq ((alike_measured a root).core x)
  by_cases hbody : ∃ id ∈ a.assertions root, x ∈ a.bodyOf id
  · obtain ⟨id, hid, hmem⟩ := hbody
    rw [hin id hid hmem, ← hcore, claimed]
    split
    · next hkind => rw [hkind]; rfl
    · rfl
  · push Not at hbody
    rw [hout hbody, hcore]

theorem minPath_complete :
    ((a.complete root).node x).minPath = ((a.measured root).node x).minPath := by
  obtain ⟨-, -, hout, hin⟩ := h.complete_spec (x := x)
  by_cases hbody : ∃ id ∈ a.assertions root, x ∈ a.bodyOf id
  · obtain ⟨id, hid, hmem⟩ := hbody
    rw [hin id hid hmem, (claimed_places id _).2.2.2]
  · push Not at hbody
    rw [hout hbody]

/-- A class keeps its set, and it is claimed by the assertion in whose body it is, if the assertion
belongs to the pattern. -/
theorem kind_complete_of_chars {set : CodePointSet} {claim : Option Nat}
    (hx : (a.node x).kind = .chars set claim) :
    (∃ id ∈ a.assertions root, x ∈ a.bodyOf id ∧
        ((a.complete root).node x).kind = .chars set (some id)) ∨
      (∀ id ∈ a.assertions root, x ∉ a.bodyOf id) ∧
        ((a.complete root).node x).kind = .chars set none := by
  obtain ⟨rfl, -⟩ := h.shaped.chars hx
  obtain ⟨-, -, hout, hin⟩ := h.complete_spec (x := x)
  have hcore := (alike_measured a root).core x
  rw [hx] at hcore
  have hmeasured := NodeKind.core_eq_chars hcore
  by_cases hbody : ∃ id ∈ a.assertions root, x ∈ a.bodyOf id
  · obtain ⟨id, hid, hmem⟩ := hbody
    refine .inl ⟨id, hid, hmem, ?_⟩
    rw [hin id hid hmem, claimed, hmeasured]
  · push Not at hbody
    refine .inr ⟨hbody, ?_⟩
    rw [hout hbody, hmeasured]

end Ready

/-! ## Finished trees -/

/-- The length of the lead-in. -/
def reach (a : Arena) (root : Nat) : Nat :=
  (a.assertions root).foldl (fun longest id ↦ max longest ((a.measured root).reachBack id)) 0

theorem finish_eq (a : Arena) (encoding : Encoding) (root captureGroups : Nat) :
    a.finish encoding root captureGroups = {
      arena := (a.complete root).wrap encoding.fullSet root (a.reach root)
      encoding, root, captureGroups
      wrappedRoot := (a.complete root).size + 1
      matchFound := (a.complete root).size
      leadLength := a.reach root
      carets := (a.measured root).select (a.order root) fun n ↦ n.kind == .caret && n.minPath == 0
      dollars := (a.measured root).select (a.order root) fun n ↦ n.kind == .dollar
      lookBehinds := a.assertions root
      unanchored :=
        ((a.complete root).leadIn encoding.fullSet (a.reach root)).unanchored.toArray
      anchored := ((a.complete root).leadIn encoding.fullSet (a.reach root)).anchored.toArray
      hardPrefix := .ofList ((a.complete root).wrap encoding.fullSet root (a.reach root)).size
        ((a.complete root).leadIn encoding.fullSet (a.reach root)).classes } := by
  have hclaims : (a.assertions root).foldl claimBody (a.measured root) = a.complete root := by
    rw [complete, Array.foldl_toList]
  rw [← hclaims]
  rfl

theorem start_finish (h : Ready ok a root) (encoding : Encoding) (captureGroups : Nat)
    {anchored : Bool} {lead : Nat} (hlead : lead ≤ a.reach root) :
    (a.finish encoding root captureGroups).start anchored lead =
      a.size + 3 + (3 * (a.reach root - lead) + if anchored then 1 else 0) := by
  obtain ⟨hsize, -⟩ := h.complete_spec (x := 0)
  obtain ⟨-, hun, han⟩ :=
    extended_leadIn (a := a.complete root) encoding.fullSet (a.reach root)
  have hget : ∀ (f : Nat → Nat),
      ((List.range (a.reach root + 1)).map f).toArray.getD lead 0 = f lead := by
    intro f
    rw [Array.getD_eq_getD_getElem?, List.getElem?_toArray,
      List.getElem?_map, List.getElem?_range (by omega)]
    rfl
  rw [finish_eq]
  cases anchored with
  | false =>
    rw [Tree.start, if_neg Bool.false_ne_true, hun, hget]
    simp [hsize]
  | true =>
    rw [Tree.start, if_pos rfl, han, hget]
    simp [hsize]
    omega

/-- The arena of a finished tree, node by node. -/
structure Framed (a : Arena) (full : CodePointSet) (root lead : Nat) (b : Arena) : Prop where
  forest : b.Forest
  size : b.size = a.size + 3 + (3 * lead + 2)
  kind : ∀ x < a.size, (b.node x).kind = ((a.complete root).node x).kind
  bare : ∀ x < a.size, (b.node x).kind.bare = (a.node x).kind.bare
  minPath : ∀ x < a.size, (b.node x).minPath = ((a.measured root).node x).minPath
  children : ∀ x < a.size, (b.node x).children = (a.node x).children
  below : ∀ x < a.size, ∀ y, b.Below x y ↔
    a.Below x y ∨ a.Below x root ∧ (y = a.size + 2 ∨ y = a.size + 1)
  rootUp : b.Up root (a.size + 2) ∧ (b.node root).index = 3 * lead + 2
  matchFound : b.node a.size =
    { kind := .matchFound, parent := some (a.size + 2), index := 3 * lead + 3 }
  top : b.node (a.size + 1) = { kind := .group {}, children := #[a.size + 2] }
  sequence : (b.node (a.size + 2)).kind = .sequence ∧ b.Up (a.size + 2) (a.size + 1)
  getElem? : ∀ i, (b.node (a.size + 2)).children[i]? =
    if i < 3 * lead + 2 then some (a.size + 3 + i)
    else if i = 3 * lead + 2 then some root
    else if i = 3 * lead + 3 then some a.size else none
  leadNode : ∀ i k, (leadKinds full lead)[i]? = some k → b.node (a.size + 3 + i) =
    { kind := k, parent := some (a.size + 2), index := i }

theorem Ready.framed (h : Ready ok a root) (full : CodePointSet) (lead : Nat) :
    Framed a full root lead ((a.complete root).wrap full root lead) := by
  obtain ⟨hsize, hplaces, -⟩ := h.complete_spec (x := 0)
  have hforest := hplaces.forest h.shaped.forest
  have hloose : ((a.complete root).node root).parent = none := by rw [hplaces.parent, h.loose]
  have hroot : root < (a.complete root).size := hsize ▸ h.lt
  have hw : Wrapped (a.complete root) full root lead ((a.complete root).wrap full root lead) :=
    wrapped_wrap hroot
  have htforest := hw.forest hforest hroot hloose
  have hgetElem := hw.getElem?_sequence
  obtain ⟨hwsize, hold, hrootNode, hmatch, htop, hsequence, hlead⟩ := id hw
  rw [hsize] at hwsize hmatch htop hsequence hlead hgetElem
  refine ⟨htforest, hwsize, fun x hx ↦ (hw.kind_old (hsize ▸ hx)).1, fun x hx ↦ ?_,
    fun x hx ↦ ?_, fun x hx ↦ ?_, fun x hx y ↦ ?_, ⟨?_, ?_⟩, hmatch, htop, ⟨?_, ?_⟩, hgetElem,
    hlead⟩
  · rw [← h.bare_complete]
    exact congrArg NodeKind.bare (hw.kind_old (hsize ▸ hx)).1
  · rw [(hw.kind_old (hsize ▸ hx)).2.2, h.minPath_complete]
  · exact ((hw.kind_old (hsize ▸ hx)).2.1).trans (hplaces.children _)
  · have := hw.below_old hforest hloose (x := x) (y := y) (hsize ▸ hx)
    rwa [hplaces.below_iff, hplaces.below_iff, hsize] at this
  · rw [Up, hrootNode, hsize]
  · rw [hrootNode]
  · rw [hsequence]
  · rw [Up, hsequence]

namespace Framed

variable {full : CodePointSet} {lead : Nat}

theorem cases_lt (h : Framed a full root lead b) (hx : x < b.size) :
    x < a.size ∨ x = a.size ∨ x = a.size + 1 ∨ x = a.size + 2 ∨
      ∃ i k, x = a.size + 3 + i ∧ (leadKinds full lead)[i]? = some k := cases_of_size h.size hx

theorem up_old (hf : Framed a full root lead b) (h : Ready ok a root) {c p : Nat}
    (hp : p < a.size) (hup : b.Up c p) : a.Up c p := by
  have hmem := hf.forest.mem_of_up hup
  rw [hf.children p hp] at hmem
  exact h.shaped.forest.up_of_mem hmem

theorem lt_of_below_old (hf : Framed a full root lead b) (h : Ready ok a root) {y : Nat}
    (hy : y < a.size) (hxy : b.Below x y) : x < a.size := by
  induction hxy using Relation.ReflTransGen.head_induction_on with
  | refl => exact hy
  | head hup _ ih => exact lt_size_of_parent (hf.up_old h ih hup)

theorem below_old (hf : Framed a full root lead b) {y : Nat} (hx : x < a.size) (hy : y < a.size) :
    b.Below x y ↔ a.Below x y := by
  rw [hf.below x hx]
  exact ⟨fun hxy ↦ hxy.resolve_right (by omega), .inl⟩

theorem holds_old (hf : Framed a full root lead b) (h : Ready ok a root) (hx : x < a.size) :
    b.Below x (a.size + 1) ↔ a.Below x root := by
  rw [hf.below x hx]
  constructor
  · rintro (hy | ⟨hy, -⟩)
    · exact absurd (h.shaped.forest.lt_of_below hy hx) (by omega)
    · exact hy
  · exact fun hy ↦ .inr ⟨hy, .inr rfl⟩

theorem holds_of_up (hf : Framed a full root lead b) (hx : b.Up x (a.size + 2)) :
    b.Below x (a.size + 1) :=
  .head hx (.single hf.sequence.2)

theorem kind_cases (hf : Framed a full root lead b) {k : NodeKind} (hx : (b.node x).kind = k)
    (hsequence : k ≠ .sequence) :
    x < a.size ∨ x = a.size ∧ k = .matchFound ∨ x = a.size + 1 ∧ k = .group {} ∨
      (∃ anchored, ∃ j ≤ lead, k = .marker anchored j ∧
        x = a.size + 3 + (3 * (lead - j) + if anchored then 1 else 0)) ∨ k = .chars full none := by
  subst hx
  have hlt : x < b.size := lt_size_of_node_ne fun hd ↦ hsequence (by rw [hd]; rfl)
  rcases hf.cases_lt hlt with hold | rfl | rfl | rfl | ⟨i, k, rfl, hk⟩
  · exact .inl hold
  · exact .inr (.inl ⟨rfl, by rw [hf.matchFound]⟩)
  · exact .inr (.inr (.inl ⟨rfl, by rw [hf.top]⟩))
  · exact absurd hf.sequence.1 hsequence
  · rw [hf.leadNode i k hk]
    refine .inr (.inr (.inr ?_))
    rcases of_getElem?_leadKinds hk with ⟨j, hj, rfl, rfl⟩ | ⟨j, hj, rfl, rfl⟩ | rfl
    · exact .inl ⟨false, j, hj, rfl, rfl⟩
    · exact .inl ⟨true, j, hj, rfl, rfl⟩
    · exact .inr rfl

/-- New nodes are no terms and no sequences, save for the sequence at the top, the group above it
and the classes of the lead-in. -/
theorem lt_of_kind (hf : Framed a full root lead b) {k : NodeKind} (hx : (b.node x).kind = k)
    (hsequence : k ≠ .sequence) (hgroup : k.isGroup = false) (hchars : k.isChars = false)
    (hmatch : k ≠ .matchFound) (hmarker : ∀ anchored i, k ≠ .marker anchored i) :
    x < a.size := by
  rcases hf.kind_cases hx hsequence with hold | ⟨-, rfl⟩ | ⟨-, rfl⟩ | ⟨_, _, -, rfl, -⟩ | rfl
  · exact hold
  · exact absurd rfl hmatch
  · cases hgroup
  · exact absurd rfl (hmarker _ _)
  · cases hchars

theorem lt_of_isLookBehind (hf : Framed a full root lead b)
    (hx : (b.node x).kind.isLookBehind = true) :
    x < a.size ∧ (a.node x).kind.isLookBehind = true := by
  obtain ⟨length, hkind⟩ := NodeKind.isLookBehind_iff.1 hx
  have hlt := hf.lt_of_kind hkind nofun rfl rfl nofun nofun
  exact ⟨hlt, by rw [← NodeKind.isLookBehind_of_bare_eq (hf.bare x hlt), hx]⟩

theorem bodyOf_old (hf : Framed a full root lead b) (h : Ready ok a root)
    (hx : (b.node x).kind.isLookBehind = true) : b.bodyOf x = a.bodyOf x := by
  obtain ⟨hlt, hx⟩ := hf.lt_of_isLookBehind hx
  obtain ⟨length, hkind⟩ := NodeKind.isLookBehind_iff.1 hx
  obtain ⟨g, s, hg, hs, -⟩ := h.shaped.exists_body hkind
  have hsg : a.Up s g := h.shaped.forest.up_of_mem_toList (hs ▸ List.mem_singleton_self s)
  rw [bodyOf, bodyOf, hf.children x hlt, getD_zero_of_toList hg, Arena.bodyTerms, Arena.bodyTerms,
    hf.children g (h.shaped.forest.parent_lt hsg), getD_zero_of_toList hs,
    hf.children s (lt_size_of_parent hsg)]

theorem size_bodyOf (hf : Framed a full root lead b) (h : Ready ok a root) {length : Nat}
    (hx : (b.node x).kind = .lookBehind length) : (b.bodyOf x).size = length := by
  have hlookBehind : (b.node x).kind.isLookBehind = true := by rw [hx]; rfl
  have hlt := (hf.lt_of_isLookBehind hlookBehind).1
  have hkind := (NodeKind.eq_iff_of_bare_eq (hf.bare x hlt) rfl rfl).1 hx
  obtain ⟨-, s, -, -, hlength, -, hterms⟩ := h.shaped.exists_body hkind
  rw [hf.bodyOf_old h hlookBehind, bodyOf, hterms, ← Array.length_toList, hlength]

theorem sequences (hf : Framed a full root lead b) (h : Ready ok a root) {c p : Nat} {g : Group}
    (hup : b.Up c p) (hp : (b.node p).kind = .group g) : (b.node c).kind = .sequence := by
  rcases hf.kind_cases hp nofun with hold | ⟨-, hk⟩ | ⟨rfl, -⟩ | ⟨_, _, -, hk, -⟩ | hk
  · have hupa := hf.up_old h hold hup
    have htakes := h.shaped.takes hupa
    obtain ⟨g', hg'⟩ := NodeKind.isGroup_iff.1
      ((NodeKind.isGroup_of_bare_eq (hf.bare p hold)).symm.trans (by rw [hp]; rfl))
    rw [hg'] at htakes
    exact (NodeKind.eq_iff_of_bare_eq (hf.bare c (lt_size_of_parent hupa)) rfl rfl).2 htakes
  · cases hk
  · have hmem := hf.forest.mem_of_up hup
    rw [hf.top] at hmem
    rw [Array.mem_singleton.1 hmem]
    exact hf.sequence.1
  · cases hk
  · cases hk

theorem inner (hf : Framed a full root lead b) (h : Ready ok a root) (hx : x < a.size) :
    (b.node x).kind.isTerm = true ∨ (b.node x).kind = .sequence := by
  rw [NodeKind.isTerm_of_bare_eq (hf.bare x hx),
    NodeKind.eq_iff_of_bare_eq (hf.bare x hx) rfl rfl]
  exact h.shaped.kinds x

theorem mem_lookBehinds (hf : Framed a full root lead b) (h : Ready ok a root) :
    x ∈ a.assertions root ↔ (b.node x).kind.isLookBehind = true ∧ b.Below x (a.size + 1) := by
  rw [h.mem_assertions]
  constructor
  · rintro ⟨hkind, hx⟩
    have hlt : x < a.size := by
      refine lt_size_of_node_ne fun hd ↦ ?_
      rw [hd] at hkind
      cases hkind
    rw [NodeKind.isLookBehind_of_bare_eq (hf.bare x hlt)]
    exact ⟨hkind, (hf.holds_old h hlt).2 hx⟩
  · rintro ⟨hkind, hx⟩
    obtain ⟨hlt, hkind⟩ := hf.lt_of_isLookBehind hkind
    exact ⟨hkind, (hf.holds_old h hlt).1 hx⟩

theorem mem_select_iff (hf : Framed a full root lead b) (h : Ready ok a root) {k : NodeKind}
    (hk : k = .caret ∨ k = .dollar) (q : Node → Bool) :
    x ∈ (a.measured root).select (a.order root) (fun n ↦ n.kind == k && q n) ↔
      (b.node x).kind = k ∧ b.Below x (a.size + 1) ∧ q ((a.measured root).node x) = true := by
  have hcore := (alike_measured a root).core x
  have hplain : k.isGroup = false ∧ k ≠ .sequence ∧ k.isChars = false := by
    rcases hk with rfl | rfl <;> exact ⟨rfl, nofun, rfl⟩
  have hiff : ∀ _ : x < a.size,
      (b.node x).kind = k ↔ ((a.measured root).node x).kind = k := by
    intro hx
    have hbare := (hf.bare x hx).trans (NodeKind.bare_eq_of_core_eq hcore).symm
    exact NodeKind.eq_iff_of_bare_eq hbare hplain.1 hplain.2.2
  rw [h.mem_select fun n hn ↦ by
    rw [Bool.and_eq_true, beq_iff_eq] at hn
    rw [hn.1]
    exact hplain]
  rw [Bool.and_eq_true, beq_iff_eq]
  constructor
  · rintro ⟨⟨hkind, hqx⟩, hx⟩
    have hlt : x < (a.measured root).size := by
      refine lt_size_of_node_ne fun hd ↦ hplain.2.1 ?_
      rw [← hkind, hd]
      rfl
    rw [(alike_measured a root).size] at hlt
    exact ⟨(hiff hlt).2 hkind, (hf.holds_old h hlt).2 hx, hqx⟩
  · rintro ⟨hkind, hx, hqx⟩
    have hlt : x < a.size := by
      rcases hk with rfl | rfl <;> exact hf.lt_of_kind hkind nofun rfl rfl nofun nofun
    exact ⟨⟨(hiff hlt).1 hkind, hqx⟩, (hf.holds_old h hlt).1 hx⟩

theorem body (hf : Framed a full root lead b) (h : Ready ok a root) {id : Nat}
    (hid : id ∈ a.assertions root) (hx : x ∈ b.bodyOf id) :
    (b.Below x id ∧ x ≠ id) ∧ ∃ set, (b.node x).kind = .chars set (some id) := by
  have hkind := ((hf.mem_lookBehinds h).1 hid).1
  rw [hf.bodyOf_old h hkind] at hx
  obtain ⟨hidlt, hkinda⟩ := hf.lt_of_isLookBehind hkind
  obtain ⟨⟨s, g, hxs, hsg, hg⟩, hchars⟩ := h.shaped.of_mem_bodyOf hkinda hx
  have hlt := lt_size_of_parent hxs
  have hbelow : a.Below x id := .head hxs (.head hsg (.single hg))
  refine ⟨⟨(hf.below_old hlt hidlt).2 hbelow, ?_⟩, ?_⟩
  · rintro rfl
    exact h.shaped.forest.not_below_parent hxs (.head hsg (.single hg))
  · obtain ⟨set, claim, hset⟩ := NodeKind.isChars_iff.1 hchars
    rw [hf.kind x hlt]
    rcases h.kind_complete_of_chars hset with ⟨id', hid', hx', hkind'⟩ | ⟨hnone, -⟩
    · have hkinda' := (h.mem_assertions.1 hid').1
      obtain rfl := h.shaped.bodyOf_unique hkinda hkinda' hx hx'
      exact ⟨set, hkind'⟩
    · exact absurd hx (hnone id hid)

theorem kind_chars (hf : Framed a full root lead b) (h : Ready ok a root) {set : CodePointSet}
    {claim : Option Nat} (hx : (b.node x).kind = .chars set claim) :
    (claim = none ∧ set = full) ∨ ok set ∧
      ∀ id, claim = some id → id ∈ a.assertions root ∧ x ∈ b.bodyOf id := by
  rcases hf.kind_cases hx nofun with hold | ⟨-, hk⟩ | ⟨-, hk⟩ | ⟨_, _, -, hk, -⟩ | hk
  · right
    rw [hf.kind x hold] at hx
    have hchars : (a.node x).kind.isChars = true := by
      rw [← NodeKind.isChars_of_bare_eq h.bare_complete, hx]
      rfl
    obtain ⟨set', claim', hset⟩ := NodeKind.isChars_iff.1 hchars
    rcases h.kind_complete_of_chars hset with ⟨id, hid, hmem, hkind⟩ | ⟨-, hkind⟩
    · cases hx.symm.trans hkind
      refine ⟨(h.shaped.chars hset).2, fun id' heq ↦ ?_⟩
      cases heq
      rw [hf.bodyOf_old h ((hf.mem_lookBehinds h).1 hid).1]
      exact ⟨hid, hmem⟩
    · cases hx.symm.trans hkind
      exact ⟨(h.shaped.chars hset).2, nofun⟩
  · cases hk
  · cases hk
  · cases hk
  · cases hk
    exact .inl ⟨rfl, rfl⟩

theorem below_lookBehind (hf : Framed a full root lead b) (h : Ready ok a root) {id : Nat}
    (hxid : b.Below x id) (hid : (b.node id).kind.isLookBehind = true) :
    x = id ∨ (b.node x).kind.isGroup = true ∨ (b.node x).kind = .sequence ∨ x ∈ b.bodyOf id := by
  obtain ⟨hidlt, hida⟩ := hf.lt_of_isLookBehind hid
  have hlt := hf.lt_of_below_old h hidlt hxid
  rw [NodeKind.isGroup_of_bare_eq (hf.bare x hlt), hf.bodyOf_old h hid,
    NodeKind.eq_iff_of_bare_eq (hf.bare x hlt) rfl rfl]
  exact (h.shaped.below_cases hida ((hf.below_old hlt hidlt).1 hxid)).imp_right
    (Or.imp_left And.right)

theorem matchFound_iff (hf : Framed a full root lead b) (h : Ready ok a root) :
    (b.node x).kind = .matchFound ↔ x = a.size := by
  constructor
  · intro hx
    rcases hf.kind_cases hx nofun with hold | ⟨rfl, -⟩ | ⟨-, hk⟩ | ⟨_, _, -, hk, -⟩ | hk
    · rcases hf.inner h hold with hterm | hterm <;> rw [hx] at hterm <;> cases hterm
    · rfl
    · cases hk
    · cases hk
    · cases hk
  · rintro rfl
    rw [hf.matchFound]

theorem marker (hf : Framed a full root lead b) (h : Ready ok a root) {anchored : Bool} {j : Nat}
    (hx : (b.node x).kind = .marker anchored j) :
    j ≤ lead ∧ x = a.size + 3 + (3 * (lead - j) + if anchored then 1 else 0) := by
  rcases hf.kind_cases hx nofun with hold | ⟨-, hk⟩ | ⟨-, hk⟩ | ⟨_, _, hj, hk, heq⟩ | hk
  · rcases hf.inner h hold with hterm | hterm <;> rw [hx] at hterm <;> cases hterm
  · cases hk
  · cases hk
  · cases hk
    exact ⟨hj, heq⟩
  · cases hk

theorem node_start (hf : Framed a full root lead b) (anchored : Bool) {j : Nat} (hj : j ≤ lead) :
    b.node (a.size + 3 + (3 * (lead - j) + if anchored then 1 else 0)) =
      { kind := .marker anchored j, parent := some (a.size + 2),
        index := 3 * (lead - j) + if anchored then 1 else 0 } := by
  obtain ⟨hun, han, -⟩ := @getElem?_leadKinds full lead j hj
  cases anchored with
  | false => exact hf.leadNode _ _ hun
  | true => exact hf.leadNode _ _ han

theorem follows_of_up (hf : Framed a full root lead b) {y : Nat} (hx : b.Up x (a.size + 2))
    (hy : (b.node (a.size + 2)).children[(b.node x).index + 1]? = some y) : b.Follows x y :=
  ⟨a.size + 2, hx, hf.sequence.1, hy⟩

theorem start_follows (hf : Framed a full root lead b) {j : Nat} (hj : j ≤ lead) :
    b.Follows (a.size + 3 + (3 * (lead - j) + if false then 1 else 0))
      (a.size + 3 + (3 * (lead - j) + if true then 1 else 0)) := by
  have hnode := hf.node_start false hj
  refine hf.follows_of_up (by rw [Up, hnode]) ?_
  rw [hnode, hf.getElem?, if_pos (by rw [if_neg Bool.false_ne_true]; dsimp only; omega)]
  simp

theorem lead_follows (hf : Framed a full root lead b) {j : Nat} (hj : j < lead) :
    ∃ p, b.Follows (a.size + 3 + (3 * (lead - (j + 1)) + if true then 1 else 0)) p ∧
      (b.node p).kind = .chars full none ∧
      b.Follows p (a.size + 3 + (3 * (lead - j) + if false then 1 else 0)) := by
  have hlt : 3 * (lead - (j + 1)) + 3 = 3 * (lead - j) := by omega
  have hkind := (@getElem?_leadKinds full _ _ (Nat.succ_le_of_lt hj)).2.2 (Nat.succ_pos _)
  have hnode := hf.leadNode _ _ hkind
  refine ⟨_, ?_, congrArg Node.kind hnode, ?_⟩
  · have hnode := hf.node_start true (Nat.succ_le_of_lt hj)
    refine hf.follows_of_up (by rw [Up, hnode]) ?_
    rw [hnode, hf.getElem?, if_pos (by simp; omega)]
    simp
  · refine hf.follows_of_up (by rw [Up, hnode]) ?_
    rw [hnode, hf.getElem?, if_pos (by simp; omega), Nat.add_assoc (3 * _), hlt]
    simp

theorem root_follows (hf : Framed a full root lead b) :
    b.Follows (a.size + 3 + (3 * (lead - 0) + if true then 1 else 0)) root := by
  have hnode := hf.node_start true (Nat.zero_le lead)
  refine hf.follows_of_up (by rw [Up, hnode]) ?_
  rw [hnode, hf.getElem?, if_neg (by simp), if_pos (by simp)]

theorem matchFound_follows (hf : Framed a full root lead b) : b.Follows root a.size := by
  refine hf.follows_of_up hf.rootUp.1 ?_
  rw [hf.rootUp.2, hf.getElem?, if_neg (by omega), if_neg (by omega), if_pos rfl]

end Framed

/-- What a tree has been finished from. -/
structure FinishedFrom (a : Arena) (root : Nat) (t : Tree) : Prop where
  framed : Framed a t.encoding.fullSet root (a.reach root) t.arena
  root_eq : t.root = root
  wrappedRoot_eq : t.wrappedRoot = a.size + 1
  matchFound_eq : t.matchFound = a.size
  leadLength_eq : t.leadLength = a.reach root
  lookBehinds_eq : t.lookBehinds = a.assertions root
  dollars_eq : t.dollars = (a.measured root).select (a.order root) fun n ↦ n.kind == .dollar
  carets_eq : t.carets =
    (a.measured root).select (a.order root) fun n ↦ n.kind == .caret && n.minPath == 0
  start_eq : ∀ {anchored : Bool} {lead : Nat}, lead ≤ a.reach root → t.start anchored lead =
    a.size + 3 + (3 * (a.reach root - lead) + if anchored then 1 else 0)

theorem Ready.finishedFrom (h : Ready ok a root) (encoding : Encoding) (captureGroups : Nat) :
    FinishedFrom a root (a.finish encoding root captureGroups) := by
  obtain ⟨hsize, -⟩ := h.complete_spec (x := 0)
  have hstart := @start_finish ok a root h encoding captureGroups
  rw [finish_eq] at hstart ⊢
  exact ⟨h.framed _ _, rfl, congrArg (· + 1) hsize, hsize, rfl, rfl, rfl, rfl, hstart⟩

theorem FinishedFrom.regular {t : Tree} (ht : FinishedFrom a root t) (h : Ready ok a root) :
    t.Regular ok := by
  have hf := ht.framed
  have hholds : ∀ {x : Nat}, t.Holds x ↔ t.arena.Below x (a.size + 1) := fun {x} ↦ by
    rw [Tree.Holds, ht.wrappedRoot_eq]
  constructor
  case forest => exact hf.forest
  case fits => exact fun id length hid ↦ hf.size_bodyOf h hid
  case sequences => exact fun hup hp ↦ hf.sequences h hup hp
  case inner =>
    intro x hx
    rw [ht.root_eq] at hx
    exact hf.inner h (hf.lt_of_below_old h h.lt hx)
  case root_group =>
    rw [ht.root_eq]
    exact (NodeKind.isGroup_of_bare_eq (hf.bare root h.lt)).trans h.isGroup
  case root_holds =>
    rw [hholds, ht.root_eq]
    exact (hf.holds_old h h.lt).2 .refl
  case wrappedRoot_group => rw [ht.wrappedRoot_eq, Tree.node, hf.top]; rfl
  case wrappedRoot_loose => rw [ht.wrappedRoot_eq, Tree.node, hf.top]
  case mem_lookBehinds =>
    intro x
    rw [hholds, ht.lookBehinds_eq]
    exact hf.mem_lookBehinds h
  case nodup_lookBehinds =>
    have hnodup := h.nodup_order.filter fun id ↦ ((a.measured root).node id).kind.isLookBehind
    rw [ht.lookBehinds_eq]
    rwa [← Array.toList_filter] at hnodup
  case mem_dollars =>
    intro x
    have hmem := hf.mem_select_iff h (x := x) (.inr rfl) fun _ ↦ true
    simp only [Bool.and_true, and_true] at hmem
    rw [hholds, ht.dollars_eq]
    exact hmem
  case mem_carets =>
    -- distances are as they were when the carets were selected
    intro x
    have hmem := hf.mem_select_iff h (x := x) (.inl rfl) fun n ↦ n.minPath == 0
    rw [hholds, ht.carets_eq, hmem, beq_iff_eq]
    refine and_congr_right fun hkind ↦ and_congr_right fun _ ↦ ?_
    have hlt : x < a.size := hf.lt_of_kind hkind nofun rfl rfl nofun nofun
    rw [← hf.minPath x hlt]
    exact Iff.rfl
  case body =>
    intro x l hl hx
    rw [ht.lookBehinds_eq] at hl
    exact hf.body h hl hx
  case claims =>
    intro x l set hx
    rw [ht.lookBehinds_eq]
    rcases hf.kind_chars h hx with ⟨hnone, -⟩ | ⟨-, hclaim⟩
    · cases hnone
    · exact hclaim _ rfl
  case below_lookBehind => exact fun hxl hl ↦ hf.below_lookBehind h hxl hl
  case matchFound_iff =>
    intro x
    rw [ht.matchFound_eq]
    exact hf.matchFound_iff h
  case matchFound_holds =>
    rw [hholds, ht.matchFound_eq]
    exact hf.holds_of_up (by rw [Up, hf.matchFound])
  case start_kind =>
    intro anchored lead hlead
    rw [ht.leadLength_eq] at hlead
    rw [ht.start_eq hlead, Tree.node, hf.node_start anchored hlead]
  case start_holds =>
    intro anchored lead hlead
    rw [ht.leadLength_eq] at hlead
    rw [hholds, ht.start_eq hlead]
    refine hf.holds_of_up ?_
    rw [Up, hf.node_start anchored hlead]
  case marker =>
    intro x lead anchored hx
    obtain ⟨hlead, heq⟩ := hf.marker h hx
    exact ⟨ht.leadLength_eq ▸ hlead, by rw [ht.start_eq hlead]; exact heq⟩
  case start_follows =>
    intro lead hlead
    rw [ht.leadLength_eq] at hlead
    rw [ht.start_eq hlead, ht.start_eq hlead]
    exact hf.start_follows hlead
  case lead_follows =>
    intro lead hlead
    rw [ht.leadLength_eq] at hlead
    rw [ht.start_eq (Nat.succ_le_of_lt hlead), ht.start_eq (Nat.le_of_lt hlead)]
    exact hf.lead_follows hlead
  case root_follows =>
    rw [ht.start_eq (Nat.zero_le _), ht.root_eq]
    exact hf.root_follows
  case matchFound_follows =>
    rw [ht.matchFound_eq, ht.root_eq]
    exact hf.matchFound_follows
  case chars =>
    intro x set claim hx
    rcases hf.kind_chars h hx with ⟨-, hfull⟩ | ⟨hok, -⟩
    · exact .inr hfull
    · exact .inl hok

end Arena

/-- **Finished trees are regular.** -/
theorem Tree.Finished.regular {t : Tree} (h : t.Finished) : t.Regular fun _ ↦ True := by
  obtain ⟨a, encoding, root, captures, hready, rfl⟩ := h.ready
  exact (hready.finishedFrom encoding captures).regular hready

theorem Atom.plain_of_chars {ok : CodePointSet → Prop} {atom : Atom} {encoding : Encoding}
    (h : ∀ set claim, atom.kind encoding = .chars set claim → ok set) :
    (atom.kind encoding).Plain ok := by
  cases hkind : atom.kind encoding with
  | chars set claim =>
    refine ⟨?_, h set claim hkind⟩
    cases atom <;> cases hkind <;> rfl
  | _ => cases atom <;> cases hkind <;> trivial

theorem Atom.plain_kind (atom : Atom) (encoding : Encoding) :
    (atom.kind encoding).Plain encoding.Fits :=
  plain_of_chars fun _ _ ↦ Atom.fits_kind

/-- The tree of a pattern is finished from a builder of good shape, which has every property that
taking an event keeps. -/
theorem Tree.exists_sound_of_ofPattern {P : TreeBuilder → Prop} {o : Options} {pattern : Bytes}
    {t : Tree} (hstart : P .start)
    (hstep : ∀ {b b' : TreeBuilder}, P b → b.Sound o.encoding.Fits → ∀ {e : Event},
      (∀ atom q, e = .atom atom q → (atom.kind o.encoding).Plain o.encoding.Fits) →
      b.take o e = .ok b' → P b')
    (ht : Tree.ofPattern o pattern = .ok t) : ∃ b : TreeBuilder, b.Sound o.encoding.Fits ∧ P b ∧
      t = b.arena.finish o.encoding b.current.group b.captures := by
  obtain ⟨b, hb, rfl⟩ := exists_builder_of_ofPattern ht
  have hplain {e : Event} : ∀ atom q, e = .atom atom q →
      (atom.kind o.encoding).Plain o.encoding.Fits := fun atom _ _ ↦ atom.plain_kind _
  obtain ⟨hsound, hP⟩ := TreeBuilder.of_foldlM_take (P := fun b ↦ b.Sound o.encoding.Fits ∧ P b)
    (fun _ h htake ↦ ⟨TreeBuilder.sound_take h.1 hplain htake, hstep h.2 h.1 hplain htake⟩)
    ⟨TreeBuilder.sound_start, hstart⟩ hb
  exact ⟨b, hsound, hP, rfl⟩

/-- The trees of patterns are regular, and their classes fit the encoding. -/
theorem Tree.regular_of_ofPattern {o : Options} {pattern : Bytes} {t : Tree}
    (ht : Tree.ofPattern o pattern = .ok t) :
    t.encoding = o.encoding ∧ t.Regular t.encoding.Fits := by
  obtain ⟨a, root, captures, hready, rfl⟩ :=
    ready_of_ofPattern (fun atom _ _ ↦ atom.plain_kind o.encoding) ht
  exact ⟨rfl, (hready.finishedFrom o.encoding captures).regular hready⟩

theorem Tree.Regular.fits_chars {t : Tree} (h : t.Regular t.encoding.Fits) {x : Nat}
    {set : CodePointSet} {claim : Option Nat} (hx : (t.node x).kind = .chars set claim) :
    t.encoding.Fits set := by
  rcases h.chars hx with hfits | rfl
  · exact hfits
  · exact t.encoding.fits_fullSet

end PatternAutomata
