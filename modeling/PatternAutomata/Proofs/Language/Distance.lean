import Mathlib.Algebra.GroupWithZero.Nat
import PatternAutomata.Proofs.Language.Matches
import PatternAutomata.Proofs.Tree.Finish

/-!
# Distances from the start

Finishing works out how many characters passing a node takes at least, and how many lie at least in
front of it. Both passes change one number at a time, and at any time every number is a bound: in
which order the nodes are passed only matters for how good the bounds are.

So a match comes by no node before its distance. A caret that has one never holds, and where there
are no other carets it makes no difference whether the text is known to start where the search does.
-/

namespace PatternAutomata

namespace Tree

variable {t : Tree} {w : List CodePoint} {anchored : Bool} {piece : Piece} {x s e m i n : Nat}
  {ids : List Nat} {lengths : Array Nat}

theorem Matches.le (h : t.Matches w anchored piece s e) : s ≤ e := by
  induction h with
  | chars => exact Nat.le_succ _
  | caret | dollar | lookBehind | nil => exact Nat.le_refl _
  | sequence _ _ ih | choice _ _ _ _ ih | loop _ _ _ ih | exit _ _ _ _ _ ih => exact ih
  | cons _ _ ih ihs | round _ _ _ _ _ _ ih ihs => exact Nat.le_trans ih ihs

/-- What is matched away from the start of a text is matched in a longer one too, if the characters,
the end and what the assertions look at are the same there. -/
theorem Matches.shift {w' : List CodePoint} {anchored' : Bool} (hlength : n + w.length = w'.length)
    (hchars : ∀ s c, w[s]? = some c → w'[n + s]? = some c)
    (hprecedes : ∀ s l, t.Precedes w s l → t.Precedes w' (n + s) l)
    (h : t.Matches w false piece s e) : t.Matches w' anchored' piece (n + s) (n + e) := by
  induction h with
  | chars hreads hw => exact .chars hreads (hchars _ _ hw)
  | caret _ hanchored => cases hanchored
  | dollar hkind => exact hlength ▸ .dollar hkind
  | lookBehind hkind hbody => exact .lookBehind hkind (hprecedes _ _ hbody)
  | sequence hkind _ ih => exact .sequence hkind ih
  | nil => exact .nil
  | cons _ _ ih ihs => exact .cons ih ihs
  | choice hkind hloop hc _ ih => exact .choice hkind hloop hc ih
  | loop hkind hloop _ ih => exact .loop hkind hloop ih
  | exit hkind hplus hc hempty _ ih => exact .exit hkind hplus hc hempty ih
  | round hkind hloop hc hempty _ _ ih ihs => exact .round hkind hloop hc hempty ih ihs

theorem Matches.anchor (h : t.Matches w false piece s e) : t.Matches w true piece s e := by
  simpa only [Nat.zero_add] using h.shift (n := 0) (Nat.zero_add _)
    (fun s c hw ↦ by rwa [Nat.zero_add]) fun s l hbody ↦ by rwa [Nat.zero_add]

/-! ## Lengths -/

/-- No node matches less than the given lengths say. -/
def Spans (t : Tree) (w : List CodePoint) (anchored : Bool) (lengths : Array Nat) : Prop :=
  ∀ ⦃x s e : Nat⦄, t.Matches w anchored (.node x) s e → s + lengths.getD x 0 ≤ e

namespace Spans

theorem replicate : t.Spans w anchored (Array.replicate n 0) := by
  intro x s e hm
  rw [Array.getD_eq_getD_getElem?, Array.getElem?_replicate]
  split <;> exact hm.le

theorem set (h : t.Spans w anchored lengths)
    (hx : ∀ {s e}, t.Matches w anchored (.node x) s e → s + n ≤ e) :
    t.Spans w anchored (lengths.setIfInBounds x n) := by
  intro y s e hm
  rw [Array.getD_eq_getD_getElem?, Array.getElem?_setIfInBounds]
  split
  · next heq =>
    subst heq
    split
    · exact hx hm
    · exact hm.le
  · rw [← Array.getD_eq_getD_getElem?]
    exact h hm

theorem terms (h : t.Spans w anchored lengths) (hm : t.Matches w anchored (.terms ids) s e) :
    s + (ids.map (lengths.getD · 0)).sum ≤ e := by
  induction ids generalizing s with
  | nil => exact hm.le
  | cons id ids ih =>
    cases hm with
    | cons hid hids =>
      have hlength := h hid
      have hrest := ih hids
      rw [List.map_cons, List.sum_cons]
      omega

end Spans

/-! ## Where nodes are come by -/

/-- A match of the pattern may come by a node at a place of the text. -/
inductive ComesBy (t : Tree) (w : List CodePoint) (anchored : Bool) : Nat → Nat → Prop
  | root {s : Nat} : ComesBy t w anchored t.root s
  | term {p c i s m : Nat} : (t.node p).kind = .sequence → (t.node p).children[i]? = some c →
      ComesBy t w anchored p s →
      t.Matches w anchored (.terms ((t.node p).children.toList.take i)) s m →
      ComesBy t w anchored c m
  | alternative {p c s m : Nat} {g : Group} : (t.node p).kind = .group g →
      c ∈ (t.node p).children → ComesBy t w anchored p s → s ≤ m → ComesBy t w anchored c m

theorem ComesBy.below_root (hx : t.ComesBy w anchored x s) (h : t.arena.Forest) :
    t.arena.Below x t.root := by
  induction hx with
  | root => exact .refl
  | term _ hc _ _ ih => exact .head (h.child hc).1 ih
  | alternative _ hc _ _ ih => exact .head (h.up_of_mem hc) ih

end Tree

namespace Arena

variable {t : Tree} {w : List CodePoint} {anchored : Bool} {a b : Arena} {lengths : Array Nat}
  {x c s e i n id : Nat}

/-- The nodes of an arena are nodes of a tree, captures, claims and distances apart. -/
structure Underlies (b : Arena) (t : Tree) : Prop where
  forest : b.Forest
  loose : (b.node t.root).parent = none
  bare : ∀ {x}, x < b.size → (t.node x).kind.bare = (b.node x).kind.bare
  children : ∀ {x}, x < b.size → (t.node x).children = (b.node x).children

namespace Underlies

theorem alike (h : a.Underlies t) (hab : Alike a b) : b.Underlies t where
  forest := hab.places.forest h.forest
  loose := by rw [hab.places.parent, h.loose]
  bare hx := by rw [h.bare (hab.size ▸ hx), NodeKind.bare_eq_of_core_eq (hab.core _)]
  children hx := by rw [h.children (hab.size ▸ hx), hab.places.children]

theorem isEmpty (h : b.Underlies t) (hx : x < b.size) :
    (t.node x).isEmpty = (b.node x).isEmpty := by
  rw [Node.isEmpty, Node.isEmpty, h.children hx]

theorem exists_counting (h : b.Underlies t) (hlengths : t.Spans w anchored lengths) {g : Group}
    (hkind : (b.node x).kind = .group g) (hx : x < b.size)
    (hm : t.Matches w anchored (.node x) s e) :
    ∃ c ∈ (b.node x).children, b.countsForLength g c = true ∧ s + lengths.getD c 0 ≤ e := by
  have hchild : ∀ {c}, c ∈ (t.node x).children → c ∈ (b.node x).children ∧ c < b.size := by
    intro c hc
    rw [h.children hx] at hc
    exact ⟨hc, lt_size_of_parent (h.forest.up_of_mem hc)⟩
  have hbare := h.bare hx
  rw [hkind] at hbare
  have hgroup : ∀ {g'}, (t.node x).kind = .group g' → g'.loop = g.loop := by
    intro g' hg'
    rw [hg'] at hbare
    simpa [NodeKind.bare] using hbare
  cases hm with
  | choice hkind' hloop hc hm =>
    refine ⟨_, (hchild hc).1, ?_, hlengths hm⟩
    rw [countsForLength, ← hgroup hkind', hloop]
    rfl
  | loop hkind' _ hrounds =>
    cases hrounds with
    | exit hkind'' hplus hc _ hm =>
      -- the empty alternative counts unless there must be a round, and then it is not yet taken
      refine ⟨_, (hchild hc).1, ?_, hlengths hm⟩
      have hplus' : g.loop ≠ some .plus := by
        rw [← hgroup hkind'']
        exact fun h ↦ Bool.false_ne_true (hplus h)
      simp [countsForLength, hplus']
    | round _ _ hc hempty hm hrest =>
      refine ⟨_, (hchild hc).1, ?_, Nat.le_trans (hlengths hm) hrest.le⟩
      rw [countsForLength, ← h.isEmpty (hchild hc).2, hempty]
      simp
  | chars hreads =>
    obtain ⟨set, claim, hset, -⟩ := hreads
    rw [hset] at hbare
    cases hbare
  | caret hkind' | dollar hkind' | lookBehind hkind' | sequence hkind' =>
    rw [hkind'] at hbare
    cases hbare

theorem leastLength_le (h : b.Underlies t) (hlengths : t.Spans w anchored lengths)
    (hm : t.Matches w anchored (.node x) s e) : s + b.leastLength lengths (b.node x) ≤ e := by
  by_cases hx : x < b.size
  · have hbare := h.bare hx
    unfold leastLength
    split
    · next hkind =>
      rw [hkind] at hbare
      cases hm with
      | chars => exact Nat.le_refl _
      | caret hkind' | dollar hkind' | lookBehind hkind' | sequence hkind' | choice hkind'
      | loop hkind' =>
        rw [hkind'] at hbare
        cases hbare
    · next hkind =>
      have hkind' := (NodeKind.eq_iff_of_bare_eq hbare rfl rfl).2 hkind
      cases hm with
      | sequence _ hterms =>
        have hsum := hlengths.terms hterms
        rw [h.children hx, List.sum_eq_foldl, List.foldl_map] at hsum
        rwa [← Array.foldl_toList]
      | chars hreads =>
        obtain ⟨set, claim, hset, -⟩ := hreads
        rw [hset] at hkind'
        cases hkind'
      | caret hk | dollar hk | lookBehind hk | choice hk | loop hk =>
        rw [hkind'] at hk
        cases hk
    · next g hkind =>
      obtain ⟨c, hc, hcounts, hle⟩ := h.exists_counting hlengths hkind hx hm
      refine Nat.le_trans (Nat.add_le_add_left (List.min?_getD_le_of_mem ?_) s) hle
      exact List.mem_map_of_mem (List.mem_filter.2 ⟨Array.mem_toList_iff.2 hc, hcounts⟩)
    · exact hm.le
  · rw [node_of_size_le (Nat.not_lt.1 hx)]
    exact hm.le

/-- **Least lengths are lower bounds.** -/
theorem spans_leastLengths (h : b.Underlies t) (order : Array Nat) :
    t.Spans w anchored (b.leastLengths order) := by
  unfold leastLengths
  rw [← Array.foldr_toList]
  induction order.toList with
  | nil => exact Tree.Spans.replicate
  | cons id ids ih => exact ih.set fun hm ↦ h.leastLength_le ih hm

/-- How a child is come by: behind the terms in front of it, or some time in the course of its
group. -/
theorem exists_comesBy (h : b.Underlies t) (ht : t.arena.Forest)
    (hc : (b.node id).children[i]? = some c) (hs : t.ComesBy w anchored c s) :
    ∃ s', t.ComesBy w anchored id s' ∧ s' ≤ s ∧ ((b.node id).kind = .sequence →
      t.Matches w anchored (.terms ((b.node id).children.toList.take i)) s' s) := by
  have hid := lt_size_of_child hc
  have hct := hc
  rw [← h.children hid] at hct
  cases hs with
  | root =>
    have hloose := h.loose
    rw [(h.forest.child hc).1] at hloose
    cases hloose
  | @term p _ j s' _ _ hj hp hterms =>
    obtain rfl : p = id := Option.some.inj ((ht.child hj).1.symm.trans (ht.child hct).1)
    obtain rfl : j = i := (ht.child hj).2.symm.trans (ht.child hct).2
    rw [h.children hid] at hterms
    exact ⟨s', hp, hterms.le, fun _ ↦ hterms⟩
  | @alternative p _ s' _ g hkind hj hp hle =>
    obtain rfl : p = id := Option.some.inj ((ht.up_of_mem hj).symm.trans (ht.child hct).1)
    refine ⟨s', hp, hle, fun hsequence ↦ ?_⟩
    have hbare := h.bare hid
    rw [hkind, hsequence] at hbare
    cases hbare

end Underlies

/-! ## Distances -/

/-- No node is come by before its distance. -/
def Within (b : Arena) (t : Tree) (w : List CodePoint) (anchored : Bool) : Prop :=
  ∀ ⦃x s : Nat⦄, t.ComesBy w anchored x s → (b.node x).minPath ≤ s

namespace Within

theorem setMinPath (h : b.Within t w anchored) (hc : ∀ {s}, t.ComesBy w anchored c s → n ≤ s) :
    (b.setMinPath c n).Within t w anchored := by
  intro x s hx
  unfold Arena.setMinPath
  rcases node_modify_or b c ({ · with minPath := n }) x with heq | ⟨hxc, heq⟩
  · rw [heq]
    exact h hx
  · rw [heq]
    exact hc (hxc ▸ hx)

theorem foldl_terms (ids : List Nat) (h : b.Within t w anchored)
    (hids : ∀ {i c s}, ids[i]? = some c → t.ComesBy w anchored c s →
      n + ((ids.take i).map (lengths.getD · 0)).sum ≤ s) :
    (ids.foldl (fun (r : Arena × Nat) child ↦
      (r.1.setMinPath child r.2, r.2 + lengths.getD child 0)) (b, n)).1.Within t w anchored := by
  induction ids generalizing b n with
  | nil => exact h
  | cons id ids ih =>
    refine ih (h.setMinPath fun hs ↦ ?_) fun {i c s} hc hs ↦ ?_
    · simpa using hids (i := 0) rfl hs
    · have hle := hids (i := i + 1) hc hs
      rw [List.take_succ_cons, List.map_cons, List.sum_cons] at hle
      omega

theorem foldl_alternatives (ids : List Nat) (h : b.Within t w anchored)
    (hids : ∀ {c s}, c ∈ ids → t.ComesBy w anchored c s → n ≤ s) :
    (ids.foldl (fun r child ↦ r.setMinPath child n) b).Within t w anchored := by
  induction ids generalizing b with
  | nil => exact h
  | cons id ids ih =>
    exact ih (h.setMinPath fun hs ↦ hids List.mem_cons_self hs)
      fun hc hs ↦ hids (List.mem_cons_of_mem _ hc) hs

/-- **The step lemma of the distances.** -/
theorem passMinPath (h : b.Within t w anchored) (hb : b.Underlies t) (ht : t.arena.Forest)
    (hlengths : t.Spans w anchored lengths) (id : Nat) :
    (b.passMinPath lengths id).Within t w anchored := by
  unfold Arena.passMinPath
  dsimp only
  split
  · next hkind =>
    rw [← Array.foldl_toList]
    refine h.foldl_terms _ fun {i c s} hc hs ↦ ?_
    rw [Array.getElem?_toList] at hc
    obtain ⟨s', hid, -, hterms⟩ := hb.exists_comesBy ht hc hs
    have hspan := hlengths.terms (hterms hkind)
    have hdistance := h hid
    omega
  · rw [← Array.foldl_toList]
    refine h.foldl_alternatives _ fun hc hs ↦ ?_
    obtain ⟨i, hi⟩ := Array.mem_iff_getElem?.1 (Array.mem_toList_iff.1 hc)
    obtain ⟨s', hid, hle, -⟩ := hb.exists_comesBy ht hi hs
    exact Nat.le_trans (h hid) hle
  · exact h

/-- **Distances are lower bounds.** -/
theorem setMinPaths (h : b.Within t w anchored) (hb : b.Underlies t) (ht : t.arena.Forest)
    (order : Array Nat) : (b.setMinPaths order).Within t w anchored := by
  have hlengths : t.Spans w anchored (b.leastLengths order) := hb.spans_leastLengths order
  unfold Arena.setMinPaths
  rw [← Array.foldl_toList]
  generalize b.leastLengths order = lengths at hlengths
  induction order.toList generalizing b with
  | nil => exact h
  | cons id ids ih =>
    exact ih (h.passMinPath hb ht hlengths id) (hb.alike ((Alike.refl b).passMinPath lengths id))

end Within

theorem minPath_passCaptures (root : Nat) (r : Arena × Array IndexSet) (id x : Nat) :
    ((passCaptures root r id).1.node x).minPath = (r.1.node x).minPath := by
  rcases fst_passCaptures root r id with heq | ⟨g, -, heq⟩
  · rw [heq]
  · rw [heq]
    exact modify_congr Node.minPath fun _ ↦ rfl

theorem minPath_setNested (root : Nat) (order : Array Nat) (x : Nat) :
    ((a.setNested root order).node x).minPath = (a.node x).minPath := by
  unfold setNested
  rw [← Array.foldr_toList]
  induction order.toList with
  | nil => rfl
  | cons id ids ih => rw [List.foldr_cons, minPath_passCaptures, ih]

variable {ok : CodePointSet → Prop} {root : Nat}

theorem FinishedFrom.underlies (ht : FinishedFrom a root t) (h : Ready ok a root) :
    a.Underlies t where
  forest := h.shaped.forest
  loose := by rw [ht.root_eq, h.loose]
  bare hx := ht.framed.bare _ hx
  children hx := ht.framed.children _ hx

theorem FinishedFrom.minPath_le (ht : FinishedFrom a root t) (h : Ready ok a root)
    (hx : t.ComesBy w anchored x s) : (t.node x).minPath ≤ s := by
  have hforest := ht.framed.forest
  -- the distances start at zero, and passing on captures leaves them alone
  have hmade := (ht.underlies h).alike (alike_makeRoot root)
  have hstart : (a.makeRoot root).Within t w anchored := by
    intro y s _
    have hzero : (a.makeRoot root).Unmeasured := h.shaped.unmeasured.modify fun n ↦ by
      split <;> rfl
    rw [hzero y]
    exact Nat.zero_le _
  have hlt : x < a.size := ht.framed.lt_of_below_old h h.lt (ht.root_eq ▸ hx.below_root hforest)
  have hdistance := hstart.setMinPaths hmade hforest (a.order root) hx
  rw [Tree.node, ht.framed.minPath x hlt, measured, minPath_setNested]
  exact hdistance

end Arena

namespace Tree

variable {t : Tree} {w : List CodePoint} {piece : Piece} {s e : Nat}

/-! ## Carets -/

/-- What a match comes by in the course of matching a piece. -/
def Opens (t : Tree) (w : List CodePoint) (s : Nat) : Piece → Prop
  | .node id => t.ComesBy w true id s
  | .terms ids => ∃ p i s', (t.node p).kind = .sequence ∧ (t.node p).children.toList.drop i = ids ∧
      t.ComesBy w true p s' ∧ t.Matches w true (.terms ((t.node p).children.toList.take i)) s' s
  | .rounds loop _ => ∃ s' ≤ s, t.ComesBy w true loop s'

/-- Where no caret holds, a match is none of the start of the text. -/
theorem Matches.unanchor (hm : t.Matches w true piece s e) (hopens : t.Opens w s piece)
    (hcaret : ∀ id, (t.node id).kind = .caret → ¬t.ComesBy w true id 0) :
    t.Matches w false piece s e := by
  -- along the match, whatever is matched next has been come by
  induction hm with
  | chars hreads hw => exact .chars hreads hw
  | caret hkind _ => exact absurd hopens (hcaret _ hkind)
  | dollar hkind => exact .dollar hkind
  | lookBehind hkind hprecedes => exact .lookBehind hkind hprecedes
  | sequence hkind _ ih => exact .sequence hkind (ih ⟨_, 0, _, hkind, rfl, hopens, .nil⟩)
  | nil => exact .nil
  | @cons id s m e ids hid _ ih ihs =>
    obtain ⟨p, i, s', hkind, hdrop, hp, hfront⟩ := hopens
    have hget : (t.node p).children.toList[i]? = some id := by
      rw [← List.head?_drop, hdrop]
      rfl
    refine .cons (ih (.term hkind (Array.getElem?_toList ▸ hget) hp hfront)) (ihs ?_)
    refine ⟨p, i + 1, s', hkind, ?_, hp, ?_⟩
    · rw [← List.drop_drop, hdrop]
      rfl
    · rw [List.take_add_one, hget]
      exact hfront.concat hid
  | choice hkind hloop hc _ ih =>
    exact .choice hkind hloop hc (ih (.alternative hkind hc hopens (Nat.le_refl _)))
  | loop hkind hloop _ ih => exact .loop hkind hloop (ih ⟨_, Nat.le_refl _, hopens⟩)
  | exit hkind hplus hc hempty _ ih =>
    obtain ⟨s', hle, hloop⟩ := hopens
    exact .exit hkind hplus hc hempty (ih (.alternative hkind hc hloop hle))
  | round hkind hisLoop hc hempty hround _ ih ihs =>
    obtain ⟨s', hle, hloop⟩ := hopens
    exact .round hkind hisLoop hc hempty (ih (.alternative hkind hc hloop hle))
      (ihs ⟨s', Nat.le_trans hle hround.le, hloop⟩)

theorem Finished.minPath_le (h : t.Finished) {anchored : Bool} {x : Nat}
    (hx : t.ComesBy w anchored x s) : (t.node x).minPath ≤ s := by
  obtain ⟨a, encoding, root, captures, hready, rfl⟩ := h.ready
  exact (hready.finishedFrom encoding captures).minPath_le hready hx

/-- **Only carets without a distance matter**: where there are none, the whole pattern matches the
same from the start of the text as from anywhere. -/
theorem Finished.matches_anchored_iff (h : t.Finished) (anchored : Bool) :
    t.Matches w (anchored && !t.carets.isEmpty) (.node t.root) s e ↔
      t.Matches w anchored (.node t.root) s e := by
  cases anchored with
  | false => rfl
  | true =>
    cases hcarets : t.carets.isEmpty with
    | false => rfl
    | true =>
      refine ⟨Matches.anchor, fun hm ↦ hm.unanchor .root fun id hkind hid ↦ ?_⟩
      have hmem : id ∈ t.carets := h.regular.mem_carets.2
        ⟨hkind, (hid.below_root h.regular.forest).trans h.regular.root_holds,
          Nat.le_zero.1 (h.minPath_le hid)⟩
      rw [Array.isEmpty_iff.1 hcarets] at hmem
      exact Array.not_mem_empty _ hmem

end Tree

end PatternAutomata
