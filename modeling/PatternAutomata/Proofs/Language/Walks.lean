import PatternAutomata.Proofs.Language.Matches

/-!
# Walks are matches

A walk is followed backward from where a match is found: at every spot, what is left of the match of
the root can be made up from what is left at the next one. So a walk through the root makes a match
of it. In front of the root stands the lead-in, through which there is one way only.
-/

namespace PatternAutomata

namespace Tree

variable {t : Tree} {w : List CodePoint} {anchored : Bool} {s e m i n : Nat}

/-- What is left of the match of the root when a node has been matched up to some place: the terms
behind it, the iterations that follow, and so on upward. -/
inductive Closes (t : Tree) (w : List CodePoint) (anchored : Bool) : Nat → Nat → Prop
  | root : Closes t w anchored t.root w.length
  | next {id p s m : Nat} : (t.node id).parent = some p → (t.node p).kind = .sequence →
      t.Matches w anchored (.terms ((t.node p).children.toList.drop ((t.node id).index + 1))) s m →
      Closes t w anchored p m → Closes t w anchored id s
  | out {id p s : Nat} {g : Group} : (t.node id).parent = some p → (t.node p).kind = .group g →
      (g.loop.isSome = true → (t.node id).isEmpty = true) →
      Closes t w anchored p s → Closes t w anchored id s
  | again {id p s m : Nat} {g : Group} : (t.node id).parent = some p →
      (t.node p).kind = .group g → g.loop.isSome = true → (t.node id).isEmpty = false →
      t.Matches w anchored (.rounds p true) s m → Closes t w anchored p m → Closes t w anchored id s

theorem Closes.below_root {id : Nat} (h : t.Closes w anchored id s) : t.arena.Below id t.root := by
  induction h with
  | root => exact .refl
  | next hup _ _ _ ih => exact .head hup ih
  | out hup _ _ _ ih => exact .head hup ih
  | again hup _ _ _ _ _ ih => exact .head hup ih

/-- What is left of the match of the root when a walk has come to a spot. -/
def Completes (t : Tree) (w : List CodePoint) (anchored : Bool) (u : Spot) (s : Nat) : Prop :=
  if u.isLeaving then t.Closes w anchored u.node s
  else ∃ m, t.Matches w anchored
    (if u.isReentry then .rounds u.node true else .node u.node) s m ∧ t.Closes w anchored u.node m

theorem completes_front {id : Nat} : t.Completes w anchored (.front id) s ↔
    ∃ m, t.Matches w anchored (.node id) s m ∧ t.Closes w anchored id m := Iff.rfl

/-- Only in front of a loop a walk comes from the end of an iteration. -/
def Proper (t : Tree) (u : Spot) : Prop :=
  u.isReentry = true → u.isLeaving = false ∧ ∃ g, (t.node u.node).kind = .group g ∧
    g.loop.isSome = true

theorem Proper.isReentry_eq_false {u : Spot} (h : t.Proper u)
    (hu : u.isLeaving = true ∨ (t.node u.node).kind.isGroup = false) : u.isReentry = false := by
  by_contra hagain
  obtain ⟨hfront, g, hkind, -⟩ := h (Bool.eq_true_of_not_eq_false hagain)
  rcases hu with hu | hu
  · rw [hfront] at hu
    cases hu
  · rw [hkind] at hu
    cases hu

theorem Proper.eq_false_of_kind {id : Nat} {b r : Bool} {k : NodeKind} (h : t.Proper ⟨id, b, r⟩)
    (hkind : (t.node id).kind = k) (hk : k.isGroup = false) : r = false :=
  h.isReentry_eq_false (.inr (by rw [hkind, hk]))

theorem Proper.eq_false_of_leaving {id : Nat} {r : Bool} (h : t.Proper ⟨id, true, r⟩) : r = false :=
  h.isReentry_eq_false (.inl rfl)

theorem Closes.of_sequence {c p : Nat} (hc : t.Closes w anchored c s) (hne : c ≠ t.root)
    (hparent : (t.node c).parent = some p) (hkind : (t.node p).kind = .sequence) :
    ∃ m, t.Matches w anchored
      (.terms ((t.node p).children.toList.drop ((t.node c).index + 1))) s m ∧
        t.Closes w anchored p m := by
  cases hc with
  | root => exact absurd rfl hne
  | next hparent' _ hterms hclose =>
    obtain rfl := Option.some.inj (hparent.symm.trans hparent')
    exact ⟨_, hterms, hclose⟩
  | out hparent' hkind' _ _ =>
    obtain rfl := Option.some.inj (hparent.symm.trans hparent')
    cases hkind.symm.trans hkind'
  | again hparent' hkind' _ _ _ _ =>
    obtain rfl := Option.some.inj (hparent.symm.trans hparent')
    cases hkind.symm.trans hkind'

theorem Closes.of_group {c p : Nat} {g : Group} (hc : t.Closes w anchored c s) (hne : c ≠ t.root)
    (hparent : (t.node c).parent = some p) (hkind : (t.node p).kind = .group g) :
    ((g.loop.isSome = true → (t.node c).isEmpty = true) ∧ t.Closes w anchored p s) ∨
      g.loop.isSome = true ∧ (t.node c).isEmpty = false ∧
        ∃ m, t.Matches w anchored (.rounds p true) s m ∧ t.Closes w anchored p m := by
  cases hc with
  | root => exact absurd rfl hne
  | next hparent' hkind' _ _ =>
    obtain rfl := Option.some.inj (hparent.symm.trans hparent')
    cases hkind.symm.trans hkind'
  | out hparent' hkind' hempty hclose =>
    obtain rfl := Option.some.inj (hparent.symm.trans hparent')
    cases hkind.symm.trans hkind'
    exact .inl ⟨hempty, hclose⟩
  | again hparent' hkind' hloop hempty hrounds hclose =>
    obtain rfl := Option.some.inj (hparent.symm.trans hparent')
    cases hkind.symm.trans hkind'
    exact .inr ⟨hloop, hempty, _, hrounds, hclose⟩

theorem drop_children {p i c : Nat} (hc : (t.node p).children[i]? = some c) :
    (t.node p).children.toList.drop i = c :: (t.node p).children.toList.drop (i + 1) := by
  rw [← Array.getElem?_toList] at hc
  obtain ⟨hi, rfl⟩ := List.getElem?_eq_some_iff.1 hc
  exact List.drop_eq_getElem_cons hi

theorem Regular.ne_root_of_up {ok : CodePointSet → Prop} (h : t.Regular ok) {c p : Nat}
    (hup : t.arena.Up c p) (hp : t.arena.Below p t.root) : c ≠ t.root := by
  rintro rfl
  exact h.forest.not_below_parent hup hp

theorem Completes.of_choose {id c : Nat} {r : Bool} {g : Group} (hproper : t.Proper ⟨id, false, r⟩)
    (hkind : (t.node id).kind = .group g) (hc : c ∈ (t.node id).children) (hadmits : t.Admits g r c)
    (hparent : (t.node c).parent = some id) (hne : c ≠ t.root)
    (hv : t.Completes w anchored (.front c) s) : t.Completes w anchored ⟨id, false, r⟩ s := by
  obtain ⟨m, hm, hclose⟩ := hv
  -- a loop has been matched when its iterations have
  have hrounds : g.loop.isSome = true →
      (∃ e, t.Matches w anchored (.rounds id r) s e ∧ t.Closes w anchored id e) →
      t.Completes w anchored ⟨id, false, r⟩ s := by
    rintro hloop ⟨e, hrounds, hclose⟩
    refine ⟨e, ?_, hclose⟩
    cases r with
    | true => exact hrounds
    | false => exact .loop hkind hloop hrounds
  rcases hclose.of_group hne hparent hkind with ⟨hempty, hclose⟩ | ⟨hloop, hempty, e, hrest, hclose⟩
  · cases hloop : g.loop with
    | none =>
      have hr : r = false := by
        by_contra hr
        obtain ⟨-, g', hkind', hloop'⟩ := hproper (Bool.eq_true_of_not_eq_false hr)
        cases hkind.symm.trans hkind'
        rw [hloop] at hloop'
        cases hloop'
      subst hr
      exact ⟨m, .choice hkind hloop hc hm, hclose⟩
    | some _ =>
      have hsome : g.loop.isSome = true := by rw [hloop]; rfl
      have hempty := hempty hsome
      exact hrounds hsome ⟨m, .exit hkind (fun hplus ↦ hadmits hplus hempty) hc hempty hm, hclose⟩
  · exact hrounds hloop ⟨e, .round hkind hloop hc hempty hm hrest, hclose⟩

/-- The end of a node: at the root there is nothing left to match, and below it the match of the
parent is to be completed. -/
theorem Completes.of_leaving {u : Spot} {p : Nat} (hleaving : u.isLeaving = true)
    (hup : t.arena.Up u.node p) (hbelow : t.arena.Below u.node t.root)
    (hroot : u.node = t.root → s = w.length)
    (hparent : t.arena.Below p t.root → t.Closes w anchored u.node s) :
    t.Completes w anchored u s := by
  rw [Completes, if_pos hleaving]
  rcases hbelow.eq_or_of_up hup with heq | hbelow
  · rw [heq, hroot heq]
    exact .root
  · exact hparent hbelow

theorem Regular.completes_of_first {ok : CodePointSet → Prop} (h : t.Regular ok) {id c : Nat}
    (hbelow : t.arena.Below id t.root) (hkind : (t.node id).kind = .sequence)
    (hc : (t.node id).children[0]? = some c)
    (hv : t.arena.Below c t.root → t.Completes w anchored (.front c) s) :
    t.Completes w anchored (.front id) s := by
  obtain ⟨hparent, hindex⟩ := h.child hc
  obtain ⟨m, hm, hclose⟩ := completes_front.1 (hv (.head hparent hbelow))
  obtain ⟨e, hterms, hclose⟩ := hclose.of_sequence (h.ne_root_of_up hparent hbelow) hparent hkind
  rw [hindex] at hterms
  refine ⟨e, .sequence hkind ?_, hclose⟩
  rw [← List.drop_zero (l := (t.node id).children.toList), drop_children hc]
  exact .cons hm hterms

theorem Regular.completes_of_next {ok : CodePointSet → Prop} (h : t.Regular ok) {id p c : Nat}
    (hbelow : t.arena.Below id t.root) (hup : t.arena.Up id p) (hkind : (t.node p).kind = .sequence)
    (hc : (t.node p).children[(t.node id).index + 1]? = some c)
    (hv : t.arena.Below c t.root → t.Completes w anchored (.front c) s)
    (hend : ¬t.arena.Below c t.root → s = w.length) :
    t.Completes w anchored ⟨id, true, false⟩ s := by
  obtain ⟨hupc, hindex⟩ := h.child hc
  refine .of_leaving rfl hup hbelow (fun heq ↦ hend fun hbc ↦ ?_) fun hp ↦ ?_
  · exact h.ne_root_of_up hup (h.forest.below_of_next hup hc hbelow hbc) heq
  · obtain ⟨m, hm, hclose⟩ := completes_front.1 (hv (.head hupc hp))
    obtain ⟨e, hterms, hclose⟩ := hclose.of_sequence (h.ne_root_of_up hupc hp) hupc hkind
    rw [hindex] at hterms
    refine .next hup hkind ?_ hclose
    rw [drop_children hc]
    exact .cons hm hterms

/-- **A walk goes backward.** What is left of the match of the root at one spot follows from what is
left at the next one. A walk that leaves the root has come to the end of the text. -/
theorem Regular.completes_of_advance {ok : CodePointSet → Prop} (h : t.Regular ok) {u v : Spot}
    (hproper : t.Proper u) (hbelow : t.arena.Below u.node t.root)
    (hstep : t.Advance w anchored (u, s) (v, e))
    (hv : t.arena.Below v.node t.root → t.Completes w anchored v e)
    (hend : ¬t.arena.Below v.node t.root → e = w.length) : t.Completes w anchored u s := by
  -- from the end of a node a walk comes to its parent, unless there is a term behind the node
  have hout : ∀ {p : Nat}, t.arena.Up u.node p → v.node = p → u.node = t.root → e = w.length :=
    fun hup hp heq ↦ hend fun hbp ↦ h.ne_root_of_up hup (hp ▸ hbp) heq
  cases hstep with
  | read hreads hw =>
    obtain ⟨set, claim, hkind, -⟩ := id hreads
    obtain rfl := hproper.eq_false_of_kind hkind rfl
    exact ⟨_, .chars hreads hw, hv hbelow⟩
  | move hmove hdollar =>
    cases hmove with
    | @again loop hrepeats =>
      obtain ⟨hleaving, hparent, ⟨g, hkind, hloop⟩, hempty⟩ := hrepeats
      refine .of_leaving hleaving hparent hbelow (hout hparent rfl) fun hp ↦ ?_
      obtain ⟨m, hm, hclose⟩ := hv hp
      exact .again hparent hkind hloop hempty hm hclose
    | onward honward =>
      cases honward with
      | first hkind hc =>
        obtain rfl := hproper.eq_false_of_kind hkind rfl
        exact h.completes_of_first hbelow hkind hc hv
      | @skip id r hkind hnil =>
        obtain rfl := hproper.eq_false_of_kind hkind rfl
        refine ⟨s, .sequence hkind ?_, hv hbelow⟩
        rw [← Array.getElem?_toList, List.getElem?_eq_none_iff] at hnil
        rw [List.eq_nil_of_length_eq_zero (Nat.le_zero.1 hnil)]
        exact .nil
      | choose hkind hc hadmits =>
        have hparent := h.forest.up_of_mem hc
        exact Completes.of_choose hproper hkind hc hadmits hparent
          (h.ne_root_of_up hparent hbelow) (hv (.head hparent hbelow))
      | caret hkind hstart =>
        obtain rfl := hproper.eq_false_of_kind hkind rfl
        obtain ⟨hanchored, rfl⟩ := hstart
        exact ⟨0, .caret hkind hanchored, hv hbelow⟩
      | dollar hkind =>
        obtain rfl := hproper.eq_false_of_kind hkind rfl
        obtain rfl : s = w.length := hdollar ⟨rfl, hkind⟩
        exact ⟨_, .dollar hkind, hv hbelow⟩
      | lookBehind hkind hprecedes =>
        obtain rfl := hproper.eq_false_of_kind hkind rfl
        exact ⟨s, .lookBehind hkind hprecedes, hv hbelow⟩
      | marker hkind =>
        -- the markers are in front of the root
        rcases h.inner hbelow with hterm | hterm <;> (rw [hkind] at hterm; cases hterm)
      | next hparent hkind hc =>
        obtain rfl := hproper.eq_false_of_leaving
        exact h.completes_of_next hbelow hparent hkind hc hv hend
      | last hparent hkind hnil =>
        refine .of_leaving rfl hparent hbelow (hout hparent rfl) fun hp ↦ ?_
        rw [← Array.getElem?_toList, List.getElem?_eq_none_iff] at hnil
        refine .next hparent hkind ?_ (hv hp)
        rw [List.drop_eq_nil_of_le hnil]
        exact .nil
      | out hparent hkind hempty =>
        exact .of_leaving rfl hparent hbelow (hout hparent rfl) fun hp ↦
          .out hparent hkind hempty (hv hp)

theorem Proper.move {passes : Nat → Prop} {isAtStart : Prop} {u v : Spot} (h : t.Proper u)
    (hmove : Move t passes isAtStart u v) : t.Proper v := by
  cases hmove with
  | again hrepeats =>
    obtain ⟨-, -, ⟨g, hkind, hloop⟩, -⟩ := hrepeats
    exact fun _ ↦ ⟨rfl, g, hkind, hloop⟩
  | onward honward =>
    cases honward with
    | choose => exact nofun
    | first hkind _ => obtain rfl := h.eq_false_of_kind hkind rfl; exact nofun
    | skip hkind _ => obtain rfl := h.eq_false_of_kind hkind rfl; exact nofun
    | caret hkind _ => obtain rfl := h.eq_false_of_kind hkind rfl; exact nofun
    | dollar hkind => obtain rfl := h.eq_false_of_kind hkind rfl; exact nofun
    | lookBehind hkind _ => obtain rfl := h.eq_false_of_kind hkind rfl; exact nofun
    | marker hkind => obtain rfl := h.eq_false_of_kind hkind rfl; exact nofun
    | next => obtain rfl := h.eq_false_of_leaving; exact nofun
    | last => obtain rfl := h.eq_false_of_leaving; exact nofun
    | out => obtain rfl := h.eq_false_of_leaving; exact nofun

theorem Proper.advance {u v : Spot} (h : t.Proper u) (hstep : t.Advance w anchored (u, s) (v, e)) :
    t.Proper v := by
  cases hstep with
  | read => exact nofun
  | move hmove _ => exact h.move hmove

theorem Regular.eq_matchFound_of_move {ok : CodePointSet → Prop} (h : t.Regular ok)
    {passes : Nat → Prop} {isAtStart : Prop} {u v : Spot} (hbelow : t.arena.Below u.node t.root)
    (hmove : Move t passes isAtStart u v) (hout : ¬t.arena.Below v.node t.root) :
    v.isLeaving = false ∧ v.node = t.matchFound := by
  obtain ⟨q, hroot, hqkind, hnext⟩ := h.matchFound_follows
  -- a walk that goes upward from below the root stays there
  have hparent : ∀ {p : Nat}, t.arena.Up u.node p → ¬t.arena.Below p t.root →
      u.node = t.root ∧ p = q := by
    intro p hup hp
    rcases hbelow.eq_or_of_up hup with heq | hbelow
    · rw [heq] at hup
      exact ⟨heq, Option.some.inj (hup.symm.trans hroot)⟩
    · exact absurd hbelow hp
  cases hmove with
  | again hrepeats =>
    obtain ⟨-, hup, ⟨g, hkind, -⟩, -⟩ := hrepeats
    obtain ⟨-, rfl⟩ := hparent hup hout
    cases hqkind.symm.trans hkind
  | onward honward =>
    cases honward with
    | first _ hc => exact absurd (.head (h.child hc).1 hbelow) hout
    | choose _ hc _ => exact absurd (.head (h.forest.up_of_mem hc) hbelow) hout
    | @next id p c _ hup _ hc =>
      obtain ⟨hid, rfl⟩ := hparent hup fun hp ↦ hout (.head (h.child hc).1 hp)
      have hid : id = t.root := hid
      subst hid
      exact ⟨rfl, Option.some.inj (hc.symm.trans hnext)⟩
    | @last id p _ hup _ hnil =>
      obtain ⟨hid, rfl⟩ := hparent hup hout
      have hid : id = t.root := hid
      subst hid
      cases hnil.symm.trans hnext
    | out hup hkind _ =>
      obtain ⟨-, rfl⟩ := hparent hup hout
      cases hqkind.symm.trans hkind
    | _ => exact absurd hbelow hout

theorem Regular.eq_matchFound_of_advance {ok : CodePointSet → Prop} (h : t.Regular ok) {u v : Spot}
    (hbelow : t.arena.Below u.node t.root) (hstep : t.Advance w anchored (u, s) (v, e))
    (hout : ¬t.arena.Below v.node t.root) : v.isLeaving = false ∧ v.node = t.matchFound := by
  cases hstep with
  | read => exact absurd hbelow hout
  | move hmove _ => exact h.eq_matchFound_of_move hbelow hmove hout

theorem Regular.not_advance_matchFound {ok : CodePointSet → Prop} (h : t.Regular ok) {r : Bool}
    {v : Spot} : ¬t.Advance w anchored (⟨t.matchFound, false, r⟩, s) (v, e) := by
  have hkind := h.matchFound_iff.2 rfl
  intro hstep
  cases hstep with
  | read hreads _ =>
    obtain ⟨set, claim, hchars, -⟩ := hreads
    cases hkind.symm.trans hchars
  | move hmove _ => exact hmove.kind_of_front.2 hkind

/-- **A walk to where a match is found makes a match.** -/
theorem Regular.completes_of_finds {ok : CodePointSet → Prop} (h : t.Regular ok) {u : Spot}
    (hproper : t.Proper u) (hbelow : t.arena.Below u.node t.root)
    (hfinds : t.Finds w anchored u s) : t.Completes w anchored u s := by
  induction hfinds using Finds.induction with
  | refl =>
    -- the place where a match is found is not below the root
    rcases h.inner hbelow with hterm | hterm <;>
      (rw [h.matchFound_iff.2 rfl] at hterm; cases hterm)
  | @step u v s e hstep hrest ih =>
    refine h.completes_of_advance hproper hbelow hstep (fun hv ↦ ih (hproper.advance hstep) hv)
      fun hout ↦ ?_
    obtain ⟨hfront, hnode⟩ := h.eq_matchFound_of_advance hbelow hstep hout
    obtain ⟨node, isLeaving, isReentry⟩ := v
    subst hfront hnode
    rcases hrest.cases_head with heq | ⟨next, hnext, -⟩
    · exact congrArg Prod.snd heq
    · exact absurd hnext h.not_advance_matchFound

/-- **Walks from the front of the root find just what the root matches.** -/
theorem Regular.finds_root_iff {ok : CodePointSet → Prop} (h : t.Regular ok) :
    t.Finds w anchored (.front t.root) s ↔ t.Matches w anchored (.node t.root) s w.length := by
  obtain ⟨q, hroot, hqkind, hnext⟩ := h.matchFound_follows
  constructor
  · intro hfinds
    obtain ⟨m, hm, hclose⟩ := completes_front.1 (h.completes_of_finds nofun .refl hfinds)
    -- above the root there is nothing left to match
    cases hclose with
    | root => exact hm
    | next hup _ _ hclose => exact absurd hclose.below_root (h.forest.not_below_parent hup)
    | out hup _ _ hclose => exact absurd hclose.below_root (h.forest.not_below_parent hup)
    | again hup _ _ _ _ hclose => exact absurd hclose.below_root (h.forest.not_below_parent hup)
  · intro hm
    have hwalk : t.Walks w anchored (.front t.root, s) (.back t.root, w.length) := h.walksThrough hm
    exact hwalk.tail (.onward (.next hroot hqkind hnext) (.inl rfl))

/-! ## The lead-in -/

theorem Advance.le {u v : Spot} (h : t.Advance w anchored (u, s) (v, e)) : s ≤ e := by
  cases h with
  | move => exact Nat.le_refl _
  | read => exact Nat.le_succ _

theorem Finds.le_length {u : Spot} (h : t.Finds w anchored u s) : s ≤ w.length := by
  induction h using Finds.induction with
  | refl => exact Nat.le_refl _
  | step hstep _ ih => exact Nat.le_trans hstep.le ih

theorem eq_of_move_follows {passes : Nat → Prop} {isAtStart : Prop} {x y : Nat} {v : Spot}
    (hfollows : t.arena.Follows x y) (hmove : Move t passes isAtStart (.back x) v) :
    v = .front y := by
  obtain ⟨p, hup, hkind, hnext⟩ := hfollows
  cases hmove with
  | again hrepeats =>
    obtain ⟨-, hup', ⟨g, hgroup, -⟩, -⟩ := hrepeats
    obtain rfl := Option.some.inj (hup.symm.trans hup')
    cases hkind.symm.trans hgroup
  | onward honward =>
    cases honward with
    | next hup' _ hnext' =>
      obtain rfl := Option.some.inj (hup.symm.trans hup')
      obtain rfl := Option.some.inj (hnext.symm.trans hnext')
      rfl
    | last hup' _ hnil =>
      obtain rfl := Option.some.inj (hup.symm.trans hup')
      cases hnext.symm.trans hnil
    | out hup' hgroup _ =>
      obtain rfl := Option.some.inj (hup.symm.trans hup')
      cases hkind.symm.trans hgroup

theorem Advance.of_follows {x y : Nat} {v : Spot} (hfollows : t.arena.Follows x y)
    (hstep : t.Advance w anchored (.back x, s) (v, e)) : v = .front y ∧ e = s := by
  cases hstep with
  | move hmove _ => exact ⟨eq_of_move_follows hfollows hmove, rfl⟩

theorem eq_of_move_marker {passes : Nat → Prop} {isAtStart : Prop} {x lead : Nat}
    {isAnchored : Bool} {v : Spot} (hkind : (t.node x).kind = .marker isAnchored lead)
    (hmove : Move t passes isAtStart (.front x) v) : v = .back x := by
  cases hmove.onward_of_front with
  | marker => rfl
  | first hkind' | skip hkind' | choose hkind' | caret hkind' | dollar hkind' | lookBehind hkind' =>
    cases hkind.symm.trans hkind'

theorem Advance.of_marker {x lead : Nat} {isAnchored : Bool} {v : Spot}
    (hkind : (t.node x).kind = .marker isAnchored lead)
    (hstep : t.Advance w anchored (.front x, s) (v, e)) : v = .back x ∧ e = s := by
  cases hstep with
  | read hreads _ =>
    obtain ⟨set, claim, hchars, -⟩ := hreads
    cases hkind.symm.trans hchars
  | move hmove _ => exact ⟨eq_of_move_marker hkind hmove, rfl⟩

theorem finds_follows {x y : Nat} (hfollows : t.arena.Follows x y) :
    t.Finds w anchored (.back x) s ↔ t.Finds w anchored (.front y) s := by
  refine ⟨fun hfinds ↦ ?_, fun hfinds ↦ ?_⟩
  · rcases hfinds.cases_head with heq | ⟨⟨v, e⟩, hstep, hrest⟩
    · cases heq
    · obtain ⟨rfl, rfl⟩ := hstep.of_follows hfollows
      exact hrest
  · obtain ⟨p, hup, hkind, hnext⟩ := hfollows
    exact .head (.onward (.next hup hkind hnext) (.inl rfl)) hfinds

theorem Regular.finds_marker {ok : CodePointSet → Prop} (h : t.Regular ok) {x lead : Nat}
    {anchored' : Bool} (hkind : (t.node x).kind = .marker anchored' lead) :
    t.Finds w anchored (.front x) s ↔ t.Finds w anchored (.back x) s := by
  refine ⟨fun hfinds ↦ ?_, .head (.onward (.marker hkind) (.inr (by rw [hkind]; nofun)))⟩
  rcases hfinds.cases_head with heq | ⟨⟨v, e⟩, hstep, hrest⟩
  · have hx : x = t.matchFound := congrArg (fun config ↦ config.1.node) heq
    cases hkind.symm.trans (h.matchFound_iff.2 hx)
  · obtain ⟨rfl, rfl⟩ := hstep.of_marker hkind
    exact hrest

theorem Regular.finds_full {ok : CodePointSet → Prop} (h : t.Regular ok)
    (hw : ∀ c ∈ w, c ∈ t.encoding.fullSet) {x : Nat}
    (hkind : (t.node x).kind = .chars t.encoding.fullSet none) :
    t.Finds w anchored (.front x) s ↔ s < w.length ∧ t.Finds w anchored (.back x) (s + 1) := by
  constructor
  · intro hfinds
    rcases hfinds.cases_head with heq | ⟨next, hstep, hrest⟩
    · have hx : x = t.matchFound := congrArg (fun config ↦ config.1.node) heq
      cases hkind.symm.trans (h.matchFound_iff.2 hx)
    cases hstep with
    | read _ hc => exact ⟨(List.getElem?_eq_some_iff.1 hc).1, hrest⟩
    | move hmove _ => exact absurd hkind (hmove.kind_of_front.1 _ _)
  · rintro ⟨hs, hfinds⟩
    exact .head (.read ⟨_, _, hkind, hw _ (List.getElem_mem hs)⟩ (List.getElem?_eq_getElem hs))
      hfinds

/-- **The lead-in is crossed before the root is entered**, and nothing else can happen there. -/
theorem Regular.finds_start_iff {ok : CodePointSet → Prop} (h : t.Regular ok)
    (hw : ∀ c ∈ w, c ∈ t.encoding.fullSet) {isAnchored : Bool} {lead : Nat}
    (hlead : lead ≤ t.leadLength) : t.Finds w anchored (.back (t.start isAnchored lead)) s ↔
      s + lead ≤ w.length ∧ t.Finds w anchored (.front t.root) (s + lead) := by
  have hboth : ∀ {lead s}, lead ≤ t.leadLength →
      (t.Finds w anchored (.back (t.start false lead)) s ↔
        t.Finds w anchored (.back (t.start true lead)) s) := fun hlead ↦
    (finds_follows (h.start_follows hlead)).trans (h.finds_marker (h.start_kind hlead))
  have htrue : t.Finds w anchored (.back (t.start true lead)) s ↔
      s + lead ≤ w.length ∧ t.Finds w anchored (.front t.root) (s + lead) := by
    induction lead generalizing s with
    | zero =>
      rw [finds_follows h.root_follows, Nat.add_zero]
      exact ⟨fun hfinds ↦ ⟨hfinds.le_length, hfinds⟩, And.right⟩
    | succ lead ih =>
      obtain ⟨x, hfirst, hkind, hlast⟩ := h.lead_follows hlead
      have hle := Nat.le_of_succ_le hlead
      rw [finds_follows hfirst, h.finds_full hw hkind, finds_follows hlast,
        h.finds_marker (h.start_kind hle), hboth hle, ih hle,
        show s + 1 + lead = s + (lead + 1) by omega]
      refine ⟨And.right, fun hfinds ↦ ⟨?_, hfinds⟩⟩
      have := hfinds.1
      omega
  cases isAnchored with
  | true => exact htrue
  | false => exact (hboth hlead).trans htrue

/-- **What searches find.** A walk from the start of a search through some of the lead-in finds what
the root matches behind as many characters. -/
theorem Regular.finds_iff_matches {ok : CodePointSet → Prop} (h : t.Regular ok)
    (hw : ∀ c ∈ w, c ∈ t.encoding.fullSet) {isAnchored : Bool} {lead : Nat}
    (hlead : lead ≤ t.leadLength) (hlength : lead ≤ w.length) :
    t.Finds w anchored (.back (t.start isAnchored lead)) 0 ↔
      t.Matches w anchored (.node t.root) lead w.length := by
  rw [h.finds_start_iff hw hlead, Nat.zero_add, h.finds_root_iff]
  exact and_iff_right hlength

end Tree

end PatternAutomata
