import PatternAutomata.Proofs.Step.Completeness

/-!
# What a pattern matches

Which stretches of a text the nodes of a pattern match, put the way one would explain it: a sequence
matches what its terms match one after another, a group what one of its alternatives does, and a
loop what some iterations do. Nothing is said about how a match is found.

A match is found by walking through the tree, and the walks through the whole of it are the moves of
a step together with what is read between steps. Walks need no look at sets of markers: whether a
look-behind assertion holds is read off the text.
-/

namespace PatternAutomata

namespace Tree

variable {t : Tree} {w : List CodePoint} {anchored : Bool} {s e m i n : Nat}

/-- A node is a class with a character in its set. -/
def Reads (t : Tree) (id : Nat) (c : CodePoint) : Prop :=
  ∃ set claim, (t.node id).kind = .chars set claim ∧ c ∈ set

/-- The characters in front of a place in a text match the body of a look-behind assertion. -/
structure Precedes (t : Tree) (w : List CodePoint) (s : Nat) (lookBehind : Nat) : Prop where
  size_le : (t.body lookBehind).size ≤ s
  reads : ∀ {j x : Nat}, (t.body lookBehind)[j]? = some x →
    ∃ c, w[s - (t.body lookBehind).size + j]? = some c ∧ t.Reads x c

/-- What may match a stretch of a text. -/
inductive Piece
  /-- A node. -/
  | node (id : Nat)
  /-- Terms one after another. -/
  | terms (ids : List Nat)
  /-- The iterations of a loop, with or without one before them. -/
  | rounds (loop : Nat) (isAgain : Bool)

/-- The stretch of a text from one place to another matches. A search may be anchored to the start
of the text, as only then a caret holds. -/
inductive Matches (t : Tree) (w : List CodePoint) (anchored : Bool) : Piece → Nat → Nat → Prop
  /-- A class matches one character of its set. -/
  | chars {id s : Nat} {c : CodePoint} : t.Reads id c → w[s]? = some c →
      Matches t w anchored (.node id) s (s + 1)
  /-- A caret matches at the start of the text. -/
  | caret {id : Nat} : (t.node id).kind = .caret → anchored = true →
      Matches t w anchored (.node id) 0 0
  /-- A dollar matches at the end of the text. -/
  | dollar {id : Nat} : (t.node id).kind = .dollar →
      Matches t w anchored (.node id) w.length w.length
  /-- A look-behind assertion matches where its body does just in front. -/
  | lookBehind {id length s : Nat} : (t.node id).kind = .lookBehind length → t.Precedes w s id →
      Matches t w anchored (.node id) s s
  /-- A sequence matches what its terms match in order. -/
  | sequence {id s e : Nat} : (t.node id).kind = .sequence →
      Matches t w anchored (.terms (t.node id).children.toList) s e →
      Matches t w anchored (.node id) s e
  | nil {s : Nat} : Matches t w anchored (.terms []) s s
  | cons {id s m e : Nat} {ids : List Nat} : Matches t w anchored (.node id) s m →
      Matches t w anchored (.terms ids) m e → Matches t w anchored (.terms (id :: ids)) s e
  /-- A group that is no loop matches what any one of its alternatives does. -/
  | choice {id c s e : Nat} {g : Group} : (t.node id).kind = .group g → g.loop = none →
      c ∈ (t.node id).children → Matches t w anchored (.node c) s e →
      Matches t w anchored (.node id) s e
  /-- A loop matches what its iterations do. -/
  | loop {id s e : Nat} {g : Group} : (t.node id).kind = .group g → g.loop.isSome = true →
      Matches t w anchored (.rounds id false) s e → Matches t w anchored (.node id) s e
  /-- The iterations end with an empty alternative, which some loops only have after one. -/
  | exit {id c s e : Nat} {isAgain : Bool} {g : Group} : (t.node id).kind = .group g →
      (g.loop = some .plus → isAgain = true) → c ∈ (t.node id).children →
      (t.node c).isEmpty = true → Matches t w anchored (.node c) s e →
      Matches t w anchored (.rounds id isAgain) s e
  /-- An iteration matches what an alternative does that is not empty, and others may follow. -/
  | round {id c s m e : Nat} {isAgain : Bool} {g : Group} : (t.node id).kind = .group g →
      g.loop.isSome = true → c ∈ (t.node id).children → (t.node c).isEmpty = false →
      Matches t w anchored (.node c) s m →
      Matches t w anchored (.rounds id true) m e → Matches t w anchored (.rounds id isAgain) s e

/-! ## What a match consists of -/

theorem Matches.of_group {id : Nat} {g : Group}
    (h : t.Matches w anchored (.node id) s e) (hkind : (t.node id).kind = .group g)
    (hloop : g.loop = none) : ∃ c ∈ (t.node id).children, t.Matches w anchored (.node c) s e := by
  cases h with
  | choice _ _ hc h => exact ⟨_, hc, h⟩
  | loop hkind' hloop' =>
    cases hkind.symm.trans hkind'
    rw [hloop] at hloop'
    cases hloop'
  | chars hreads =>
    obtain ⟨_, _, hkind', -⟩ := hreads
    cases hkind.symm.trans hkind'
  | caret hkind' | dollar hkind' | lookBehind hkind' | sequence hkind' =>
    cases hkind.symm.trans hkind'

theorem Matches.of_loop {id : Nat} {g : Group} (h : t.Matches w anchored (.node id) s e)
    (hkind : (t.node id).kind = .group g) (hloop : g.loop.isSome = true) :
    t.Matches w anchored (.rounds id false) s e := by
  cases h with
  | loop _ _ h => exact h
  | choice hkind' hnone =>
    cases hkind.symm.trans hkind'
    rw [hnone] at hloop
    cases hloop
  | chars hreads =>
    obtain ⟨_, _, hkind', -⟩ := hreads
    cases hkind.symm.trans hkind'
  | caret hkind' | dollar hkind' | lookBehind hkind' | sequence hkind' =>
    cases hkind.symm.trans hkind'

theorem Matches.of_sequence {id : Nat} (h : t.Matches w anchored (.node id) s e)
    (hkind : (t.node id).kind = .sequence) :
    t.Matches w anchored (.terms (t.node id).children.toList) s e := by
  cases h with
  | sequence _ h => exact h
  | chars hreads =>
    obtain ⟨_, _, hkind', -⟩ := hreads
    cases hkind.symm.trans hkind'
  | caret hkind' | dollar hkind' | lookBehind hkind' | choice hkind' | loop hkind' =>
    cases hkind.symm.trans hkind'

theorem Matches.of_lookBehind {id length : Nat}
    (h : t.Matches w anchored (.node id) s e) (hkind : (t.node id).kind = .lookBehind length) :
    s = e ∧ t.Precedes w s id := by
  cases h with
  | lookBehind _ hprecedes => exact ⟨rfl, hprecedes⟩
  | chars hreads =>
    obtain ⟨_, _, hkind', -⟩ := hreads
    cases hkind.symm.trans hkind'
  | caret hkind' | dollar hkind' | sequence hkind' | choice hkind' | loop hkind' =>
    cases hkind.symm.trans hkind'

theorem Matches.of_cons {id : Nat} {ids : List Nat}
    (h : t.Matches w anchored (.terms (id :: ids)) s e) :
    ∃ m, t.Matches w anchored (.node id) s m ∧ t.Matches w anchored (.terms ids) m e := by
  cases h with
  | cons h hs => exact ⟨_, h, hs⟩

theorem Matches.of_nil (h : t.Matches w anchored (.terms []) s e) : s = e := by
  cases h
  rfl

section Terms

variable {x : Nat} {xs ys : List Nat}

theorem matches_nil_iff : t.Matches w anchored (.terms []) s e ↔ s = e :=
  ⟨Matches.of_nil, fun h ↦ h ▸ .nil⟩

theorem matches_cons_iff : t.Matches w anchored (.terms (x :: xs)) s e ↔
    ∃ m, t.Matches w anchored (.node x) s m ∧ t.Matches w anchored (.terms xs) m e := by
  refine ⟨Matches.of_cons, ?_⟩
  rintro ⟨m, h, hs⟩
  exact .cons h hs

theorem matches_append_iff : t.Matches w anchored (.terms (xs ++ ys)) s e ↔
    ∃ m, t.Matches w anchored (.terms xs) s m ∧ t.Matches w anchored (.terms ys) m e := by
  induction xs generalizing s with
  | nil => simp [matches_nil_iff]
  | cons x xs ih =>
    simp only [List.cons_append, matches_cons_iff, ih]
    constructor
    · rintro ⟨m, hx, n, hxs, hys⟩
      exact ⟨n, ⟨m, hx, hxs⟩, hys⟩
    · rintro ⟨n, ⟨m, hx, hxs⟩, hys⟩
      exact ⟨m, hx, n, hxs, hys⟩

theorem matches_singleton_iff :
    t.Matches w anchored (.terms [x]) s e ↔ t.Matches w anchored (.node x) s e := by
  simp [matches_cons_iff, matches_nil_iff]

theorem matches_sequence_iff (hkind : (t.node x).kind = .sequence)
    (hterms : (t.node x).children.toList = xs) :
    t.Matches w anchored (.node x) s e ↔ t.Matches w anchored (.terms xs) s e :=
  hterms ▸ ⟨(·.of_sequence hkind), .sequence hkind⟩

theorem Matches.concat (h : t.Matches w anchored (.terms xs) s m)
    (hx : t.Matches w anchored (.node x) m e) : t.Matches w anchored (.terms (xs ++ [x])) s e :=
  matches_append_iff.2 ⟨m, h, matches_singleton_iff.2 hx⟩

end Terms

/-! ## Walks -/

/-- A walk through the whole tree and the text goes on: by a move, which reads nothing, or by
reading a character. A dollar is only crossed at the end of the text. -/
inductive Advance (t : Tree) (w : List CodePoint) (anchored : Bool) : Spot × Nat → Spot × Nat → Prop
  | move {u v : Spot} {s : Nat} : Move t (t.Precedes w s) (anchored = true ∧ s = 0) u v →
      (t.AtDollar u → s = w.length) → Advance t w anchored (u, s) (v, s)
  | read {id s : Nat} {c : CodePoint} {r : Bool} : t.Reads id c → w[s]? = some c →
      Advance t w anchored (⟨id, false, r⟩, s) (.back id, s + 1)

/-- One walk goes on to the other. -/
def Walks (t : Tree) (w : List CodePoint) (anchored : Bool) : Spot × Nat → Spot × Nat → Prop :=
  Relation.ReflTransGen (t.Advance w anchored)

/-- A walk that ends where a match is found, at the end of the text. -/
def Finds (t : Tree) (w : List CodePoint) (anchored : Bool) (u : Spot) (s : Nat) : Prop :=
  t.Walks w anchored (u, s) (.front t.matchFound, w.length)

/-- What holds where a walk starts and survives every step holds where it ends. -/
@[elab_as_elim]
theorem Walks.induction {u : Spot}
    {motive : (v : Spot) → (k : Nat) → t.Walks w anchored (u, s) (v, k) → Prop}
    (refl : motive u s .refl)
    (step : ∀ {v v' : Spot} {k k' : Nat} (h : t.Walks w anchored (u, s) (v, k))
      (hstep : t.Advance w anchored (v, k) (v', k')), motive v k h → motive v' k' (h.tail hstep))
    {v : Spot} {k : Nat} (h : t.Walks w anchored (u, s) (v, k)) : motive v k h :=
  Relation.ReflTransGen.rec
    (motive := fun config (h : t.Walks w anchored (u, s) config) ↦ motive config.1 config.2 h)
    refl (fun h hstep ih ↦ step h hstep ih) h

/-- What holds where a match is found and is passed on backward holds where a walk to it starts. -/
@[elab_as_elim]
theorem Finds.induction {motive : (u : Spot) → (s : Nat) → t.Finds w anchored u s → Prop}
    (refl : motive (.front t.matchFound) w.length .refl)
    (step : ∀ {u v : Spot} {s k : Nat} (hstep : t.Advance w anchored (u, s) (v, k))
      (h : t.Finds w anchored v k), motive v k h → motive u s (.head hstep h))
    {u : Spot} {s : Nat} (h : t.Finds w anchored u s) : motive u s h :=
  Relation.ReflTransGen.head_induction_on
    (motive := fun config (h : t.Walks w anchored config (.front t.matchFound, w.length)) ↦
      motive config.1 config.2 h)
    h refl fun hstep h ih ↦ step hstep h ih

theorem Advance.onward {u v : Spot}
    (h : Onward t (t.Precedes w s) (anchored = true ∧ s = 0) u v)
    (hu : u.isLeaving = true ∨ (t.node u.node).kind ≠ .dollar) :
    t.Advance w anchored (u, s) (v, s) :=
  .move (.onward h) fun hat ↦ by
    rcases hu with hu | hu
    · rw [hat.1] at hu
      cases hu
    · exact absurd hat.2 hu

/-! ## Matches are walks -/

theorem Regular.child {ok : CodePointSet → Prop} (h : t.Regular ok) {p c : Nat}
    (hc : (t.node p).children[i]? = some c) :
    (t.node c).parent = some p ∧ (t.node c).index = i :=
  h.forest.child hc

/-- Where the terms of a sequence start from one of them on: in front of it, or at the end of the
sequence if there is none. -/
def entry (t : Tree) (p i : Nat) : Spot :=
  match (t.node p).children[i]? with
  | some c => .front c
  | none => .back p

/-- The walk that a match of a piece makes. -/
def WalksThrough (t : Tree) (w : List CodePoint) (anchored : Bool) (s e : Nat) : Piece → Prop
  | .node id => t.Walks w anchored (.front id, s) (.back id, e)
  | .terms ids => ∀ p i, (t.node p).kind = .sequence → (t.node p).children.toList.drop i = ids →
      t.Walks w anchored (t.entry p i, s) (.back p, e)
  | .rounds loop isAgain => t.Walks w anchored (⟨loop, false, isAgain⟩, s) (.back loop, e)

/-- **A match makes a walk.** -/
theorem Regular.walksThrough {ok : CodePointSet → Prop} (h : t.Regular ok) {piece : Piece}
    (hm : t.Matches w anchored piece s e) : t.WalksThrough w anchored s e piece := by
  have hup : ∀ {c p : Nat}, c ∈ (t.node p).children → (t.node c).parent = some p :=
    fun hc ↦ h.forest.up_of_mem hc
  -- along the match; the terms that are left tell which term of the sequence comes next
  induction hm with
  | chars hreads hw => exact .single (.read hreads hw)
  | caret hkind hanchored =>
    exact .single (.onward (.caret hkind ⟨hanchored, rfl⟩) (.inr (by rw [hkind]; nofun)))
  | dollar hkind => exact .single (.move (.onward (.dollar hkind)) fun _ ↦ rfl)
  | lookBehind hkind hprecedes =>
    exact .single (.onward (.lookBehind hkind hprecedes) (.inr (by rw [hkind]; nofun)))
  | @sequence id s e hkind _ ih =>
    refine .head ?_ (ih id 0 hkind List.drop_zero)
    unfold entry
    split
    · next c hc => exact .onward (.first hkind hc) (.inr (by rw [hkind]; nofun))
    · next hnone => exact .onward (.skip hkind hnone) (.inr (by rw [hkind]; nofun))
  | nil =>
    intro p i _ hdrop
    have hnone : (t.node p).children[i]? = none := by
      rw [← Array.getElem?_toList, List.getElem?_eq_none_iff]
      exact List.drop_eq_nil_iff.1 hdrop
    unfold entry
    rw [hnone]
    exact .refl
  | @cons id s m e ids _ _ ih ihs =>
    intro p i hkind hdrop
    have hget : (t.node p).children[i]? = some id := by
      rw [← Array.getElem?_toList, ← List.head?_drop, hdrop]
      rfl
    obtain ⟨hparent, hindex⟩ := h.child hget
    have hdrop' : (t.node p).children.toList.drop (i + 1) = ids := by
      rw [← List.drop_drop, hdrop]
      rfl
    have hfirst : t.entry p i = .front id := by rw [entry, hget]
    rw [hfirst]
    refine ih.trans (.head ?_ (ihs p (i + 1) hkind hdrop'))
    unfold entry
    rw [← hindex]
    split
    · next c hc => exact .onward (.next hparent hkind hc) (.inl rfl)
    · next hnone => exact .onward (.last hparent hkind hnone) (.inl rfl)
  | @choice id c s e g hkind hloop hc _ ih =>
    have hadmits : t.Admits g false c := fun hplus ↦ by rw [hloop] at hplus; cases hplus
    refine .head (.onward (.choose hkind hc hadmits) (.inr (by rw [hkind]; nofun))) (ih.tail ?_)
    refine .onward (.out (hup hc) hkind fun hsome ↦ ?_) (.inl rfl)
    rw [hloop] at hsome
    cases hsome
  | loop _ _ _ ih => exact ih
  | @exit id c s e isAgain g hkind hplus hc hempty _ ih =>
    refine .head (.onward (.choose hkind hc fun h _ ↦ hplus h) (.inr (by rw [hkind]; nofun)))
      (ih.tail ?_)
    exact .onward (.out (hup hc) hkind fun _ ↦ hempty) (.inl rfl)
  | @round id c s m e isAgain g hkind hloop hc hempty _ _ ih ihs =>
    have hadmits : t.Admits g isAgain c := fun _ h ↦ by rw [hempty] at h; cases h
    refine .head (.onward (.choose hkind hc hadmits) (.inr (by rw [hkind]; nofun))) (ih.trans ?_)
    exact .head (.move (.again ⟨rfl, hup hc, ⟨g, hkind, hloop⟩, hempty⟩) (by rintro ⟨⟨⟩, -⟩)) ihs

end Tree

end PatternAutomata
