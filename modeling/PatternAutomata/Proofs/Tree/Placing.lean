import PatternAutomata.Proofs.Tree.Shape
import PatternAutomata.Tree.Repeat

/-!
# Placing atoms

A quantifier places an atom in an open sequence, or copies of it, with groups of its own around
them. All of this keeps the shape of the arena, and no node from before gets another place but the
atom itself.
-/

namespace PatternAutomata

namespace Arena

variable {ok : CodePointSet → Prop} {a b : Arena} {atom top id x p : Nat}

/-! ## Open places stay open -/

theorem Open.add (h : a.Open top id) (hforest : a.Forest) (k : NodeKind) :
    (a.add k).Open top id := by
  exact h.grows hforest (parent_size a) (Nat.ne_of_lt (h.top_lt hforest)) (.add k)

theorem Open.copy (h : a.Open top id) (hforest : a.Forest) (hx : x < a.size) :
    (a.copy x).Open top id := by
  exact h.grows hforest (parent_size a) (Nat.ne_of_lt (h.top_lt hforest)) (.copy hforest hx)

theorem Open.link_of_ne (h : a.Open top id) (hforest : a.Forest) (hp : p < a.size)
    (hx : x < a.size) (hloose : (a.node x).parent = none) (hne : top ≠ x) :
    (a.link p x).Open top id :=
  h.grows hforest hloose hne ((Grows.refl a).link hp hx (.inl rfl))

theorem Open.add_self {k : NodeKind} (hk : k.isLookBehind = false) :
    (a.add k).Open a.size a.size := by
  refine .self (by simp) ?_ ?_
  · rw [node_add, if_pos rfl]
  · rw [node_add, if_pos rfl]
    exact hk

/-! ## Arenas while an atom is being placed -/

/-- `b` is a well-shaped arena that `a` has grown to, where `atom` may have got a place. -/
structure Placing (ok : CodePointSet → Prop) (atom : Nat) (a b : Arena) : Prop where
  shaped : b.Shaped ok
  grows : Grows atom a b

/-- A term that may be placed: the atom, or a new node, that has no place yet. -/
structure Spare (atom : Nat) (a b : Arena) (x : Nat) : Prop where
  lt : x < b.size
  loose : (b.node x).parent = none
  term : (b.node x).kind.isTerm = true
  mine : x = atom ∨ a.size ≤ x

/-- A sequence that terms can be put into. -/
structure Fillable (b : Arena) (top sequence : Nat) : Prop where
  isOpen : b.Open top sequence
  kind : (b.node sequence).kind = .sequence

theorem Fillable.link_of_ne (h : b.Fillable top id) (hforest : b.Forest) (hp : p < b.size)
    (hx : x < b.size) (hloose : (b.node x).parent = none) (hne : top ≠ x) :
    (b.link p x).Fillable top id :=
  ⟨h.isOpen.link_of_ne hforest hp hx hloose hne, by rw [kind_link hp hx, h.kind]⟩

theorem Fillable.add (h : b.Fillable top id) (hforest : b.Forest) (k : NodeKind) :
    (b.add k).Fillable top id :=
  ⟨h.isOpen.add hforest k, by rw [node_add, if_neg (Nat.ne_of_lt h.isOpen.lt), h.kind]⟩

theorem Spare.add (h : Spare atom a b x) (k : NodeKind) : Spare atom a (b.add k) x := by
  have hnode : (b.add k).node x = b.node x := by rw [node_add, if_neg (Nat.ne_of_lt h.lt)]
  exact ⟨by rw [size_add]; exact Nat.lt_succ_of_lt h.lt, by rw [hnode, h.loose],
    by rw [hnode, h.term], h.mine⟩

namespace Placing

theorem refl (h : a.Shaped ok) : Placing ok atom a a := ⟨h, .refl a⟩

theorem add (h : Placing ok atom a b) {k : NodeKind} (hk : k.Plain ok) :
    Placing ok atom a (b.add k) :=
  ⟨h.shaped.add hk, h.grows.trans (.add k)⟩

theorem link (h : Placing ok atom a b) (hp : b.Open top p) (hx : x < b.size)
    (hloose : (b.node x).parent = none) (hne : top ≠ x)
    (htakes : (b.node p).kind.Takes (b.node x).kind) (hmine : x = atom ∨ a.size ≤ x) :
    Placing ok atom a (b.link p x) :=
  ⟨h.shaped.link hp hx hloose hne htakes, h.grows.link hp.lt hx hmine⟩

theorem fill (h : Placing ok atom a b) (hp : b.Fillable top p) (hx : Spare atom a b x)
    (hne : top ≠ x) : Placing ok atom a (b.link p x) := by
  refine h.link hp.isOpen hx.lt hx.loose hne ?_ hx.mine
  rw [hp.kind]
  exact hx.term

end Placing

/-! ## Choices -/

@[simp] theorem size_addChoice (g : Group) : (b.addChoice g).size = b.size + 3 := by
  simp [addChoice_eq]

theorem node_addChoice_of_lt (hx : x < b.size) (g : Group) :
    (b.addChoice g).node x = b.node x := by
  rw [addChoice_eq, node_add, if_neg (by simp; omega), node_add, if_neg (by simp; omega), node_add,
    if_neg (by omega)]

/-- A new group and two new sequences, none of them placed. -/
structure NewChoice (ok : CodePointSet → Prop) (atom : Nat) (a b c : Arena) : Prop where
  placing : Placing ok atom a c
  group : c.Open b.size b.size
  isGroup : (c.node b.size).kind.isGroup = true
  body : c.Fillable (b.size + 1) (b.size + 1)
  exit : c.Fillable (b.size + 2) (b.size + 2)

theorem newChoice (h : Placing ok atom a b) (g : Group) :
    NewChoice ok atom a b (b.addChoice g) := by
  rw [addChoice_eq]
  have h₁ : Placing ok atom a (b.add (.group g)) := h.add trivial
  have h₂ : Placing ok atom a ((b.add (.group g)).add .sequence) := h₁.add trivial
  have hsize₁ : (b.add (.group g)).size = b.size + 1 := size_add _
  have hsize₂ : ((b.add (.group g)).add .sequence).size = b.size + 2 := by rw [size_add, hsize₁]
  have hgroup : (b.add (.group g)).Open b.size b.size := .add_self rfl
  have hbody : ((b.add (.group g)).add .sequence).Fillable (b.size + 1) (b.size + 1) := by
    rw [← hsize₁]
    exact ⟨.add_self rfl, by rw [node_add, if_pos rfl]⟩
  refine ⟨h₂.add trivial, (hgroup.add h₁.shaped.forest _).add h₂.shaped.forest _, ?_,
    hbody.add h₂.shaped.forest _, ?_⟩
  · rw [node_add, if_neg (by omega), node_add, if_neg (by omega), node_add, if_pos rfl]
    rfl
  · rw [← hsize₂]
    exact ⟨.add_self rfl, by rw [node_add, if_pos rfl]⟩

@[simp] theorem size_linkChoice (b : Arena) (group body exit : Nat) (isLazy : Bool) :
    (b.linkChoice group body exit isLazy).size = b.size := by
  rw [linkChoice_eq]
  split <;> simp

theorem kind_linkChoice {group body exit : Nat} (hgroup : group < b.size) (hbody : body < b.size)
    (hexit : exit < b.size) (isLazy : Bool) :
    ((b.linkChoice group body exit isLazy).node x).kind = (b.node x).kind := by
  rw [linkChoice_eq]
  split
  · rw [kind_link (by simpa using hgroup) (by simpa using hbody), kind_link hgroup hexit]
  · rw [kind_link (by simpa using hgroup) (by simpa using hexit), kind_link hgroup hbody]

theorem parent_linkChoice {group body exit : Nat} (hgroup : group < b.size) (hbody : body < b.size)
    (hexit : exit < b.size) (hxb : x ≠ body) (hxe : x ≠ exit) (isLazy : Bool) :
    ((b.linkChoice group body exit isLazy).node x).parent = (b.node x).parent := by
  rw [linkChoice_eq]
  split
  · rw [node_link (by simpa using hgroup) (by simpa using hbody), if_neg hxb,
      node_link hgroup hexit, if_neg hxe]
  · rw [node_link (by simpa using hgroup) (by simpa using hexit), if_neg hxe,
      node_link hgroup hbody, if_neg hxb]

/-- Once its alternatives have been placed, a choice is as open as it was, and the sequence for the
body is open below it. -/
theorem Placing.linkChoice {group body exit : Nat} (h : Placing ok atom a b)
    (hgroup : b.Open group group) (hkind : (b.node group).kind.isGroup = true)
    (hbody : b.Fillable body body) (hexit : b.Fillable exit exit) (hgb : group ≠ body)
    (hge : group ≠ exit) (hbe : body ≠ exit) (hnew : a.size ≤ body ∧ a.size ≤ exit)
    (isLazy : Bool) :
    Placing ok atom a (b.linkChoice group body exit isLazy) ∧
      (b.linkChoice group body exit isLazy).Open group body ∧
      ∀ top id, b.Open top id → top ≠ body → top ≠ exit →
        (b.linkChoice group body exit isLazy).Open top id := by
  obtain ⟨g, hg⟩ := NodeKind.isGroup_iff.1 hkind
  -- one alternative after the other, in either order
  have hlink : ∀ {c : Arena} {s : Nat}, Placing ok atom a c → c.Open group group →
      (c.node group).kind = .group g → c.Fillable s s → group ≠ s → a.size ≤ s →
      Placing ok atom a (c.link group s) ∧ (c.link group s).Open group s ∧
        (c.node group).kind = ((c.link group s).node group).kind ∧
        ∀ top id, c.Open top id → top ≠ s → (c.link group s).Open top id := by
    intro c s hc hgc hkc hs hne hle
    have hlt := hs.isOpen.lt
    refine ⟨hc.link hgc hlt hs.isOpen.loose hne ?_ (.inr hle), hgc.link hlt hs.isOpen hne,
      (kind_link hgc.lt hlt).symm, fun _ _ hopen hne ↦
        hopen.link_of_ne hc.shaped.forest hgc.lt hlt hs.isOpen.loose hne⟩
    rw [hkc, hs.kind]
    trivial
  have hforest := h.shaped.forest
  cases isLazy with
  | false =>
    obtain ⟨h₁, hin₁, hkind₁, hother₁⟩ := hlink h hgroup hg hbody hgb hnew.1
    obtain ⟨h₂, -, -, hother₂⟩ := hlink h₁ (hother₁ _ _ hgroup hgb) (hkind₁ ▸ hg)
      (hexit.link_of_ne hforest hgroup.lt hbody.isOpen.lt hbody.isOpen.loose hbe.symm) hge hnew.2
    exact ⟨h₂, hother₂ _ _ hin₁ hge, fun top id hopen hb he ↦
      hother₂ _ _ (hother₁ _ _ hopen hb) he⟩
  | true =>
    obtain ⟨h₁, -, hkind₁, hother₁⟩ := hlink h hgroup hg hexit hge hnew.2
    obtain ⟨h₂, hin₂, -, hother₂⟩ := hlink h₁ (hother₁ _ _ hgroup hge) (hkind₁ ▸ hg)
      (hbody.link_of_ne hforest hgroup.lt hexit.isOpen.lt hexit.isOpen.loose hbe) hgb hnew.1
    exact ⟨h₂, hin₂, fun top id hopen hb he ↦ hother₂ _ _ (hother₁ _ _ hopen he) hb⟩

theorem Placing.choiceAround (h : Placing ok atom a b) (hx : Spare atom a b x) (g : Group)
    (isLazy : Bool) :
    let c := b.addChoice g
    let d := (c.link (b.size + 1) x).linkChoice b.size (b.size + 1) (b.size + 2) isLazy
    Placing ok atom a d ∧ Spare atom a d b.size ∧
      ∀ top id, b.Open top id → top ≠ x → d.Open top id := by
  intro c d
  have hc := newChoice h g
  have hxlt := hx.lt
  have hle := h.grows.size_le
  have hforest := h.shaped.forest
  have hxc : Spare atom a c x := ((hx.add _).add _).add _
  have hp := hc.body.isOpen.lt
  have hstay : ∀ {top id : Nat}, c.Open top id → top ≠ x → (c.link (b.size + 1) x).Open top id :=
    fun hopen hne ↦ hopen.link_of_ne hc.placing.shaped.forest hp hxc.lt hxc.loose hne
  have hgroup := hstay hc.group (by omega)
  have hkind : ((c.link (b.size + 1) x).node b.size).kind.isGroup = true := by
    rw [kind_link hp hxc.lt]
    exact hc.isGroup
  have hbody := hc.body.link_of_ne hc.placing.shaped.forest hp hxc.lt hxc.loose (by omega)
  have hexit := hc.exit.link_of_ne hc.placing.shaped.forest hp hxc.lt hxc.loose (by omega)
  obtain ⟨hd, -, hopen⟩ := (hc.placing.fill hc.body hxc (by omega)).linkChoice hgroup hkind
    hbody hexit (by omega) (by omega) (by omega) ⟨by omega, by omega⟩ isLazy
  have hself := hopen _ _ hgroup (by omega) (by omega)
  refine ⟨hd, ⟨hself.lt, hself.loose, ?_, .inr hle⟩, fun top id hid hne ↦ ?_⟩
  · rw [kind_linkChoice hgroup.lt hbody.isOpen.lt hexit.isOpen.lt]
    exact NodeKind.isTerm_of_isGroup hkind
  · have hlt := hid.top_lt hforest
    have hadded : c.Open top id := by
      have h₁ : Placing ok atom a (b.add (.group g)) := h.add trivial
      have h₂ : Placing ok atom a ((b.add (.group g)).add .sequence) := h₁.add trivial
      exact ((hid.add hforest _).add h₁.shaped.forest _).add h₂.shaped.forest _
    exact hopen _ _ (hstay hadded hne) (by omega) (by omega)

/-! ## Using an atom -/

/-- An atom of a well-shaped arena: a term that has no place before its first use. -/
structure Usable (atom : Nat) (isUsed : Bool) (b : Arena) : Prop where
  lt : atom < b.size
  term : (b.node atom).kind.isTerm = true
  loose : isUsed = false → (b.node atom).parent = none

theorem Usable.spare (h : Usable atom false b) : Spare atom a b atom :=
  ⟨h.lt, h.loose rfl, h.term, .inl rfl⟩

theorem Placing.useAtom {isUsed : Bool} (h : Placing ok atom a b) (hatom : Usable atom isUsed b) :
    Placing ok atom a (b.useAtom atom isUsed).2 ∧
      Spare atom a (b.useAtom atom isUsed).2 (b.useAtom atom isUsed).1 ∧
      Grows atom b (b.useAtom atom isUsed).2 ∧
      ∀ top id, b.Open top id → top ≠ atom → top ≠ (b.useAtom atom isUsed).1 ∧
        (b.useAtom atom isUsed).2.Open top id := by
  cases isUsed with
  | false => exact ⟨h, hatom.spare, .refl b, fun _ _ hopen hne ↦ ⟨hne, hopen⟩⟩
  | true =>
    have hforest := h.shaped.forest
    have hsize := h.grows.size_le
    obtain ⟨visited, hcopy⟩ := exists_copy hforest hatom.lt
    have hresult : b.useAtom atom true = (b.size, b.copy atom) := rfl
    have hlt : b.size < (b.copy atom).size := by
      rw [hcopy.size, List.length_cons]
      omega
    have hkind : ((b.copy atom).node b.size).kind = (b.node atom).kind := by
      rw [hcopy.kind, original_cons_size]
    rw [hresult]
    refine ⟨⟨h.shaped.copy hatom.lt, h.grows.trans (.copy hforest hatom.lt)⟩,
      ⟨hlt, hcopy.loose, by rw [hkind]; exact hatom.term, .inr hsize⟩,
      .copy hforest hatom.lt,
      fun top id hopen _ ↦ ⟨Nat.ne_of_lt (hopen.top_lt hforest), hopen.copy hforest hatom.lt⟩⟩

theorem Usable.of_grows {isUsed : Bool} {c : Arena} (h : Usable atom isUsed b)
    (hgrows : Grows atom b c) : Usable atom true c :=
  ⟨Nat.lt_of_lt_of_le h.lt hgrows.size_le, by rw [hgrows.kind _ h.lt]; exact h.term, nofun⟩

/-- **The step lemma of unrolling.** An atom is used once more in an open sequence. -/
theorem Placing.useIn {isUsed : Bool} {sequence : Nat} (h : Placing ok atom a b)
    (hatom : Usable atom isUsed b) (hp : b.Fillable top sequence) (hne : top ≠ atom) :
    let c := (b.useAtom atom isUsed).2.link sequence (b.useAtom atom isUsed).1
    Placing ok atom a c ∧ Usable atom true c ∧
      ∀ top id, b.Fillable top id → top ≠ atom → c.Fillable top id := by
  intro c
  obtain ⟨h₁, hspare, hgrows, hopen⟩ := h.useAtom hatom
  have hstay : ∀ top id, b.Fillable top id → top ≠ atom → top ≠ (b.useAtom atom isUsed).1 ∧
      (b.useAtom atom isUsed).2.Fillable top id := by
    intro top id hid hne
    obtain ⟨hne₁, hopen₁⟩ := hopen top id hid.isOpen hne
    exact ⟨hne₁, hopen₁, by rw [hgrows.kind _ hid.isOpen.lt, hid.kind]⟩
  obtain ⟨hne₁, hp₁⟩ := hstay _ _ hp hne
  refine ⟨h₁.fill hp₁ hspare hne₁, ?_, fun top id hid hne ↦ ?_⟩
  · have hatom₁ := hatom.of_grows hgrows
    refine ⟨by rw [size_link]; exact hatom₁.lt, ?_, nofun⟩
    rw [kind_link hp₁.isOpen.lt hspare.lt]
    exact hatom₁.term
  · obtain ⟨hne', hid'⟩ := hstay _ _ hid hne
    exact hid'.link_of_ne h₁.shaped.forest hp₁.isOpen.lt hspare.lt hspare.loose hne'

theorem Placing.placeTimes {n sequence : Nat} {isUsed : Bool} (h : Placing ok atom a b)
    (hatom : Usable atom isUsed b) (hp : b.Fillable top sequence) (hne : top ≠ atom) :
    Placing ok atom a (placeTimes sequence atom n isUsed b) ∧
      Usable atom (isUsed || decide (0 < n)) (Arena.placeTimes sequence atom n isUsed b) ∧
      (Arena.placeTimes sequence atom n isUsed b).Fillable top sequence := by
  induction n generalizing isUsed b with
  | zero =>
    rw [placeTimes_zero, show (isUsed || decide (0 < 0)) = isUsed by simp]
    exact ⟨h, hatom, hp⟩
  | succ n ih =>
    obtain ⟨h₁, hatom₁, hstay⟩ := h.useIn hatom hp hne
    obtain ⟨h₂, hatom₂, hp₂⟩ := ih h₁ hatom₁ (hstay _ _ hp hne)
    rw [placeTimes_succ, show (isUsed || decide (0 < n + 1)) = true by simp]
    exact ⟨h₂, by simpa using hatom₂, hp₂⟩

theorem Placing.openOptional {sequence : Nat} {isUsed : Bool} (h : Placing ok atom a b)
    (hatom : Usable atom isUsed b) (hp : b.Fillable top sequence) (isLazy : Bool) :
    let c := b.addChoice {}
    let d := c.linkChoice b.size (b.size + 1) (b.size + 2) isLazy
    Placing ok atom a d ∧ d.Fillable top sequence ∧ Spare atom a d b.size ∧
      Placing ok atom a (d.link sequence b.size) ∧
      (d.link sequence b.size).Fillable top (b.size + 1) ∧
      Usable atom isUsed (d.link sequence b.size) := by
  intro c d
  have hc : NewChoice ok atom a b c := newChoice h {}
  have hle := h.grows.size_le
  have hlt := hp.isOpen.top_lt h.shaped.forest
  have hatomlt := hatom.lt
  have h₁ : Placing ok atom a (b.add (.group {})) := h.add trivial
  have h₂ : Placing ok atom a ((b.add (.group {})).add .sequence) := h₁.add trivial
  have hpc : c.Fillable top sequence :=
    ((hp.add h.shaped.forest _).add h₁.shaped.forest _).add h₂.shaped.forest _
  obtain ⟨hd, hbody, hopen⟩ := hc.placing.linkChoice hc.group hc.isGroup hc.body hc.exit
    (by omega) (by omega) (by omega) ⟨by omega, by omega⟩ isLazy
  have hkind : ∀ x, (d.node x).kind = (c.node x).kind := fun x ↦
    kind_linkChoice hc.group.lt hc.body.isOpen.lt hc.exit.isOpen.lt isLazy
  have hpd : d.Fillable top sequence :=
    ⟨hopen _ _ hpc.isOpen (by omega) (by omega), by rw [hkind, hpc.kind]⟩
  have hgroup := hopen _ _ hc.group (by omega) (by omega)
  have hspare : Spare atom a d b.size := ⟨hgroup.lt, hgroup.loose,
    by rw [hkind]; exact NodeKind.isTerm_of_isGroup hc.isGroup, .inr hle⟩
  refine ⟨hd, hpd, hspare, hd.fill hpd hspare (by omega),
    ⟨hpd.isOpen.link hgroup.lt hbody (by omega),
      by rw [kind_link hpd.isOpen.lt hgroup.lt, hkind, hc.body.kind]⟩, ?_⟩
  have hnode : c.node atom = b.node atom := node_addChoice_of_lt hatomlt {}
  refine ⟨?_, ?_, fun hnot ↦ ?_⟩
  · rw [size_link]
    exact Nat.lt_trans hatomlt hgroup.lt
  · rw [kind_link hpd.isOpen.lt hgroup.lt, hkind, hnode]
    exact hatom.term
  · rw [node_link hpd.isOpen.lt hgroup.lt, if_neg (by omega),
      parent_linkChoice hc.group.lt hc.body.isOpen.lt hc.exit.isOpen.lt (by omega) (by omega),
      hnode]
    exact hatom.loose hnot

theorem Placing.placeOptional {n sequence : Nat} {isLazy isUsed : Bool} (h : Placing ok atom a b)
    (hatom : Usable atom isUsed b) (hp : b.Fillable top sequence) (hne : top ≠ atom) :
    Placing ok atom a (placeOptional atom isLazy n sequence isUsed b) := by
  induction n generalizing sequence isUsed b with
  | zero => exact h
  | succ n ih =>
    obtain ⟨-, -, -, he, hbody, hatome⟩ := h.openOptional hatom hp isLazy
    obtain ⟨hf, hatomf, hstay⟩ := he.useIn hatome hbody hne
    exact ih hf hatomf (hstay _ _ hbody hne)

/-! ## Quantifiers -/

theorem Placing.fillChoice {sequence : Nat} (h : Placing ok atom a b) (hx : Spare atom a b x)
    (hp : b.Fillable top sequence) (hne : top ≠ x) (g : Group) (isLazy : Bool) :
    let c := b.addChoice g
    let d := (c.link (b.size + 1) x).linkChoice b.size (b.size + 1) (b.size + 2) isLazy
    Placing ok atom a (d.link sequence b.size) := by
  intro c d
  obtain ⟨hd, hspare, hopen⟩ := h.choiceAround hx g isLazy
  have hopend := hopen _ _ hp.isOpen hne
  have hlt := hp.isOpen.top_lt h.shaped.forest
  have hplt := hp.isOpen.lt
  have hxlt := hx.lt
  have hc := newChoice h g
  have hkind : (d.node sequence).kind = .sequence := by
    have hsize : c.size = b.size + 3 := size_addChoice g
    rw [kind_linkChoice (by simp; omega) (by simp; omega) (by simp; omega),
      kind_link (by omega) (by omega), node_addChoice_of_lt hplt, hp.kind]
  exact hd.fill ⟨hopend, hkind⟩ hspare (by omega)

theorem used_pred (least : Nat) : (false || decide (0 < least - 1)) = decide (1 < least) := by
  rw [Bool.false_or, decide_eq_decide]
  omega

theorem Placing.placeCounted {sequence limit least : Nat} {greatest : Option Nat} {isLazy : Bool}
    {c : Arena} (h : Placing ok atom a b) (hatom : Usable atom false b)
    (hp : b.Fillable top sequence) (hne : top ≠ atom)
    (hc : b.placeCounted limit sequence atom least greatest isLazy = some c) :
    Placing ok atom a c := by
  rcases placeCounted_cases hc with ⟨-, rfl⟩ | ⟨n, -, -, -, rfl⟩ | ⟨-, -, rfl⟩
  · exact h
  · obtain ⟨h₁, hatom₁, hp₁⟩ := h.placeTimes (n := least) hatom hp hne
    exact h₁.placeOptional (by simpa using hatom₁) hp₁ hne
  · obtain ⟨h₁, hatom₁, hp₁⟩ := h.placeTimes (n := least - 1) hatom hp hne
    rw [used_pred] at hatom₁
    obtain ⟨h₂, hspare, hgrows, hopen⟩ := h₁.useAtom hatom₁
    obtain ⟨hne₂, hopen₂⟩ := hopen _ _ hp₁.isOpen hne
    exact h₂.fillChoice hspare ⟨hopen₂, by rw [hgrows.kind _ hp₁.isOpen.lt, hp₁.kind]⟩ hne₂ _ _

/-- **Every quantifier keeps the shape of the arena**, and places no node from before other than the
atom. -/
theorem Placing.place {sequence limit : Nat} {q : Quantifier} {c : Arena}
    (h : a.Shaped ok) (hlt : atom < a.size) (hloose : (a.node atom).parent = none)
    (hterm : (a.node atom).kind.isTerm = true) (hp : a.Fillable top sequence) (hne : top ≠ atom)
    (hc : a.place limit sequence atom q = some c) : Placing ok atom a c := by
  have hatom : Usable atom false a := ⟨hlt, hterm, fun _ ↦ hloose⟩
  rw [place_eq] at hc
  cases q with
  | once =>
    cases hc
    exact (Placing.refl h).fill hp hatom.spare hne
  | star isLazy | plus isLazy | optional isLazy =>
    cases hc
    exact (Placing.refl h).fillChoice hatom.spare hp hne _ _
  | counted least greatest isLazy => exact (Placing.refl h).placeCounted hatom hp hne hc

end Arena

end PatternAutomata
