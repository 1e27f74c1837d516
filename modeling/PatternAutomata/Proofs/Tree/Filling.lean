import PatternAutomata.Proofs.Pattern.Grammar
import PatternAutomata.Proofs.Tree.Placing

/-!
# What quantifiers place

A quantifier adds terms at the end of one sequence and leaves the children of all other nodes alone.
What it adds are uses of the atom, and at most one group behind them, which says how the atom goes
on.

A loop is made with both of its alternatives. Neither is ever filled again, so the way out of a loop
stays empty.
-/

namespace PatternAutomata

namespace Arena

variable {ok : CodePointSet → Prop} {a b c : Arena} {atom top sequence x p : Nat}
  {new new' : List Nat}

/-! ## Loops -/

/-- A loop has an alternative to be repeated and an empty one to leave by, in either order. -/
def HasWayOut (a : Arena) (loop : Nat) : Prop :=
  ∃ body exit, ((a.node loop).children.toList = [body, exit] ∨
      (a.node loop).children.toList = [exit, body]) ∧
    (a.node body).isEmpty = false ∧ (a.node exit).isEmpty = true

/-- All loops are complete. -/
def Looped (a : Arena) : Prop :=
  ∀ ⦃id : Nat⦄ ⦃g : Group⦄, (a.node id).kind = .group g → g.loop.isSome = true → a.HasWayOut id

/-- A node that is no loop and no alternative of one. -/
structure Free (a : Arena) (p : Nat) : Prop where
  self : ∀ {g : Group}, (a.node p).kind = .group g → g.loop = none
  up : ∀ {q : Nat} {g : Group}, a.Up p q → (a.node q).kind = .group g → g.loop = none

theorem Free.grows (h : a.Free p) (hforest : a.Forest) (hlt : p < a.size) (hne : p ≠ atom)
    (hgrows : Grows atom a b) : b.Free p where
  self hkind := by
    rw [hgrows.kind _ hlt] at hkind
    exact h.self hkind
  up hup hkind := by
    rw [Up, hgrows.parent _ hlt hne] at hup
    rw [hgrows.kind _ (hforest.parent_lt hup)] at hkind
    exact h.up hup hkind

theorem children_link {y : Nat} (hp : p < a.size) (hx : x < a.size) :
    ((a.link p x).node y).children.toList =
      (a.node y).children.toList ++ if y = p then [x] else [] := by
  rw [node_link hp hx]
  by_cases hy : y = p <;> simp [hy]

theorem children_add {k : NodeKind} {y : Nat} : ((a.add k).node y).children = (a.node y).children :=
  (samePlaces_add k).children y

theorem isEmpty_eq {n : Node} : n.isEmpty = n.children.toList.isEmpty := by
  rw [Node.isEmpty, Array.isEmpty_toList]

theorem HasWayOut.congr (h : a.HasWayOut x)
    (hchildren : ∀ y, y = x ∨ y ∈ (a.node x).children.toList →
      (b.node y).children.toList = (a.node y).children.toList) : b.HasWayOut x := by
  obtain ⟨body, exit, hbodies, hbody, hexit⟩ := h
  have hmem : body ∈ (a.node x).children.toList ∧ exit ∈ (a.node x).children.toList := by
    rcases hbodies with h | h <;> simp [h]
  refine ⟨body, exit, by rwa [hchildren x (.inl rfl)], ?_, ?_⟩
  · rwa [isEmpty_eq, hchildren body (.inr hmem.1), ← isEmpty_eq]
  · rwa [isEmpty_eq, hchildren exit (.inr hmem.2), ← isEmpty_eq]

namespace Looped

theorem empty : Looped {} := by
  intro id g hkind
  rw [node_of_size_le (Nat.zero_le _)] at hkind
  cases hkind

theorem add {k : NodeKind} (h : a.Looped) (hk : ∀ g, k = .group g → g.loop = none) :
    (a.add k).Looped := by
  intro id g hkind hloop
  by_cases hid : id = a.size
  · rw [hid, node_add, if_pos rfl] at hkind
    rw [hk g hkind] at hloop
    cases hloop
  · rw [node_add, if_neg hid] at hkind
    exact (h hkind hloop).congr fun y _ ↦ by rw [children_add]

theorem link (h : a.Looped) (hforest : a.Forest) (hp : a.Free p) (hlt : p < a.size)
    (hx : x < a.size) : (a.link p x).Looped := by
  intro id g hkind hloop
  rw [kind_link hlt hx] at hkind
  refine (h hkind hloop).congr fun y hy ↦ ?_
  rw [children_link hlt hx, if_neg, List.append_nil]
  rintro rfl
  have hnone : g.loop = none := by
    rcases hy with rfl | hy
    · exact hp.self hkind
    · exact hp.up (hforest.up_of_mem_toList hy) hkind
  rw [hnone] at hloop
  cases hloop

theorem copy (h : a.Looped) (hforest : a.Forest) (hid : x < a.size) : (a.copy x).Looped := by
  obtain ⟨visited, hcopy⟩ := exists_copy hforest hid
  have hchildren := hcopy.children_eq
  have hempty : ∀ y, ((a.copy x).node y).isEmpty =
      (a.node (a.original (x :: visited) y)).isEmpty := fun y ↦ by
    rw [isEmpty_eq, isEmpty_eq, ← hchildren, List.isEmpty_map]
  intro id g hkind hloop
  rw [hcopy.kind] at hkind
  obtain ⟨body, exit, hbodies, hbody, hexit⟩ := h hkind hloop
  rw [← hchildren, List.map_eq_cons_iff, List.map_eq_cons_iff] at hbodies
  rcases hbodies with ⟨y, l, hl, rfl, hrest⟩ | ⟨y, l, hl, rfl, hrest⟩
  all_goals
    obtain ⟨z, rfl, rfl⟩ := List.map_eq_singleton_iff.1 hrest
    rw [← hempty] at hbody hexit
  · exact ⟨y, z, .inl hl, hbody, hexit⟩
  · exact ⟨z, y, .inr hl, hbody, hexit⟩

theorem of_old (h : a.Looped) (hforest : a.Forest)
    (hkind : ∀ {id : Nat} {g : Group}, (b.node id).kind = .group g → g.loop.isSome = true →
      (∃ g', (a.node id).kind = .group g' ∧ g'.loop.isSome = true) ∨ b.HasWayOut id)
    (hchildren : ∀ y < a.size, (b.node y).children.toList = (a.node y).children.toList) :
    b.Looped := by
  intro id g hgroup hloop
  rcases hkind hgroup hloop with ⟨g', hold, hloop⟩ | hnew
  · refine (h hold hloop).congr fun y hy ↦ hchildren y ?_
    rcases hy with rfl | hy
    · exact lt_size_of_node_ne fun hd ↦ by rw [hd] at hold; cases hold
    · exact lt_size_of_parent (hforest.up_of_mem_toList hy)
  · exact hnew

end Looped

/-! ## Choices -/

theorem children_linkChoice {group body exit y : Nat} (hgroup : group < b.size)
    (hbody : body < b.size) (hexit : exit < b.size) (isLazy : Bool) :
    ((b.linkChoice group body exit isLazy).node y).children.toList = (b.node y).children.toList ++
      if y = group then if isLazy then [exit, body] else [body, exit] else [] := by
  rw [linkChoice_eq]
  split
  · rw [children_link (by simpa using hgroup) (by simpa using hbody), children_link hgroup hexit]
    by_cases hy : y = group <;> simp [hy]
  · rw [children_link (by simpa using hgroup) (by simpa using hexit), children_link hgroup hbody]
    by_cases hy : y = group <;> simp [hy]

theorem children_addChoice (g : Group) {y : Nat} :
    ((b.addChoice g).node y).children = (b.node y).children := by
  rw [addChoice_eq, children_add, children_add, children_add]

theorem kind_addChoice (g : Group) {y : Nat} :
    ((b.addChoice g).node y).kind = if y = b.size then .group g else (b.node y).kind := by
  have habsent : ∀ {z : Nat}, b.size ≤ z → (b.node z).kind = .sequence := fun hz ↦ by
    rw [node_of_size_le hz]
    rfl
  rw [addChoice_eq, node_add, node_add, node_add]
  simp only [size_add]
  split
  · rw [if_neg (by omega), habsent (by omega)]
  · split
    · rw [if_neg (by omega), habsent (by omega)]
    · split <;> rfl

theorem node_choice (g : Group) (isLazy : Bool) {y : Nat} :
    let d := (b.addChoice g).linkChoice b.size (b.size + 1) (b.size + 2) isLazy
    (d.node y).kind = (if y = b.size then .group g else (b.node y).kind) ∧
      (d.node y).children.toList = (b.node y).children.toList ++
        if y = b.size then if isLazy then [b.size + 2, b.size + 1] else [b.size + 1, b.size + 2]
        else [] := by
  have hsize := b.size_addChoice g
  constructor
  · rw [kind_linkChoice (by omega) (by omega) (by omega), kind_addChoice]
  · rw [children_linkChoice (by omega) (by omega) (by omega), children_addChoice]

theorem node_choiceAround (hx : x < b.size) (g : Group) (isLazy : Bool) {y : Nat} :
    let d :=
      ((b.addChoice g).link (b.size + 1) x).linkChoice b.size (b.size + 1) (b.size + 2) isLazy
    (d.node y).kind = (if y = b.size then .group g else (b.node y).kind) ∧
      (d.node y).children.toList = (b.node y).children.toList ++
        (if y = b.size + 1 then [x] else []) ++
        if y = b.size then if isLazy then [b.size + 2, b.size + 1] else [b.size + 1, b.size + 2]
        else [] := by
  have hsize := b.size_addChoice g
  have hlt : ∀ {z : Nat}, z < b.size + 3 → z < ((b.addChoice g).link (b.size + 1) x).size :=
    fun hz ↦ by rw [size_link, hsize]; exact hz
  constructor
  · rw [kind_linkChoice (hlt (by omega)) (hlt (by omega)) (hlt (by omega)),
      kind_link (by omega) (by omega), kind_addChoice]
  · rw [children_linkChoice (hlt (by omega)) (hlt (by omega)) (hlt (by omega)),
      children_link (by omega) (by omega), children_addChoice]

theorem Looped.choiceAround (h : b.Looped) (hforest : b.Forest) (hx : x < b.size) (g : Group)
    (isLazy : Bool) : (((b.addChoice g).link (b.size + 1) x).linkChoice b.size (b.size + 1)
      (b.size + 2) isLazy).Looped := by
  have hnode := fun y ↦ node_choiceAround (y := y) hx g isLazy
  have habsent : ∀ {z : Nat}, b.size ≤ z → (b.node z).children.toList = [] := fun hz ↦ by
    rw [node_of_size_le hz]
    rfl
  refine h.of_old hforest (fun {id _} hkind hloop ↦ ?_) fun y hy ↦ ?_
  · rw [(hnode id).1] at hkind
    split at hkind
    · next hid =>
      subst hid
      refine .inr ⟨b.size + 1, b.size + 2, ?_, ?_, ?_⟩
      · rw [(hnode _).2, habsent (Nat.le_refl _)]
        cases isLazy <;> simp
      · rw [isEmpty_eq, (hnode _).2]
        simp
      · rw [isEmpty_eq, (hnode _).2, habsent (by omega)]
        simp
    · exact .inl ⟨_, hkind, hloop⟩
  · rw [(hnode y).2, if_neg (by omega), if_neg (by omega), List.append_nil, List.append_nil]

/-! ## Filling a sequence -/

/-- `b` is `a` with more nodes, where a sequence has got some more terms. -/
structure Filling (ok : CodePointSet → Prop) (atom sequence : Nat) (new : List Nat) (a b : Arena) :
    Prop where
  placing : Placing ok atom a b
  /-- No other node gets children. -/
  children : ∀ y < a.size, (b.node y).children.toList =
    (a.node y).children.toList ++ if y = sequence then new else []
  /-- New groups capture nothing, or they are copies. -/
  kinds : ∀ {y : Nat} {g : Group}, (b.node y).kind = .group g →
    (∃ loop, g = { loop }) ∨ ∃ z, (a.node z).kind = .group g
  /-- Loops stay complete. -/
  looped : a.Looped → a.Free sequence → b.Looped

namespace Filling

theorem refl (h : a.Shaped ok) : Filling ok atom sequence [] a a :=
  ⟨.refl h, fun y _ ↦ by simp, fun {y _} hy ↦ .inr ⟨y, hy⟩, fun h _ ↦ h⟩

theorem trans_of {sequence' : Nat} {new₁ : List Nat} (h : Filling ok atom sequence new a b)
    (h' : Filling ok atom sequence' new' b c)
    (hchildren : ∀ y < a.size, (if y = sequence then new else []) ++
      (if y = sequence' then new' else []) = if y = sequence then new₁ else [])
    (hfree : a.Free sequence → b.Free sequence') : Filling ok atom sequence new₁ a c where
  placing := ⟨h'.placing.shaped, h.placing.grows.trans h'.placing.grows⟩
  children y hy := by
    rw [h'.children y (Nat.lt_of_lt_of_le hy h.placing.grows.size_le), h.children y hy,
      List.append_assoc, hchildren y hy]
  kinds hy := by
    rcases h'.kinds hy with hnone | ⟨z, hz⟩
    · exact .inl hnone
    · exact h.kinds hz
  looped hl hs := h'.looped (h.looped hl hs) (hfree hs)

theorem trans (h : Filling ok atom sequence new a b) (h' : Filling ok atom sequence new' b c)
    (hforest : a.Forest) (hlt : sequence < a.size) (hne : sequence ≠ atom) :
    Filling ok atom sequence (new ++ new') a c :=
  h.trans_of h' (fun y _ ↦ by split <;> simp) fun hs ↦ hs.grows hforest hlt hne h.placing.grows

theorem beyond {sequence' : Nat} (h : Filling ok atom sequence new a b)
    (h' : Filling ok atom sequence' new' b c) (hle : a.size ≤ sequence')
    (hfree : b.Free sequence') : Filling ok atom sequence new a c :=
  h.trans_of h' (fun y hy ↦ by rw [if_neg (by omega : y ≠ sequence'), List.append_nil])
    fun _ ↦ hfree

end Filling

theorem useAtom_spec (isUsed : Bool) (hforest : b.Forest) (hlt : atom < b.size) :
    (∀ y < b.size, (b.useAtom atom isUsed).2.node y = b.node y) ∧
      (∀ y, ∃ z, ((b.useAtom atom isUsed).2.node y).kind = (b.node z).kind) ∧
      ((b.useAtom atom isUsed).2.node (b.useAtom atom isUsed).1).kind = (b.node atom).kind ∧
      (b.Looped → (b.useAtom atom isUsed).2.Looped) := by
  cases isUsed with
  | false => exact ⟨fun _ _ ↦ rfl, fun y ↦ ⟨y, rfl⟩, rfl, id⟩
  | true =>
    obtain ⟨visited, hcopy⟩ := exists_copy hforest hlt
    have hresult : b.useAtom atom true = (b.size, b.copy atom) := rfl
    rw [hresult]
    refine ⟨hcopy.old, fun y ↦ ⟨_, hcopy.kind y⟩, ?_, fun hl ↦ hl.copy hforest hlt⟩
    rw [hcopy.kind, original_cons_size]

theorem Usable.ne_sequence {isUsed : Bool} (h : Usable atom isUsed b)
    (hp : b.Fillable top sequence) : sequence ≠ atom := by
  rintro rfl
  have hterm := h.term
  rw [hp.kind] at hterm
  cases hterm

theorem Filling.useIn {isUsed : Bool} (h : b.Shaped ok) (hatom : Usable atom isUsed b)
    (hp : b.Fillable top sequence) (hne : top ≠ atom) :
    Filling ok atom sequence [(b.useAtom atom isUsed).1] b
        ((b.useAtom atom isUsed).2.link sequence (b.useAtom atom isUsed).1) ∧
      (b.useAtom atom isUsed).1 < ((b.useAtom atom isUsed).2.link sequence
        (b.useAtom atom isUsed).1).size ∧
      (((b.useAtom atom isUsed).2.link sequence (b.useAtom atom isUsed).1).node
        (b.useAtom atom isUsed).1).kind = (b.node atom).kind := by
  obtain ⟨hold, hkinds, hkind, hlooped⟩ := useAtom_spec isUsed h.forest hatom.lt
  obtain ⟨hplacing, hspare, hgrows, -⟩ := (Placing.refl h).useAtom hatom
  have hlt := Nat.lt_of_lt_of_le hp.isOpen.lt hgrows.size_le
  refine ⟨⟨((Placing.refl h).useIn hatom hp hne).1, fun y hy ↦ ?_, fun {y g} hy ↦ ?_,
    fun hl hs ↦ ?_⟩, by rw [size_link]; exact hspare.lt, ?_⟩
  · rw [children_link hlt hspare.lt, hold y hy]
  · rw [kind_link hlt hspare.lt] at hy
    obtain ⟨z, hz⟩ := hkinds y
    exact .inr ⟨z, hz.symm.trans hy⟩
  · exact (hlooped hl).link hplacing.shaped.forest
      (hs.grows h.forest hp.isOpen.lt (hatom.ne_sequence hp) hgrows) hlt hspare.lt
  · rw [kind_link hlt hspare.lt, hkind]

/-- The terms that uses of an atom are. -/
def Uses (b : Arena) (kind : NodeKind) (new : List Nat) : Prop :=
  ∀ y ∈ new, y < b.size ∧ (b.node y).kind = kind

theorem Uses.grows {kind : NodeKind} (h : b.Uses kind new) (hgrows : Grows atom b c) :
    c.Uses kind new := fun y hy ↦
  ⟨Nat.lt_of_lt_of_le (h y hy).1 hgrows.size_le, (hgrows.kind y (h y hy).1).trans (h y hy).2⟩

theorem Filling.placeTimes {n : Nat} {isUsed : Bool} (h : b.Shaped ok)
    (hatom : Usable atom isUsed b) (hp : b.Fillable top sequence) (hne : top ≠ atom) :
    ∃ new, Filling ok atom sequence new b (Arena.placeTimes sequence atom n isUsed b) ∧
      new.length = n ∧
      (Arena.placeTimes sequence atom n isUsed b).Uses (b.node atom).kind new := by
  induction n generalizing isUsed b with
  | zero => exact ⟨[], .refl h, rfl, nofun⟩
  | succ n ih =>
    obtain ⟨hfirst, hlt, hkind⟩ := Filling.useIn h hatom hp hne
    obtain ⟨-, hatom₁, hstay⟩ := (Placing.refl h).useIn hatom hp hne
    obtain ⟨new, hrest, hlength, huses⟩ :=
      ih hfirst.placing.shaped hatom₁ (hstay _ _ hp hne)
    rw [hfirst.placing.grows.kind _ hatom.lt] at huses
    refine ⟨_, hfirst.trans hrest h.forest hp.isOpen.lt (hatom.ne_sequence hp), ?_, ?_⟩
    · rw [List.length_append, hlength, List.length_singleton, Nat.add_comm]
    · rintro y hy
      rcases List.mem_append.1 hy with hy | hy
      · rw [List.mem_singleton.1 hy]
        exact Uses.grows (List.forall_mem_singleton.2 ⟨hlt, hkind⟩) hrest.placing.grows _
          (List.mem_singleton_self _)
      · exact huses y hy

/-! ## Terms behind the others -/

theorem Filling.fill (h : Filling ok atom sequence [] a b) (hforest : a.Forest)
    (hs : sequence < a.size) (hne : sequence ≠ atom) (hx : Spare atom a b x)
    (hp : b.Fillable top sequence) (htop : top ≠ x) :
    Filling ok atom sequence [x] a (b.link sequence x) where
  placing := h.placing.fill hp hx htop
  children y hy := by
    rw [children_link hp.isOpen.lt hx.lt, h.children y hy, ite_self, List.append_nil]
  kinds {y g} hy := by
    rw [kind_link hp.isOpen.lt hx.lt] at hy
    exact h.kinds hy
  looped hl hfree := (h.looped hl hfree).link h.placing.shaped.forest
    (hfree.grows hforest hs hne h.placing.grows) hp.isOpen.lt hx.lt

theorem Filling.fillChoice (h : Filling ok atom sequence [] a b) (hforest : a.Forest)
    (hs : sequence < a.size) (hne : sequence ≠ atom) (hx : Spare atom a b x)
    (hp : b.Fillable top sequence) (htop : top ≠ x) {g : Group} (hg : ∃ loop, g = { loop })
    (isLazy : Bool) :
    let d :=
      ((b.addChoice g).link (b.size + 1) x).linkChoice b.size (b.size + 1) (b.size + 2) isLazy
    Filling ok atom sequence [b.size] a (d.link sequence b.size) ∧
      b.size < (d.link sequence b.size).size ∧
      ((d.link sequence b.size).node b.size).kind = .group g := by
  intro d
  have hnode := fun y ↦ node_choiceAround (y := y) hx.lt g isLazy
  obtain ⟨hd, hspare, hopen⟩ := h.placing.choiceAround hx g isLazy
  have hsize := h.placing.grows.size_le
  have hplt := hp.isOpen.lt
  have hpd : d.Fillable top sequence :=
    ⟨hopen _ _ hp.isOpen htop, by rw [(hnode sequence).1, if_neg (by omega), hp.kind]⟩
  have hdlt : b.size < d.size := hspare.lt
  have hfilling : Filling ok atom sequence [] a d := by
    refine ⟨hd, fun y hy ↦ ?_, fun {y g'} hy ↦ ?_, fun hl hfree ↦ ?_⟩
    · rw [(hnode y).2, if_neg (by omega), if_neg (by omega), List.append_nil, List.append_nil,
        h.children y hy]
    · rw [(hnode y).1] at hy
      split at hy
      · cases hy
        exact .inl hg
      · exact h.kinds hy
    · exact (h.looped hl hfree).choiceAround h.placing.shaped.forest hx.lt g isLazy
  refine ⟨hfilling.fill hforest hs hne hspare hpd ?_, by rw [size_link]; exact hdlt, ?_⟩
  · exact Nat.ne_of_lt (hp.isOpen.top_lt h.placing.shaped.forest)
  · rw [kind_link hpd.isOpen.lt hdlt, (hnode _).1, if_pos rfl]

theorem Filling.openOptional {isUsed : Bool} (h : b.Shaped ok) (hatom : Usable atom isUsed b)
    (hp : b.Fillable top sequence) (isLazy : Bool) :
    let d := (b.addChoice {}).linkChoice b.size (b.size + 1) (b.size + 2) isLazy
    Filling ok atom sequence [b.size] b (d.link sequence b.size) ∧
      (d.link sequence b.size).Free (b.size + 1) ∧ b.size < (d.link sequence b.size).size ∧
      ((d.link sequence b.size).node b.size).kind = .group {} := by
  intro d
  obtain ⟨hd, hpd, hspare, he, hbody, -⟩ : Placing ok atom b d ∧ d.Fillable top sequence ∧
      Spare atom b d b.size ∧ Placing ok atom b (d.link sequence b.size) ∧
      (d.link sequence b.size).Fillable top (b.size + 1) ∧
      Usable atom isUsed (d.link sequence b.size) := (Placing.refl h).openOptional hatom hp isLazy
  have hkind := fun y ↦ (node_choice (b := b) (y := y) {} isLazy).1
  have hchildren := fun y ↦ (node_choice (b := b) (y := y) {} isLazy).2
  have hfilling : Filling ok atom sequence [] b d := by
    refine ⟨hd, fun y hy ↦ ?_, fun {y g} hy ↦ ?_, fun hl _ ↦ ?_⟩
    · rw [hchildren, if_neg (by omega), ite_self]
    · rw [hkind] at hy
      split at hy
      · cases hy
        exact .inl ⟨none, rfl⟩
      · exact .inr ⟨y, hy⟩
    · refine hl.of_old h.forest (fun {id g} hid hloop ↦ .inl ?_) fun y hy ↦ ?_
      · rw [hkind] at hid
        split at hid
        · cases hid
          cases hloop
        · exact ⟨g, hid, hloop⟩
      · rw [hchildren, if_neg (by omega), List.append_nil]
  have hlt := hp.isOpen.lt
  have hne := Nat.ne_of_lt (hp.isOpen.top_lt h.forest)
  refine ⟨hfilling.fill h.forest hlt (hatom.ne_sequence hp) hspare hpd hne, ⟨?_, ?_⟩,
    by rw [size_link]; exact hspare.lt, ?_⟩
  · intro g hg
    cases hbody.kind.symm.trans hg
  · intro q g hq hg
    -- the body stands below the new group, which is no loop
    have hmem : b.size + 1 ∈ ((d.link sequence b.size).node b.size).children := by
      rw [← Array.mem_toList_iff, children_link hpd.isOpen.lt hspare.lt, hchildren, if_pos rfl]
      cases isLazy <;> simp
    obtain rfl : b.size = q :=
      Option.some.inj ((he.shaped.forest.up_of_mem hmem).symm.trans hq)
    rw [kind_link hpd.isOpen.lt hspare.lt, hkind, if_pos rfl] at hg
    cases hg
    rfl
  · rw [kind_link hpd.isOpen.lt hspare.lt, hkind, if_pos rfl]

theorem Filling.placeOptional {n : Nat} {isUsed : Bool} (h : b.Shaped ok)
    (hatom : Usable atom isUsed b) (hp : b.Fillable top sequence) (hne : top ≠ atom)
    (isLazy : Bool) :
    ∃ new, Filling ok atom sequence new b
        (Arena.placeOptional atom isLazy n sequence isUsed b) ∧
      (Arena.placeOptional atom isLazy n sequence isUsed b).Uses (.group {}) new ∧
      new.length = min n 1 := by
  induction n generalizing sequence isUsed b with
  | zero => exact ⟨[], .refl h, nofun, rfl⟩
  | succ n ih =>
    obtain ⟨hfirst, hfree, hlt, hkind⟩ := Filling.openOptional h hatom hp isLazy
    obtain ⟨-, -, -, he, hbody, hatome⟩ := (Placing.refl h).openOptional hatom hp isLazy
    obtain ⟨huse, -⟩ := Filling.useIn he.shaped hatome hbody hne
    obtain ⟨hf, hatomf, hstay⟩ := (Placing.refl he.shaped).useIn hatome hbody hne
    obtain ⟨new, hrest, -⟩ := ih hf.shaped hatomf (hstay _ _ hbody hne)
    have hinner := huse.trans hrest he.shaped.forest hbody.isOpen.lt (hatome.ne_sequence hbody)
    refine ⟨[b.size], hfirst.beyond hinner (Nat.le_succ _) hfree, ?_, by simp⟩
    exact Uses.grows (List.forall_mem_singleton.2 ⟨hlt, hkind⟩) hinner.placing.grows

theorem Filling.useAtom {isUsed : Bool} (h : b.Shaped ok) (hatom : Usable atom isUsed b) :
    Filling ok atom sequence [] b (b.useAtom atom isUsed).2 := by
  obtain ⟨hold, hkinds, -, hlooped⟩ := useAtom_spec isUsed h.forest hatom.lt
  refine ⟨((Placing.refl h).useAtom hatom).1, fun y hy ↦ by rw [hold y hy]; simp,
    fun {y g} hy ↦ ?_, fun hl _ ↦ hlooped hl⟩
  obtain ⟨z, hz⟩ := hkinds y
  exact .inr ⟨z, hz.symm.trans hy⟩

theorem Uses.all_chars_iff {kind : NodeKind} (h : b.Uses kind new) :
    (∀ y ∈ new, (b.node y).kind.isChars = true) ↔ new = [] ∨ kind.isChars = true := by
  cases new with
  | nil => simp
  | cons x new =>
    constructor
    · intro hall
      have hx := hall x List.mem_cons_self
      rw [(h x List.mem_cons_self).2] at hx
      exact .inr hx
    · rintro (hnil | hchars) y hy
      · cases hnil
      · rw [(h y hy).2, hchars]

/-! ## Quantifiers -/

theorem Filling.placeCounted {limit least : Nat} {greatest : Option Nat} {isLazy : Bool}
    (h : b.Shaped ok) (hatom : Usable atom false b) (hp : b.Fillable top sequence)
    (hne : top ≠ atom)
    (hc : b.placeCounted limit sequence atom least greatest isLazy = some c) :
    ∃ new, Filling ok atom sequence new b c ∧
      ((∀ y ∈ new, (c.node y).kind.isChars = true) ↔
        (Quantifier.counted least greatest isLazy).placesChars (b.node atom).kind.isChars =
          true) := by
  have hs := hp.isOpen.lt
  have hsne := hatom.ne_sequence hp
  rcases placeCounted_cases hc with ⟨rfl, rfl⟩ | ⟨greatest, hgreatest, rfl, -, rfl⟩ | ⟨rfl, -, rfl⟩
  · exact ⟨[], .refl h, by simp [Quantifier.placesChars]⟩
  · obtain ⟨h₁, hatom₁, hp₁⟩ := (Placing.refl h).placeTimes (n := least) hatom hp hne
    obtain ⟨new, hnew, hlength, huses⟩ := Filling.placeTimes (n := least) h hatom hp hne
    obtain ⟨new', hnew', huses', hlength'⟩ := Filling.placeOptional (n := greatest - least)
      h₁.shaped (by simpa using hatom₁) hp₁ hne isLazy
    refine ⟨new ++ new', hnew.trans hnew' h.forest hs hsne, ?_⟩
    have hnil : new = [] ↔ least = 0 := by rw [← List.length_eq_zero_iff, hlength]
    have hnil' : new' = [] ↔ greatest ≤ least := by
      rw [← List.length_eq_zero_iff, hlength']
      omega
    rw [List.forall_mem_append, (huses.grows hnew'.placing.grows).all_chars_iff,
      huses'.all_chars_iff, hnil, hnil']
    have hgroup : (NodeKind.group {}).isChars = false := rfl
    simp only [Quantifier.placesChars, hgroup, Bool.false_eq_true, or_false, Bool.or_eq_true,
      beq_iff_eq, hgreatest, false_or, Bool.and_eq_true, decide_eq_true_eq]
    constructor
    · rintro ⟨hzero | hchars, hle⟩
      · omega
      · exact ⟨hle, hchars⟩
    · rintro ⟨hle, hchars⟩
      exact ⟨.inr hchars, hle⟩
  · obtain ⟨h₁, hatom₁, hp₁⟩ := (Placing.refl h).placeTimes (n := least - 1) hatom hp hne
    obtain ⟨new, hnew, -⟩ := Filling.placeTimes (n := least - 1) h hatom hp hne
    rw [used_pred] at hatom₁
    obtain ⟨h₂, hspare, hgrows, hopen⟩ := (Placing.refl h₁.shaped).useAtom hatom₁
    obtain ⟨hne₂, hopen₂⟩ := hopen _ _ hp₁.isOpen hne
    have hs₁ := Nat.lt_of_lt_of_le hs hnew.placing.grows.size_le
    obtain ⟨hloop, -, hkind⟩ := (Filling.useAtom h₁.shaped hatom₁).fillChoice h₁.shaped.forest
      hs₁ hsne hspare ⟨hopen₂, by rw [hgrows.kind _ hs₁, hp₁.kind]⟩ hne₂
      (g := { loop := some (if least = 0 then .star else .plus) }) ⟨_, rfl⟩ isLazy
    refine ⟨_, hnew.trans hloop h.forest hs hsne, iff_of_false (fun hall ↦ ?_) nofun⟩
    have hchars := hall _ (List.mem_append_right _ (List.mem_singleton_self _))
    cases (congrArg NodeKind.isChars hkind).symm.trans hchars

/-- **What a quantifier places.** It adds terms to a sequence and leaves the children of all other
nodes alone; loops are made complete and stay so. -/
theorem Filling.place {limit : Nat} {q : Quantifier} (h : a.Shaped ok) (hlt : atom < a.size)
    (hloose : (a.node atom).parent = none) (hterm : (a.node atom).kind.isTerm = true)
    (hp : a.Fillable top sequence) (hne : top ≠ atom)
    (hc : a.place limit sequence atom q = some c) :
    ∃ new, Filling ok atom sequence new a c ∧ ((∀ y ∈ new, (c.node y).kind.isChars = true) ↔
      q.placesChars (a.node atom).kind.isChars = true) := by
  have hatom : Usable atom false a := ⟨hlt, hterm, fun _ ↦ hloose⟩
  have hs := hp.isOpen.lt
  have hsne := hatom.ne_sequence hp
  -- a choice around the atom is no class
  have hchoice : ∀ {g : Group} {isLazy : Bool}, (∃ loop, g = { loop }) →
      (((a.addChoice g).link (a.size + 1) atom).linkChoice a.size (a.size + 1) (a.size + 2)
        isLazy).link sequence a.size = c →
      ∃ new, Filling ok atom sequence new a c ∧
        ¬∀ y ∈ new, (c.node y).kind.isChars = true := by
    rintro g isLazy hg rfl
    obtain ⟨hfilling, -, hkind⟩ :=
      (Filling.refl h).fillChoice h.forest hs hsne hatom.spare hp hne hg isLazy
    refine ⟨_, hfilling, fun hall ↦ ?_⟩
    cases (congrArg NodeKind.isChars hkind).symm.trans (hall _ (List.mem_singleton_self _))
  rw [place_eq] at hc
  cases q with
  | once =>
    cases hc
    refine ⟨_, (Filling.refl h).fill h.forest hs hsne hatom.spare hp hne, ?_⟩
    rw [List.forall_mem_singleton, kind_link hs hlt, Quantifier.placesChars]
  | star isLazy | plus isLazy | optional isLazy =>
    obtain ⟨new, hfilling, hnot⟩ := hchoice ⟨_, rfl⟩ (Option.some.inj hc)
    exact ⟨new, hfilling, iff_of_false hnot nofun⟩
  | counted least greatest isLazy => exact Filling.placeCounted h hatom hp hne hc

/-! ## What lasts -/

/-- A property of arenas that survives every step of what quantifiers do. -/
structure Lasting (P : Arena → Prop) : Prop where
  link : ∀ {a : Arena} {p x : Nat}, (a.node p).kind = .sequence → P a → P (a.link p x)
  copy : ∀ {a : Arena} {x : Nat}, a.Forest → x < a.size → P a → P (a.copy x)
  choice : ∀ {a : Arena} (isLazy : Bool), P a →
    P ((a.addChoice {}).linkChoice a.size (a.size + 1) (a.size + 2) isLazy)
  choiceAround : ∀ {a : Arena} {x : Nat} (loop : Option LoopKind) (isLazy : Bool), x < a.size →
    P a → P (((a.addChoice { loop }).link (a.size + 1) x).linkChoice a.size (a.size + 1)
      (a.size + 2) isLazy)

namespace Lasting

variable {P : Arena → Prop} {isUsed isLazy : Bool} {n limit : Nat} (hP : Lasting P)
include hP

theorem useAtom (h : P b) (hforest : b.Forest) (hlt : atom < b.size) :
    P (b.useAtom atom isUsed).2 := by
  cases isUsed with
  | false => exact h
  | true => exact hP.copy hforest hlt h

theorem useIn (h : P b) (hb : b.Shaped ok) (hatom : Usable atom isUsed b)
    (hp : b.Fillable top sequence) :
    P ((b.useAtom atom isUsed).2.link sequence (b.useAtom atom isUsed).1) := by
  obtain ⟨-, -, hgrows, -⟩ := (Placing.refl hb).useAtom hatom
  exact hP.link ((hgrows.kind _ hp.isOpen.lt).trans hp.kind) (hP.useAtom h hb.forest hatom.lt)

theorem placeTimes (h : P b) (hb : b.Shaped ok) (hatom : Usable atom isUsed b)
    (hp : b.Fillable top sequence) (hne : top ≠ atom) :
    P (Arena.placeTimes sequence atom n isUsed b) := by
  induction n generalizing isUsed b with
  | zero => exact h
  | succ n ih =>
    obtain ⟨hplaced, hatom', hstay⟩ := (Placing.refl hb).useIn hatom hp hne
    exact ih (hP.useIn h hb hatom hp) hplaced.shaped hatom' (hstay _ _ hp hne)

theorem placeOptional (h : P b) (hb : b.Shaped ok) (hatom : Usable atom isUsed b)
    (hp : b.Fillable top sequence) (hne : top ≠ atom) :
    P (Arena.placeOptional atom isLazy n sequence isUsed b) := by
  induction n generalizing sequence isUsed b with
  | zero => exact h
  | succ n ih =>
    obtain ⟨-, hpd, -, he, hbody, hatome⟩ := (Placing.refl hb).openOptional hatom hp isLazy
    obtain ⟨hf, hatomf, hstay⟩ := (Placing.refl he.shaped).useIn hatome hbody hne
    have hopened := hP.link (x := b.size) hpd.kind (hP.choice isLazy h)
    exact ih (hP.useIn hopened he.shaped hatome hbody) hf.shaped hatomf (hstay _ _ hbody hne)

theorem fillChoice (h : P b) (hx : x < b.size) (hs : sequence < b.size)
    (hkind : (b.node sequence).kind = .sequence) (loop : Option LoopKind) (isLazy : Bool) :
    P ((((b.addChoice { loop }).link (b.size + 1) x).linkChoice b.size (b.size + 1) (b.size + 2)
      isLazy).link sequence b.size) := by
  refine hP.link ?_ (hP.choiceAround loop isLazy hx h)
  rw [(node_choiceAround hx _ isLazy).1, if_neg (Nat.ne_of_lt hs), hkind]

theorem placeCounted {least : Nat} {greatest : Option Nat} (h : P b) (hb : b.Shaped ok)
    (hatom : Usable atom false b) (hp : b.Fillable top sequence) (hne : top ≠ atom)
    (hc : b.placeCounted limit sequence atom least greatest isLazy = some c) : P c := by
  rcases placeCounted_cases hc with ⟨-, rfl⟩ | ⟨n, -, -, -, rfl⟩ | ⟨-, -, rfl⟩
  · exact h
  · obtain ⟨h₁, hatom₁, hp₁⟩ := (Placing.refl hb).placeTimes (n := least) hatom hp hne
    exact hP.placeOptional (hP.placeTimes h hb hatom hp hne) h₁.shaped (by simpa using hatom₁)
      hp₁ hne
  · obtain ⟨h₁, hatom₁, hp₁⟩ := (Placing.refl hb).placeTimes (n := least - 1) hatom hp hne
    rw [used_pred] at hatom₁
    obtain ⟨-, hspare, hgrows, -⟩ := (Placing.refl h₁.shaped).useAtom hatom₁
    have htimes := hP.placeTimes (n := least - 1) h hb hatom hp hne
    exact hP.fillChoice (hP.useAtom htimes h₁.shaped.forest hatom₁.lt) hspare.lt
      (Nat.lt_of_lt_of_le hp₁.isOpen.lt hgrows.size_le)
      ((hgrows.kind _ hp₁.isOpen.lt).trans hp₁.kind) _ _

/-- **What survives every step survives every quantifier.** -/
theorem place {q : Quantifier} (h : P b) (hb : b.Shaped ok) (hatom : Usable atom false b)
    (hp : b.Fillable top sequence) (hne : top ≠ atom)
    (hc : b.place limit sequence atom q = some c) : P c := by
  rw [place_eq] at hc
  cases q with
  | once =>
    cases hc
    exact hP.link hp.kind h
  | star isLazy | plus isLazy =>
    cases hc
    exact hP.fillChoice h hatom.lt hp.isOpen.lt hp.kind _ _
  | optional isLazy =>
    cases hc
    exact hP.fillChoice h hatom.lt hp.isOpen.lt hp.kind none _
  | counted least greatest isLazy => exact hP.placeCounted h hb hatom hp hne hc

end Lasting

end Arena

end PatternAutomata
