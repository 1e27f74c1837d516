import PatternAutomata.Proofs.Pattern.Acceptance
import PatternAutomata.Proofs.Tree.Finish

/-!
# Places in a pattern

A place in a pattern is told by the text that starts there. What is in front of it are parts with
their quantifiers, in any order: groups need not have ended by then, and nothing is said of what
follows. So it can be said of some text what it is read as wherever it stands.

Of a tree only the order of its nodes tells where they come from. The node of a class is the next
one once all events in front of the class have been taken.
-/

namespace PatternAutomata

namespace Grammar

variable {s t u rest : Bytes} {q : Quantifier}

/-! ## Parts in front of a place -/

/-- Parts lead from a place in a pattern to another one. -/
inductive ComesTo : Bytes → Bytes → Prop
  | here {s : Bytes} : ComesTo s s
  | single {isChars : Bool} {q : Quantifier} {s t u rest : Bytes} : Single isChars s t →
      Quantified t q u → ComesTo u rest → ComesTo s rest
  | openGroup {kind : GroupKind} {s t rest : Bytes} : Opens kind s t → ComesTo t rest →
      ComesTo s rest
  | bar {s t rest : Bytes} : Sign 0x7c s t → ComesTo t rest → ComesTo s rest
  | closeGroup {q : Quantifier} {s t u rest : Bytes} : Sign 0x29 s t → Quantified t q u →
      ComesTo u rest → ComesTo s rest

theorem ComesTo.eq_or_exists_part (h : ComesTo s rest) :
    s = rest ∨ ∃ next, Part.read s = .ok (some next) := by
  cases h with
  | here => exact .inl rfl
  | single hsingle _ _ =>
    obtain ⟨a, hread, -⟩ := hsingle.exists_read
    exact .inr ⟨_, hread⟩
  | openGroup hopens _ => exact .inr ⟨_, hopens.read_eq⟩
  | bar hsign _ => exact .inr ⟨_, read_bar hsign⟩
  | closeGroup hsign _ _ => exact .inr ⟨_, read_closeGroup hsign⟩

/-- What is read where some text starts does not belong to a quantifier in front of it. -/
def Separate (s : Bytes) : Prop :=
  ∀ sign t, Token.read s = .ok (some (sign, t)) → ¬Repeats sign

/-- A quantifier that parts lead on from is read whole, or else what is behind it cannot be read
at all. -/
theorem Quantified.read_of_comesTo (hq : Quantified t q u) (h : ComesTo u rest)
    (hrest : Separate rest) :
    Quantifier.read t = .ok (q, u) ∨
      ∃ e, Quantifier.read t = .error e ∧ Event.read rest = [.failure e] := by
  rcases h.eq_or_exists_part with rfl | ⟨next, hnext⟩
  · cases htoken : Token.read u with
    | error e =>
      refine .inr ⟨e, hq.read_eq_error htoken, event_read_error ?_⟩
      rw [Part.read, htoken]
      rfl
    | ok next =>
      exact .inl (hq.read_eq_of_token htoken fun sign v heq ↦ hrest sign v (heq ▸ htoken))
  · exact .inl (hq.read_eq hnext)

/-- **Parts are read one after the other**, up to the place that they lead to. -/
theorem ComesTo.event_read (h : ComesTo s rest) (hrest : Separate rest) :
    ∃ events, Event.read s = events ++ Event.read rest := by
  induction h with
  | here => exact ⟨[], rfl⟩
  | single hsingle hq hleads ih =>
    obtain ⟨a, hread, -⟩ := hsingle.exists_read
    rcases hq.read_of_comesTo hleads hrest with hquantifier | ⟨e, hquantifier, hfailure⟩
    · obtain ⟨events, heq⟩ := ih hrest
      exact ⟨.atom a _ :: events, by rw [event_read_atom hread hquantifier, heq]; rfl⟩
    · exact ⟨[.atom a .once], by rw [event_read_atom_error hread hquantifier, hfailure]; rfl⟩
  | openGroup hopens _ ih =>
    obtain ⟨events, heq⟩ := ih hrest
    exact ⟨_ :: events, by rw [event_read_openGroup hopens.read_eq, heq]; rfl⟩
  | bar hsign _ ih =>
    obtain ⟨events, heq⟩ := ih hrest
    exact ⟨_ :: events, by rw [event_read_bar (read_bar hsign), heq]; rfl⟩
  | @closeGroup _ _ t _ _ hsign hq hleads ih =>
    have hread := read_closeGroup hsign
    rcases hq.read_of_comesTo hleads hrest with hquantifier | ⟨e, hquantifier, hfailure⟩
    · obtain ⟨events, heq⟩ := ih hrest
      exact ⟨.closeGroup t _ :: events, by rw [event_read_closeGroup hread hquantifier, heq]; rfl⟩
    · exact ⟨[.closeGroup t .once],
        by rw [event_read_closeGroup_error hread hquantifier, hfailure]; rfl⟩

end Grammar

/-! ## Failures -/

/-- A failure while reading is reported, unless something in front of it has failed already. -/
theorem Tree.ofPattern_of_failure {o : Options} {pattern : Bytes} {before : List Event}
    {e : ReadError} (h : Event.read pattern.untilZero = before ++ [.failure e]) :
    (∃ e', Tree.ofPattern o pattern = .error e') ∧
      ∀ b, before.foldlM (TreeBuilder.take o) .start = .ok b →
        Tree.ofPattern o pattern =
          .error (e.map (pattern.untilZero.length - ·.length)) := by
  have hrun : (Event.read pattern.untilZero).foldlM (TreeBuilder.take o) .start =
      (before.foldlM (TreeBuilder.take o) .start).bind fun _ ↦ .error e := by
    rw [h, List.foldlM_append]
    rfl
  rw [Tree.ofPattern, Tree.ofEvents_eq, hrun]
  refine ⟨?_, fun b hb ↦ by rw [hb]; rfl⟩
  cases before.foldlM (TreeBuilder.take o) .start <;> exact ⟨_, rfl⟩

/-! ## The nodes of atoms -/

namespace TreeBuilder

variable {ok : CodePointSet → Prop} {o : Options} {b b' : TreeBuilder}

/-- Nodes stay, and stay what they are. -/
def Keeps (b b' : TreeBuilder) : Prop :=
  ∀ x < b.arena.size, x < b'.arena.size ∧ (b'.arena.node x).kind = (b.arena.node x).kind

theorem Keeps.trans {b'' : TreeBuilder} (h : b.Keeps b') (h' : b'.Keeps b'') : b.Keeps b'' := by
  intro x hx
  obtain ⟨hlt, hkind⟩ := h x hx
  obtain ⟨hlt', hkind'⟩ := h' x hlt
  exact ⟨hlt', hkind'.trans hkind⟩

theorem keeps_of_grows {atom : Nat} (h : Arena.Grows atom b.arena b'.arena) : b.Keeps b' :=
  fun x hx ↦ ⟨Nat.lt_of_lt_of_le hx h.size_le, h.kind x hx⟩

theorem keeps_place (h : b.Sound ok) {limit atom : Nat} {q : Quantifier}
    (hlt : atom < b.arena.size) (hloose : (b.arena.node atom).parent = none)
    (hterm : (b.arena.node atom).kind.isTerm = true) (hne : ∀ g ∈ b.groups, g.group ≠ atom)
    (hb' : b.place limit atom q = .ok b') : b.Keeps b' := by
  obtain ⟨arena, harena, rfl⟩ := exists_of_place_eq_ok hb'
  exact keeps_of_grows (Arena.Placing.place h.shaped hlt hloose hterm
    (h.fillable _ List.mem_cons_self) (hne _ List.mem_cons_self) harena).grows

theorem keeps_atom (h : b.Sound ok) {atom : Atom} {q : Quantifier}
    (hatom : (atom.kind o.encoding).Plain ok) (hb' : b.take o (.atom atom q) = .ok b') :
    TreeBuilder.Keeps { b with arena := b.arena.add (atom.kind o.encoding) } b' := by
  obtain ⟨hadd, hne, hloose, hterm⟩ := h.add hatom (by cases atom <;> rfl)
  exact keeps_place hadd (by simp) hloose hterm hne hb'

/-- **No event changes the nodes that there are.** -/
theorem keeps_take (h : b.Sound ok) {e : Event}
    (hgood : ∀ atom q, e = .atom atom q → (atom.kind o.encoding).Plain ok)
    (hb' : b.take o e = .ok b') : b.Keeps b' := by
  cases e with
  | atom atom q =>
    have hadd : Arena.Grows 0 b.arena (b.arena.add (atom.kind o.encoding)) := .add _
    exact (keeps_of_grows hadd).trans (keeps_atom h (hgood atom q rfl) hb')
  | openGroup kind =>
    rw [take_openGroup] at hb'
    cases hb'
    exact keeps_of_grows ((Arena.Grows.add _).trans (grows_openAlternative (by simp)))
  | bar =>
    rw [take_bar] at hb'
    cases hb'
    exact keeps_of_grows (grows_openAlternative (group_lt h List.mem_cons_self))
  | closeGroup left q =>
    obtain ⟨around, outer, houter, hfault, hplace⟩ := of_take_closeGroup hb'
    obtain ⟨-, hgrows, hlt, hloose, hterm, -⟩ := endGroup_spec h hfault
    obtain ⟨hended, -, hne⟩ := h.ended houter hfault
    have hkeeps : b.Keeps (b.ended around outer) := keeps_of_grows hgrows
    exact hkeeps.trans (keeps_place hended hlt hloose hterm hne hplace)
  | failure e => cases hb'

end TreeBuilder

theorem Arena.Ready.kind_finish_of_chars {ok : CodePointSet → Prop} {a : Arena} {root x : Nat}
    (h : a.Ready ok root) (encoding : Encoding) (captures : Nat) {set : CodePointSet}
    {claim : Option Nat} (hx : (a.node x).kind = .chars set claim) :
    ∃ claim', ((a.finish encoding root captures).node x).kind = .chars set claim' := by
  have hlt : x < a.size := by
    refine lt_size_of_node_ne fun hd ↦ ?_
    rw [hd] at hx
    cases hx
  have hnode :
      ((a.finish encoding root captures).node x).kind = ((a.complete root).node x).kind := by
    rw [finish_eq]
    exact (h.framed encoding.fullSet (a.reach root)).kind x hlt
  rw [hnode]
  rcases h.kind_complete_of_chars hx with ⟨id, -, -, hkind⟩ | ⟨-, hkind⟩
  · exact ⟨_, hkind⟩
  · exact ⟨_, hkind⟩

/-- **Where the node of an atom is.** If a pattern has a tree then all events in front of an atom
can be taken, and the next node is that of the atom. -/
theorem Tree.exists_chars_of_event {o : Options} {pattern : Bytes} {t : Tree}
    (ht : Tree.ofPattern o pattern = .ok t) {before after : List Event} {atom : Atom}
    {q : Quantifier} (hevents : Event.read pattern.untilZero = before ++ .atom atom q :: after)
    {set : CodePointSet} (hset : atom.kind o.encoding = .chars set none) :
    ∃ b claim, before.foldlM (TreeBuilder.take o) .start = .ok b ∧
      (t.node b.arena.size).kind = .chars set claim := by
  have hplain : ∀ (atom : Atom), (atom.kind o.encoding).Plain o.encoding.Fits :=
    fun atom ↦ atom.plain_kind o.encoding
  obtain ⟨last, hrun, rfl⟩ := exists_builder_of_ofPattern ht
  rw [hevents, List.foldlM_append] at hrun
  cases hbefore : before.foldlM (TreeBuilder.take o) .start with
  | error e =>
    rw [hbefore] at hrun
    cases hrun
  | ok b =>
    have hrun : (Event.atom atom q :: after).foldlM (TreeBuilder.take o) b = .ok last := by
      rwa [hbefore] at hrun
    rw [List.foldlM_cons] at hrun
    cases htake : b.take o (.atom atom q) with
    | error e =>
      rw [htake] at hrun
      cases hrun
    | ok b' =>
      have hrun : after.foldlM (TreeBuilder.take o) b' = .ok last := by rwa [htake] at hrun
      have hsound : b.Sound o.encoding.Fits := TreeBuilder.of_foldlM_take
        (fun _ h htake ↦ TreeBuilder.sound_take h (fun atom _ _ ↦ hplain atom) htake)
        TreeBuilder.sound_start hbefore
      have hsound' := TreeBuilder.sound_take hsound (fun atom _ _ ↦ hplain atom) htake
      obtain ⟨hlast, hkeeps⟩ : last.Sound o.encoding.Fits ∧ b'.Keeps last :=
        TreeBuilder.of_foldlM_take (P := fun l ↦ l.Sound o.encoding.Fits ∧ b'.Keeps l)
          (fun _ h htake ↦ ⟨TreeBuilder.sound_take h.1 (fun atom _ _ ↦ hplain atom) htake,
            h.2.trans (TreeBuilder.keeps_take h.1 (fun atom _ _ ↦ hplain atom) htake)⟩)
          ⟨hsound', fun x hx ↦ ⟨hx, rfl⟩⟩ hrun
      have hmine := ((TreeBuilder.keeps_atom hsound (hplain atom) htake).trans hkeeps
        b.arena.size (by simp)).2
      rw [Arena.node_add, if_pos rfl, hset] at hmine
      obtain ⟨claim, hkind⟩ := hlast.ready.kind_finish_of_chars o.encoding last.captures hmine
      exact ⟨b, claim, rfl, hkind⟩

end PatternAutomata
