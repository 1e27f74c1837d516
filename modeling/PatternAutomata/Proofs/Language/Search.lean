import PatternAutomata.Proofs.Automaton.LoopBacks
import PatternAutomata.Proofs.Language.Recognition

/-!
# Searches

A search may skip characters by loop-backs before it goes into the pattern, and never after that. So
it comes to where the runs come that leave out some characters at the front; the lead that they
start with is shorter by as many, as long as there is any.

As the lead gets shorter with each character that is skipped, a match that starts farther behind
has nothing in front of it that the search still knows of. Look-behind assertions hold there just if
they would at the start of a text.
-/

namespace PatternAutomata

variable {o : Options} {pattern : Bytes} {t : Tree} {fl : Flags} {a : Automaton}
  {lead p q : Nat} {u v w : List CodePoint}

/-! ## Stretches of longer texts -/

namespace Tree

variable {piece : Piece} {s e : Nat}

theorem Precedes.append_left {l : Nat} (h : t.Precedes w s l) (u : List CodePoint) :
    t.Precedes (u ++ w) (u.length + s) l where
  size_le := Nat.le_trans h.size_le (Nat.le_add_left ..)
  reads {j x} hx := by
    obtain ⟨c, hc, hreads⟩ := h.reads hx
    have hsize := h.size_le
    refine ⟨c, ?_, hreads⟩
    rw [List.getElem?_append_right (by omega), ← hc]
    congr 1
    omega

theorem Matches.append_left (h : t.Matches w false piece s e) (u : List CodePoint) :
    t.Matches (u ++ w) false piece (u.length + s) (u.length + e) := by
  refine h.shift List.length_append.symm (fun s c hw ↦ ?_) fun s l hbody ↦ hbody.append_left u
  rwa [List.getElem?_append_right (Nat.le_add_right _ _), Nat.add_sub_cancel_left]

/-- The nodes that a match of a piece may go through belong to the tree. -/
def Piece.Held (t : Tree) : Piece → Prop
  | .node id => t.Holds id
  | .terms ids => ∀ id ∈ ids, t.Holds id
  | .rounds loop _ => t.Holds loop

theorem Regular.matches_of_append_left {ok : CodePointSet → Prop} (h : t.Regular ok)
    (hnone : t.lookBehinds = #[]) (hheld : piece.Held t) {w' : List CodePoint}
    (hmatches : t.Matches w' false piece s e) {s' : Nat} (hw : w' = u ++ w)
    (hs : s = u.length + s') : ∃ e', e = u.length + e' ∧ t.Matches w false piece s' e' := by
  have hdown : ∀ {c p : Nat}, t.Holds p → c ∈ (t.node p).children → t.Holds c :=
    fun hp hc ↦ .head (h.forest.up_of_mem hc) hp
  subst hw
  induction hmatches generalizing s' with
  | @chars id s c hreads hc =>
    subst hs
    rw [List.getElem?_append_right (Nat.le_add_right ..), Nat.add_sub_cancel_left] at hc
    exact ⟨s' + 1, Nat.add_assoc .., .chars hreads hc⟩
  | caret _ hanchored => cases hanchored
  | dollar hkind =>
    rw [List.length_append] at hs ⊢
    obtain rfl := Nat.add_left_cancel hs
    exact ⟨w.length, rfl, .dollar hkind⟩
  | @lookBehind id length s hkind _ =>
    have hmem : id ∈ t.lookBehinds := h.mem_lookBehinds.2 ⟨by rw [hkind]; rfl, hheld⟩
    rw [hnone] at hmem
    exact absurd hmem (Array.not_mem_empty id)
  | sequence hkind _ ih =>
    obtain ⟨e', he, hm⟩ := ih (fun c hc ↦ hdown hheld (Array.mem_toList_iff.1 hc)) hs
    exact ⟨e', he, .sequence hkind hm⟩
  | nil => exact ⟨s', hs, .nil⟩
  | cons _ _ ih ihs =>
    obtain ⟨hid, hids⟩ := List.forall_mem_cons.1 hheld
    obtain ⟨m', hm', hfirst⟩ := ih hid hs
    obtain ⟨e', he, hrest⟩ := ihs hids hm'
    exact ⟨e', he, .cons hfirst hrest⟩
  | choice hkind hloop hc _ ih =>
    obtain ⟨e', he, hm⟩ := ih (hdown hheld hc) hs
    exact ⟨e', he, .choice hkind hloop hc hm⟩
  | loop hkind hloop _ ih =>
    obtain ⟨e', he, hm⟩ := ih hheld hs
    exact ⟨e', he, .loop hkind hloop hm⟩
  | exit hkind hplus hc hempty _ ih =>
    obtain ⟨e', he, hm⟩ := ih (hdown hheld hc) hs
    exact ⟨e', he, .exit hkind hplus hc hempty hm⟩
  | round hkind hloop hc hempty _ _ ih ihs =>
    obtain ⟨m', hm', hfirst⟩ := ih (hdown hheld hc) hs
    obtain ⟨e', he, hrest⟩ := ihs hheld hm'
    exact ⟨e', he, .round hkind hloop hc hempty hfirst hrest⟩

theorem matches_drop (r : Nat) (h : t.Matches (w.drop r) false piece s e) (hr : r ≤ w.length) :
    t.Matches w false piece (r + s) (r + e) := by
  have hm := h.append_left (w.take r)
  rwa [List.take_append_drop, List.length_take_of_le hr] at hm

end Tree

/-! ## Searches skip characters and then run -/

namespace Automaton

/-- A search at a state may take the transitions that leave it, loop-backs among them, and, if it is
at the source of that, the loop-back that leaves no state. -/
def MayTake (a : Automaton) (p i : Nat) : Prop :=
  i ∈ (a.state p).out ∨ i = a.loopBack ∧ (a.transition i).source = p

/-- A search from a state on a word: each character takes a transition, and no final state is
entered. -/
inductive Searches (a : Automaton) (q : Nat) : List CodePoint → Nat → Prop
  | nil : Searches a q [] q
  | snoc {v : List CodePoint} {c : CodePoint} {p i : Nat} : Searches a q v p → a.MayTake p i →
      (a.state (a.transition i).target).isFinal = false → c ∈ (a.transition i).on →
      Searches a q (v ++ [c]) (a.transition i).target

theorem Searches.append_runs (h : a.Searches q u p) {p' : Nat} (hrun : a.Runs p v p') :
    a.Searches q (u ++ v) p' := by
  induction hrun with
  | nil => rwa [List.append_nil]
  | snoc _ htr hfinal hc ih =>
    obtain ⟨⟨i, hi, rfl⟩, -⟩ := htr
    rw [← List.append_assoc]
    exact ih.snoc (.inl hi) hfinal hc

theorem Runs.eq_of_mem (h : a.Runs q v p) (hp : p ∈ a.unanchored.states) : v = [] ∧ p = q := by
  cases h with
  | nil => exact ⟨rfl, rfl⟩
  | snoc _ htr _ _ => exact absurd hp htr.2.1

section pattern

variable (ht : Tree.ofPattern o pattern = .ok t) (ha : ofTree t o fl = .ok a)
  (hmust : o.mustAdvance = false)
include ht ha hmust

/-- **Skipping a character** leads from a lead to the next shorter one, or from none to none. -/
theorem exists_skip (hlead : lead ≤ t.leadLength) :
    ∃ i, a.MayTake (a.initial false lead) i ∧ a.transition i =
      { source := a.initial false lead, target := a.initial false (lead - 1)
        on := t.encoding.fullSet } := by
  obtain ⟨h, -, -, hstands⟩ := starts_ofPattern ht ha hlead false
  cases lead with
  | zero =>
    have hloop := transition_loopBack h ha hmust
    exact ⟨a.loopBack, .inr ⟨rfl, by rw [hloop]⟩, hloop⟩
  | succ lead =>
    obtain ⟨i, hi, htr⟩ := (leaves_iff h ha hstands).2 (.inr ⟨rfl, .shorten hlead⟩)
    exact ⟨i, .inl hi, htr⟩

/-- What a search may take is what expansion has made, or it skips a character. -/
theorem expands_or_skips (hp : ∃ k, a.Stands t p k) {i : Nat} (hi : a.MayTake p i) :
    a.Expands p (a.transition i) ∨ ∃ lead ≤ t.leadLength, p = a.initial false lead ∧
      (a.transition i).target = a.initial false (lead - 1) := by
  have h := (Tree.regular_of_ofPattern ht).2
  obtain ⟨k, hk⟩ := hp
  rcases hi with hi | ⟨rfl, hsource⟩
  · generalize htr : a.transition i = tr
    rcases (leaves_iff h ha hk).1 ⟨i, hi, htr⟩ with hexpands | ⟨rfl, hback⟩
    · exact .inl hexpands
    · rw [advanced_eq_none h ha hmust] at hback
      cases hback with
      | @shorten lead hlead => exact .inr ⟨lead + 1, hlead, rfl, rfl⟩
      | advance hadvanced => cases hadvanced
  · rw [transition_loopBack h ha hmust] at hsource ⊢
    exact .inr ⟨0, Nat.zero_le _, hsource.symm, rfl⟩

theorem searches_skip (hlead : lead ≤ t.leadLength) (hv : ∀ c ∈ v, c ∈ t.encoding.fullSet) :
    a.Searches (a.initial false lead) v (a.initial false (lead - v.length)) := by
  induction v using List.reverseRecOn with
  | nil => exact .nil
  | append_singleton v c ih =>
    obtain ⟨hv, hc⟩ := List.forall_mem_append.1 hv
    have hle : lead - v.length ≤ t.leadLength := Nat.le_trans (Nat.sub_le ..) hlead
    obtain ⟨i, hi, htr⟩ := exists_skip ht ha hmust hle
    obtain ⟨h, -, -, hstands⟩ := starts_ofPattern ht ha (Nat.le_trans (Nat.sub_le _ 1) hle) false
    have hsearch := (ih hv).snoc hi (c := c)
    rw [htr] at hsearch
    rw [List.length_append, List.length_singleton, ← Nat.sub_sub]
    exact hsearch (hstands.isFinal_eq_false h ha) (List.forall_mem_singleton.1 hc)

/-- **A search skips characters and then runs.** The lead gets shorter with each that is skipped. -/
theorem searches_iff_exists_runs (hlead : lead ≤ t.leadLength)
    (hw : ∀ c ∈ w, c ∈ t.encoding.fullSet) : a.Searches (a.initial false lead) w p ↔
      ∃ j ≤ w.length, a.Runs (a.initial false (lead - j)) (w.drop j) p := by
  constructor
  · intro hsearch
    clear hw
    -- nothing leads back to where a search starts once something has been read otherwise
    induction hsearch with
    | nil => exact ⟨0, Nat.le_refl _, .nil⟩
    | @snoc v c p i _ hi hfinal hc ih =>
      obtain ⟨j, hj, hrun⟩ := ih
      have hle : lead - j ≤ t.leadLength := Nat.le_trans (Nat.sub_le ..) hlead
      obtain ⟨h, hr, hkind, hstands⟩ := starts_ofPattern ht ha hle false
      obtain ⟨held, hp, -⟩ := hr.tracks_of_runs h hkind hstands hrun (List.prefix_refl _)
      rcases expands_or_skips ht ha hmust ⟨_, hp⟩ hi with hexpands | ⟨lead', hlead', rfl, htarget⟩
      · refine ⟨j, by rw [List.length_append]; omega, ?_⟩
        rw [List.drop_append_of_le_length hj]
        exact hrun.snoc hexpands hfinal hc
      · obtain ⟨hnil, heq⟩ := hrun.eq_of_mem (initial_mem h ha hlead')
        obtain rfl := hr.initial_inj h hlead' hle heq
        have hlength := List.drop_eq_nil_iff.1 hnil
        refine ⟨j + 1, by rw [List.length_append, List.length_singleton]; omega, ?_⟩
        rw [htarget, Nat.sub_sub, List.drop_eq_nil_iff.2 (by simp; omega)]
        exact .nil
  · rintro ⟨j, hj, hrun⟩
    have hskip := searches_skip ht ha hmust hlead (v := w.take j)
      fun c hc ↦ hw c (List.mem_of_mem_take hc)
    rw [List.length_take_of_le hj] at hskip
    have hsearch := hskip.append_runs hrun
    rwa [List.take_append_drop] at hsearch

/-! ## What searches find -/

/-- A search finds what the pattern matches in some rest of the word, behind what is left of the
lead. -/
theorem exists_accepting_search_iff (hlead : lead ≤ t.leadLength)
    (hw : ∀ c ∈ w, c ∈ o.encoding.fullSet) (hlength : lead ≤ w.length) :
    (∃ p, a.Searches (a.initial false lead) w p ∧ a.Accepts p) ↔
      ∃ j ≤ w.length, t.Matches (w.drop j) false (.node t.root) (lead - j) (w.length - j) := by
  have hencoding := (Tree.regular_of_ofPattern ht).1
  have hfound : ∀ j, (∃ p, a.Runs (a.initial false (lead - j)) (w.drop j) p ∧ a.Accepts p) ↔
      t.Matches (w.drop j) false (.node t.root) (lead - j) (w.length - j) := by
    intro j
    rw [exists_accepting_run_iff_matches ht ha (Nat.le_trans (Nat.sub_le ..) hlead)
      (fun c hc ↦ hw c (List.mem_of_mem_drop hc)) (by rw [List.length_drop]; omega), hmust,
      List.length_drop]
    exact and_iff_right nofun
  simp only [searches_iff_exists_runs ht ha hmust hlead (hencoding ▸ hw), ← hfound]
  constructor
  · rintro ⟨p, ⟨j, hj, hrun⟩, haccepts⟩
    exact ⟨j, hj, p, hrun, haccepts⟩
  · rintro ⟨j, hj, p, hrun, haccepts⟩
    exact ⟨p, ⟨j, hj, hrun⟩, haccepts⟩

/-- **What searches find.** Behind the lead, a search finds what the pattern matches with all of the
word in front of it. Farther behind it finds what the pattern matches with nothing in front. Where
nothing looks behind, this is what the pattern matches behind the lead or farther behind. -/
theorem search_iff_matches (hlead : lead ≤ t.leadLength) (hw : ∀ c ∈ w, c ∈ o.encoding.fullSet)
    (hlength : lead ≤ w.length) :
    ((∃ p, a.Searches (a.initial false lead) w p ∧ a.Accepts p) ↔
      t.Matches w false (.node t.root) lead w.length ∨ ∃ r, lead < r ∧ r ≤ w.length ∧
        t.Matches (w.drop r) false (.node t.root) 0 (w.length - r)) ∧
    (t.lookBehinds = #[] → ((∃ p, a.Searches (a.initial false lead) w p ∧ a.Accepts p) ↔
      ∃ r, lead ≤ r ∧ r ≤ w.length ∧ t.Matches w false (.node t.root) r w.length)) := by
  have hfirst : (∃ p, a.Searches (a.initial false lead) w p ∧ a.Accepts p) ↔
      t.Matches w false (.node t.root) lead w.length ∨ ∃ r, lead < r ∧ r ≤ w.length ∧
        t.Matches (w.drop r) false (.node t.root) 0 (w.length - r) := by
    rw [exists_accepting_search_iff ht ha hmust hlead hw hlength]
    constructor
    · rintro ⟨j, hj, hmatches⟩
      rcases Nat.lt_or_ge lead j with hlt | hle
      · rw [Nat.sub_eq_zero_of_le (Nat.le_of_lt hlt)] at hmatches
        exact .inr ⟨j, hlt, hj, hmatches⟩
      · have hm := Tree.matches_drop j hmatches hj
        rw [Nat.add_sub_cancel' hle, Nat.add_sub_cancel' hj] at hm
        exact .inl hm
    · rintro (hmatches | ⟨r, hlt, hr, hmatches⟩)
      · exact ⟨0, Nat.zero_le _, hmatches⟩
      · refine ⟨r, hr, ?_⟩
        rwa [Nat.sub_eq_zero_of_le (Nat.le_of_lt hlt)]
  refine ⟨hfirst, fun hnone ↦ hfirst.trans ?_⟩
  constructor
  · rintro (hmatches | ⟨r, hlt, hr, hmatches⟩)
    · exact ⟨lead, Nat.le_refl _, hlength, hmatches⟩
    · have hm := Tree.matches_drop r hmatches hr
      rw [Nat.add_zero, Nat.add_sub_cancel' hr] at hm
      exact ⟨r, Nat.le_of_lt hlt, hr, hm⟩
  · rintro ⟨r, hle, hr, hmatches⟩
    rcases Nat.lt_or_eq_of_le hle with hlt | rfl
    · have h := (Tree.regular_of_ofPattern ht).2
      have hstart : r = (w.take r).length + 0 := by rw [List.length_take_of_le hr, Nat.add_zero]
      have hheld : Tree.Piece.Held t (.node t.root) := h.root_holds
      obtain ⟨e, he, hm⟩ := h.matches_of_append_left hnone hheld hmatches
        (List.take_append_drop r w).symm hstart
      rw [List.length_take_of_le hr] at he
      obtain rfl : e = w.length - r := by omega
      exact .inr ⟨r, hlt, hr, hm⟩
    · exact .inl hmatches

end pattern

/-- On two characters, where the search first has to skip one. -/
theorem search_iff_matches_lookBehind : ∃ t a,
    Tree.ofPattern (roomyOptions false) (.ofString "(?<=a)") = .ok t ∧
    ofTree t (roomyOptions false) {} = .ok a ∧
      ((∃ p, a.Searches (a.initial false 1) [0x62, 0x61] p ∧ a.Accepts p) ↔
        t.Matches [0x62, 0x61] false (.node t.root) 1 2 ∨ ∃ r, 1 < r ∧ r ≤ 2 ∧
          t.Matches (List.drop r [0x62, 0x61]) false (.node t.root) 0 (2 - r)) := by
  obtain ⟨t, a, ht, ha, hlead, -⟩ := exists_lookBehind false
  exact ⟨t, a, ht, ha, (search_iff_matches ht ha rfl hlead
    (List.forall_mem_cons.2 ⟨by decide, List.forall_mem_singleton.2 (by decide)⟩)
    (Nat.le_add_left 1 1)).1⟩

/-! ### An assertion farther behind

The pattern is one look-behind assertion, which holds at the end of the word. To get there, a search
has to skip a character, and does not know of the one in front any more. -/

theorem of_matches_lookBehind {anchored : Bool} {s e : Nat}
    (ht : Tree.ofPattern (roomyOptions false) (.ofString "(?<=a)") = .ok t)
    (h : t.Matches w anchored (.node t.root) s e) : s = e ∧ 1 ≤ s := by
  obtain ⟨t', ht', hp⟩ := Tree.exists_ofPattern
    (fun t ↦ decide ((t.node t.root).kind = .group { capture := some 0 } ∧
      (t.node t.root).children = #[1] ∧ (t.node 1).kind = .sequence ∧ (t.node 1).children = #[5] ∧
      (t.node 5).kind = .lookBehind 1 ∧ (t.body 5).size = 1))
    (show (Tree.ofPattern (roomyOptions false) (.ofString "(?<=a)")).toOption.any _ = true by
      decide +kernel)
  obtain rfl : t = t' := Except.ok.inj (ht.symm.trans ht')
  obtain ⟨hgroup, halternatives, hsequence, hterms, hlookBehind, hbody⟩ := of_decide_eq_true hp
  obtain ⟨c, hc, h⟩ := h.of_group hgroup rfl
  rw [halternatives, Array.mem_singleton] at hc
  subst hc
  have h := h.of_sequence hsequence
  rw [hterms] at h
  obtain ⟨m, h, hnil⟩ := h.of_cons
  obtain ⟨rfl, hprecedes⟩ := h.of_lookBehind hlookBehind
  exact ⟨hnil.of_nil, hbody ▸ hprecedes.size_le⟩

/-- **A search does not find all matches farther behind**: at the end of `ba` the pattern `(?<=a)`
matches, and no search that starts with a lead of one character finds it. -/
theorem search_misses_lookBehind : ∃ t a,
    Tree.ofPattern (roomyOptions false) (.ofString "(?<=a)") = .ok t ∧
    ofTree t (roomyOptions false) {} = .ok a ∧ 1 ≤ t.leadLength ∧
      ¬((∃ p, a.Searches (a.initial false 1) [0x62, 0x61] p ∧ a.Accepts p) ↔
        ∃ r, 1 ≤ r ∧ r ≤ 2 ∧ t.Matches [0x62, 0x61] false (.node t.root) r 2) := by
  obtain ⟨t, a, ht, ha, hlead, -, -, hmatches⟩ := exists_lookBehind false
  refine ⟨t, a, ht, ha, hlead, fun hiff ↦ ?_⟩
  have hsearch := hiff.2 ⟨2, by decide, Nat.le_refl 2, hmatches.append_left [0x62]⟩
  obtain ⟨j, hj, hm⟩ := (exists_accepting_search_iff ht ha rfl hlead
    (List.forall_mem_cons.2 ⟨by decide, List.forall_mem_singleton.2 (by decide)⟩)
    (Nat.le_add_left 1 1)).1 hsearch
  -- the match would be empty, and one character is still in front of it
  obtain ⟨heq, hle⟩ := of_matches_lookBehind ht hm
  simp only [List.length_cons, List.length_nil] at heq hj
  omega

end Automaton

end PatternAutomata
