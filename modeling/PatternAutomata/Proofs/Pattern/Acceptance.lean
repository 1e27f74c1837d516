import Mathlib.Data.List.TakeWhile
import PatternAutomata.Proofs.Pattern.Outline
import PatternAutomata.Proofs.Pattern.Reading

/-!
# The patterns that can be read

The events of a pattern follow an outline to its end if the pattern is derived by the grammar, and
only then. Read from left to right, a pattern has to end the groups that are open, innermost first.
What `Closes` says of a list of open groups is that the text does: it completes the innermost group,
a parenthesis and perhaps a quantifier follow, and then it goes on with the group around it.
-/

namespace PatternAutomata

open Grammar

/-! ## Reading to the end -/

/-- The text can be read to its end, where no group is open any more. -/
inductive Reads : Frame → List Frame → Bytes → Prop
  | done {f : Frame} {s : Bytes} : Part.read s = .ok none → Reads f [] s
  | atom {f : Frame} {frames : List Frame} {a : Atom} {q : Quantifier} {s t u : Bytes} :
      Part.read s = .ok (some (.atom a, t)) → Quantifier.read t = .ok (q, u) →
      Reads (f.add (q.placesChars a.isChars)) frames u → Reads f frames s
  | openGroup {f : Frame} {frames : List Frame} {kind : GroupKind} {s t : Bytes} :
      Part.read s = .ok (some (.openGroup kind, t)) → Reads (.start kind) (f :: frames) t →
      Reads f frames s
  | bar {f : Frame} {frames : List Frame} {s t : Bytes} : Part.read s = .ok (some (.bar, t)) →
      Reads f.next frames t → Reads f frames s
  | closeGroup {f f' : Frame} {frames : List Frame} {q : Quantifier} {s t u : Bytes} :
      Part.read s = .ok (some (.closeGroup, t)) → Quantifier.read t = .ok (q, u) →
      f.mayEnd = true → Reads (f'.add (q.placesChars false)) frames u → Reads f (f' :: frames) s

variable {f f' : Frame} {frames : List Frame} {s t u rest : Bytes} {q : Quantifier}

theorem Frame.mayEnd_of_ne (h : f.kind ≠ .lookBehind) : f.mayEnd = true := by
  simp [mayEnd, h]

theorem Reads.exists_part (h : Reads f frames s) : ∃ next, Part.read s = .ok next := by
  cases h <;> exact ⟨_, ‹_›⟩

theorem event_read_nil (h : Part.read s = .ok none) : Event.read s = [] := by
  rw [Event.read]
  split
  all_goals
    rename_i hread
    cases hread.symm.trans h
  rfl

theorem event_read_openGroup {kind : GroupKind}
    (h : Part.read s = .ok (some (.openGroup kind, t))) :
    Event.read s = .openGroup kind :: Event.read t := by
  rw [Event.read]
  split
  all_goals
    rename_i hread
    cases hread.symm.trans h
  rfl

theorem event_read_bar (h : Part.read s = .ok (some (.bar, t))) :
    Event.read s = .bar :: Event.read t := by
  rw [Event.read]
  split
  all_goals
    rename_i hread
    cases hread.symm.trans h
  rfl

theorem event_read_atom {a : Atom} (h : Part.read s = .ok (some (.atom a, t)))
    (hq : Quantifier.read t = .ok (q, u)) : Event.read s = .atom a q :: Event.read u := by
  rw [Event.read]
  split
  all_goals
    rename_i hread
    cases hread.symm.trans h
  split
  all_goals
    rename_i hquantifier
    cases hquantifier.symm.trans hq
  rfl

theorem event_read_closeGroup (h : Part.read s = .ok (some (.closeGroup, t)))
    (hq : Quantifier.read t = .ok (q, u)) : Event.read s = .closeGroup t q :: Event.read u := by
  rw [Event.read]
  split
  all_goals
    rename_i hread
    cases hread.symm.trans h
  split
  all_goals
    rename_i hquantifier
    cases hquantifier.symm.trans hq
  rfl

theorem event_read_error {e : ReadError} (h : Part.read s = .error e) :
    Event.read s = [.failure e] := by
  rw [Event.read]
  split
  all_goals
    rename_i hread
    cases hread.symm.trans h
  rfl

theorem event_read_atom_error {a : Atom} {e : ReadError}
    (h : Part.read s = .ok (some (.atom a, t))) (hq : Quantifier.read t = .error e) :
    Event.read s = [.atom a .once, .failure e] := by
  rw [Event.read]
  split
  all_goals
    rename_i hread
    cases hread.symm.trans h
  split
  all_goals
    rename_i hquantifier
    cases hquantifier.symm.trans hq
  rfl

theorem event_read_closeGroup_error {e : ReadError} (h : Part.read s = .ok (some (.closeGroup, t)))
    (hq : Quantifier.read t = .error e) : Event.read s = [.closeGroup t .once, .failure e] := by
  rw [Event.read]
  split
  all_goals
    rename_i hread
    cases hread.symm.trans h
  split
  all_goals
    rename_i hquantifier
    cases hquantifier.symm.trans hq
  rfl

theorem take_closeGroup_of_mayEnd (h : f.mayEnd = true) (left : Bytes) :
    Outline.take ⟨f, f' :: frames⟩ (.closeGroup left q) =
      some ⟨f'.add (q.placesChars false), frames⟩ := if_pos h

theorem reads_iff : Reads f frames s ↔ ∃ outline : Outline,
    (Event.read s).foldlM Outline.take ⟨f, frames⟩ = some outline ∧ outline.outer = [] := by
  constructor
  · intro h
    induction h with
    | @done f s hread => exact ⟨⟨f, []⟩, by rw [event_read_nil hread]; rfl, rfl⟩
    | atom hread hquantifier _ ih =>
      rw [event_read_atom hread hquantifier]
      exact ih
    | openGroup hread _ ih =>
      rw [event_read_openGroup hread]
      exact ih
    | bar hread _ ih =>
      rw [event_read_bar hread]
      exact ih
    | closeGroup hread hquantifier hmay _ ih =>
      rw [event_read_closeGroup hread hquantifier, List.foldlM_cons, take_closeGroup_of_mayEnd hmay]
      exact ih
  · rintro ⟨outline, hrun, hnil⟩
    fun_induction Event.read s generalizing f frames with
    | case1 => cases hrun
    | case2 s hread =>
      cases hrun
      cases hnil
      exact .done hread
    | case3 s kind rest hread ih => exact .openGroup hread (ih hrun)
    | case4 s rest hread ih => exact .bar hread (ih hrun)
    | case5 => cases hrun
    | case6 s a rest hread q rest' hquantifier ih => exact .atom hread hquantifier (ih hrun)
    | case7 s rest _ e _ =>
      -- whatever becomes of the group, the failure is next
      rw [List.foldlM_cons] at hrun
      cases htake : Outline.take ⟨f, frames⟩ (.closeGroup rest .once) with
      | none =>
        rw [htake] at hrun
        cases hrun
      | some _ =>
        rw [htake] at hrun
        cases hrun
    | case8 s rest hread q rest' hquantifier ih =>
      cases frames with
      | nil => cases hrun
      | cons f' frames =>
        rw [List.foldlM_cons] at hrun
        by_cases hmay : f.mayEnd = true
        · rw [take_closeGroup_of_mayEnd hmay] at hrun
          exact .closeGroup hread hquantifier hmay (ih hrun)
        · have htake : Outline.take ⟨f, f' :: frames⟩ (.closeGroup rest q) = none := if_neg hmay
          rw [htake] at hrun
          cases hrun

/-! ## What is read is derived -/

/-- The rest of an open group, up to its end. -/
def Frame.Completes (f : Frame) (s rest : Bytes) : Prop :=
  ∃ ofChars t, Derives (.sequence ofChars) s t ∧
    if f.kind = .lookBehind then t = rest ∧ f.isSingle = true ∧ (f.ofChars && ofChars) = true
    else t = rest ∨ ∃ u, Sign 0x7c t u ∧ Derives .alternatives u rest

/-- The rest of a pattern ends all groups that are open. The outermost is no look-behind assertion,
and it ends where the text does. -/
def Closes : Frame → List Frame → Bytes → Prop
  | f, [], s => f.kind ≠ .lookBehind → f.Completes s []
  | f, f' :: frames, s => ∃ t u q v, f.Completes s t ∧ Sign 0x29 t u ∧ Quantified u q v ∧
      Closes (f'.add (q.placesChars false)) frames v

theorem Frame.Completes.cons {isChars : Bool} (hatom : Derives (.atom isChars) s t)
    (hq : Quantified t q u) (h : (f.add (q.placesChars isChars)).Completes u rest) :
    f.Completes s rest := by
  obtain ⟨ofChars, v, hsequence, hend⟩ := h
  refine ⟨_, v, .cons hatom hq hsequence, ?_⟩
  dsimp only [Frame.add] at hend
  rwa [Bool.and_assoc] at hend

theorem Frame.Completes.bar (hbar : Sign 0x7c s t) (h : f.next.Completes t rest) :
    f.Completes s rest := by
  obtain ⟨ofChars, u, hsequence, hend⟩ := h
  refine ⟨true, s, .nil, ?_⟩
  by_cases hkind : f.kind = .lookBehind
  · rw [if_pos (show f.next.kind = .lookBehind from hkind)] at hend
    cases hend.2.1
  · rw [if_neg (show f.next.kind ≠ .lookBehind from hkind)] at hend
    rw [if_neg hkind]
    refine .inr ⟨t, hbar, ?_⟩
    rcases hend with rfl | ⟨v, hsign, halternatives⟩
    · exact .last hsequence
    · exact .more hsequence hsign halternatives

theorem Frame.completes_self (h : f.mayEnd = true) : f.Completes s s := by
  refine ⟨true, s, .nil, ?_⟩
  by_cases hkind : f.kind = .lookBehind
  · rw [if_pos hkind, Bool.and_true, ← Bool.and_eq_true]
    simpa [Frame.mayEnd, hkind] using h
  · rw [if_neg hkind]
    exact .inl rfl

theorem Closes.cons {isChars : Bool} (hatom : Derives (.atom isChars) s t)
    (hq : Quantified t q u) (h : Closes (f.add (q.placesChars isChars)) frames u) :
    Closes f frames s := by
  cases frames with
  | nil => exact fun hkind ↦ .cons hatom hq (h hkind)
  | cons f' frames =>
    obtain ⟨v, w, q', x, hcompletes, hrest⟩ := h
    exact ⟨v, w, q', x, .cons hatom hq hcompletes, hrest⟩

theorem Closes.bar (hbar : Sign 0x7c s t) (h : Closes f.next frames t) : Closes f frames s := by
  cases frames with
  | nil => exact fun hkind ↦ .bar hbar (h hkind)
  | cons f' frames =>
    obtain ⟨v, w, q', x, hcompletes, hrest⟩ := h
    exact ⟨v, w, q', x, .bar hbar hcompletes, hrest⟩

theorem derives_group {kind : GroupKind} (hopens : Opens kind s t)
    (h : (Frame.start kind).Completes t u) (hclose : Sign 0x29 u rest) :
    Derives (.atom false) s rest := by
  obtain ⟨ofChars, v, hsequence, hend⟩ := h
  by_cases hkind : kind = .lookBehind
  · subst hkind
    obtain ⟨rfl, -, hchars⟩ := hend
    obtain rfl : ofChars = true := hchars
    exact .lookBehind hopens hsequence hclose
  · rw [if_neg (show (Frame.start kind).kind ≠ .lookBehind from hkind)] at hend
    rcases hend with rfl | ⟨w, hbar, halternatives⟩
    · exact .group hkind hopens (.last hsequence) hclose
    · exact .group hkind hopens (.more hsequence hbar halternatives) hclose

/-- **What is read is derived**, by induction on how it is read. -/
theorem Reads.closes (h : Reads f frames s) : Closes f frames s := by
  induction h with
  | done hread =>
    intro hkind
    obtain rfl := eq_nil_of_read hread
    exact ⟨true, [], .nil, by rw [if_neg hkind]; exact .inl rfl⟩
  | atom hread hquantifier _ ih =>
    cases starts_of_read hread with
    | atom hsingle => exact ih.cons (.single hsingle) (quantified_of_read hquantifier)
  | openGroup hread _ ih =>
    obtain ⟨u, v, q, w, hcompletes, hclose, hq, hrest⟩ := ih
    cases starts_of_read hread with
    | openGroup hopens => exact hrest.cons (derives_group hopens hcompletes hclose) hq
  | bar hread _ ih =>
    cases starts_of_read hread with
    | bar hsign => exact ih.bar hsign
  | closeGroup hread hquantifier hmay _ ih =>
    cases starts_of_read hread with
    | closeGroup hsign =>
      exact ⟨_, _, _, _, Frame.completes_self hmay, hsign, quantified_of_read hquantifier, ih⟩

/-! ## What is derived is read -/

/-- What a symbol promises of the text that it starts in front of, if the text behind it can be read
to its end. -/
def Continues : Symbol → Bytes → Bytes → Prop
  | .alternatives, s, rest => ∀ f frames, f.kind ≠ .lookBehind →
      (∀ f' : Frame, f'.kind = f.kind → Reads f' frames rest) → Reads f frames s
  | .sequence ofChars, s, rest => ∀ f frames, Reads (f.add ofChars) frames rest → Reads f frames s
  | .atom isChars, s, rest => ∀ f frames q u, Quantified rest q u →
      Reads (f.add (q.placesChars isChars)) frames u → Reads f frames s

/-- **What is derived is read**, by induction on how it is derived. -/
theorem continues_of_derives {symbol : Symbol} (h : Derives symbol s rest) :
    Continues symbol s rest := by
  induction h with
  | last _ ih => exact fun f frames _ hrest ↦ ih f frames (hrest _ rfl)
  | more _ hbar _ ih ih' =>
    intro f frames hkind hrest
    refine ih f frames (.bar (read_bar hbar) (ih' _ frames hkind fun f' hf' ↦ hrest f' hf'))
  | nil =>
    intro f frames hrest
    rwa [Frame.add, Bool.and_true] at hrest
  | cons _ hq _ ih ih' =>
    intro f frames hrest
    refine ih f frames _ _ hq (ih' _ frames ?_)
    rwa [Frame.add, ← Bool.and_assoc] at hrest
  | single hsingle =>
    intro f frames q u hq hrest
    obtain ⟨a, hread, rfl⟩ := hsingle.exists_read
    obtain ⟨next, hnext⟩ := hrest.exists_part
    exact .atom hread (hq.read_eq hnext) hrest
  | group hkind hopens _ hclose ih =>
    intro f frames q u hq hrest
    obtain ⟨next, hnext⟩ := hrest.exists_part
    refine .openGroup hopens.read_eq (ih _ _ hkind fun f' hf' ↦ ?_)
    exact .closeGroup (read_closeGroup hclose) (hq.read_eq hnext)
      (Frame.mayEnd_of_ne (hf' ▸ hkind)) hrest
  | lookBehind hopens _ hclose ih =>
    intro f frames q u hq hrest
    obtain ⟨next, hnext⟩ := hrest.exists_part
    refine .openGroup hopens.read_eq (ih _ _ ?_)
    exact .closeGroup (read_closeGroup hclose) (hq.read_eq hnext) rfl hrest

/-! ## Patterns -/

/-- A text is read to its end if it is a pattern. -/
theorem reads_iff_derives : Reads (.start .capture) [] s ↔ Derives .alternatives s [] := by
  constructor
  · intro h
    obtain ⟨ofChars, t, hsequence, hend⟩ := h.closes nofun
    rcases hend with rfl | ⟨u, hbar, halternatives⟩
    · exact .last hsequence
    · exact .more hsequence hbar halternatives
  · exact fun h ↦ continues_of_derives h _ _ nofun fun _ _ ↦ .done rfl

theorem Bytes.untilZero_eq_self {text : Bytes} (h : 0 ∉ text) : text.untilZero = text :=
  List.takeWhile_eq_self_iff.2 fun _ hb ↦ bne_iff_ne.2 (ne_of_mem_of_not_mem hb h)

/-- **The patterns that can be read are those that the grammar derives.** A pattern whose tree is
not too large has a tree if and only if it is derived as alternatives up to its end. -/
theorem Tree.exists_ofPattern_iff_derives {o : Options} {pattern : Bytes} (hzero : 0 ∉ pattern)
    (hroom : ∀ limit, Tree.ofPattern o pattern ≠ .error (.treeExplosion limit)) :
    (∃ t, Tree.ofPattern o pattern = .ok t) ↔ Derives .alternatives pattern [] := by
  rw [Tree.exists_ofPattern_iff_outline hroom, Bytes.untilZero_eq_self hzero, ← reads_iff_derives,
    reads_iff]
  rfl

/-- A pattern with a look-behind assertion, and a text whose assertion has two alternatives. -/
theorem Tree.exists_ofPattern_iff_derives_lookBehind :
    Derives .alternatives (.ofString "x|(?<=[^b-d]{2})y*?") [] ∧
      ¬Derives .alternatives (.ofString "(?<=a|b)") [] := by
  constructor
  · obtain ⟨t, ht, -⟩ := Tree.exists_ofPattern (fun _ ↦ true)
      (show (Tree.ofPattern {} (.ofString "x|(?<=[^b-d]{2})y*?")).toOption.any _ = true by
        decide +kernel)
    exact (Tree.exists_ofPattern_iff_derives (by decide +kernel) (by rw [ht]; nofun)).1 ⟨t, ht⟩
  · have hfault : (match Tree.ofPattern {} (.ofString "(?<=a|b)") with
        | .error (.located _ _) => true
        | _ => false) = true := by decide +kernel
    cases ht : Tree.ofPattern {} (.ofString "(?<=a|b)") with
    | ok t =>
      rw [ht] at hfault
      cases hfault
    | error e =>
      intro hderives
      have hroom : ∀ limit, Tree.ofPattern {} (.ofString "(?<=a|b)") ≠
          .error (.treeExplosion limit) := by
        rintro limit heq
        rw [heq] at hfault
        cases hfault
      obtain ⟨t, ht'⟩ := (Tree.exists_ofPattern_iff_derives (by decide +kernel) hroom).2 hderives
      cases ht.symm.trans ht'

end PatternAutomata
