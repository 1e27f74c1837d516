import Std.Data.HashSet.Lemmas
import PatternAutomata.Proofs.Step.Deliveries
import PatternAutomata.Proofs.Tree.Finish
import PatternAutomata.Step.Step

/-!
# A walk misses nothing by giving up known contexts

A walk gives up a path in a context that has been seen. The exhaustive walk does not: it follows
every path to its end. Both list the same ways to the same targets, in the same order.

When a path comes to a known context, an earlier path has come to it before, and that one has been
followed to the end together with everything that branched off from it: the later path is not
a continuation of the earlier one, since its rank would have to be smaller, and contexts tell ranks.
So all the targets that the later path delivers have been reached, and none of them counts again.
-/

namespace PatternAutomata

/-! ## The exhaustive walk -/

/-- Lists a way to a target, if it is the first one. -/
def Successor.addFirst (t : Tree) (found : Array Successor) (d : Successor) : Array Successor :=
  if found.any fun e ↦ e.key t == d.key t then found else found.push d

/-- Lists what a path brings to where it stands, if that is a target not reached before. -/
def Path.deliver (s : Stance) (found : Array Successor) (p : Path) : Array Successor :=
  match p.delivery? s with
  | none => found
  | some d => Successor.addFirst s.tree found d

/-- Following the pending paths to their ends, preferred ones first, makes `found'` of `found`. -/
inductive Exhausts (s : Stance) : List Path → Array Successor → Array Successor → Prop
  | done {found : Array Successor} : Exhausts s [] found found
  | move {p : Path} {pending : List Path} {found found' : Array Successor} :
      Exhausts s (p.next s ++ pending) (p.deliver s found) found' →
      Exhausts s (p :: pending) found found'

/-- Following all paths from some markers to their ends makes `found'` of `found`. -/
inductive ExhaustsFrom (t : Tree) (held : MarkerSet) (mustAdvance : Bool) :
    List Nat → Array Successor → Array Successor → Prop
  | done {found : Array Successor} : ExhaustsFrom t held mustAdvance [] found found
  | skip {marker : Nat} {markers : List Nat} {found found' : Array Successor} :
      t.origin? marker = none →
      ExhaustsFrom t held mustAdvance markers found found' →
      ExhaustsFrom t held mustAdvance (marker :: markers) found found'
  | walk {marker : Nat} {markers : List Nat} {isAtStart : Bool}
      {found found₁ found' : Array Successor} :
      t.origin? marker = some isAtStart →
      Exhausts { tree := t, held, mustAdvance, isAtStart }
        [{ node := marker, isLeaving := true }] found found₁ →
      ExhaustsFrom t held mustAdvance markers found₁ found' →
      ExhaustsFrom t held mustAdvance (marker :: markers) found found'

/-- The exhaustive walk from all markers held lists `successors`, once the classes that keep track
of look-behind assertions have been put behind what it finds. -/
def Tree.StepsExhaustively (t : Tree) (held : MarkerSet) (mustAdvance : Bool)
    (successors : Array Successor) : Prop :=
  ∃ found, ExhaustsFrom t held mustAdvance held.toList #[] found ∧ successors = t.track held found

/-! ## First ways -/

namespace Successor

variable {t : Tree} {found : Array Successor} {d : Successor}

theorem any_key_iff :
    (found.any fun e ↦ e.key t == d.key t) = true ↔ ∃ e ∈ found, e.key t = d.key t := by
  rw [← Array.any_toList, List.any_eq_true]
  simp only [Array.mem_toList_iff, beq_iff_eq]

theorem addFirst_of_key_mem (h : ∃ e ∈ found, e.key t = d.key t) : addFirst t found d = found :=
  if_pos (any_key_iff.2 h)

theorem mem_addFirst_of_mem {e : Successor} (h : e ∈ found) : e ∈ addFirst t found d := by
  unfold addFirst
  split
  · exact h
  · exact Array.mem_push_of_mem _ h

theorem exists_key_addFirst : ∃ e ∈ addFirst t found d, e.key t = d.key t := by
  unfold addFirst
  split
  · next h => exact any_key_iff.1 h
  · exact ⟨d, Array.mem_push_self, rfl⟩

theorem mem_foldl_addFirst_of_mem {e : Successor} {l : List Successor} (h : e ∈ found) :
    e ∈ l.foldl (addFirst t) found := by
  induction l generalizing found with
  | nil => exact h
  | cons d l ih => exact ih (mem_addFirst_of_mem h)

theorem exists_key_foldl_addFirst {l : List Successor} (hd : d ∈ l) :
    ∃ e ∈ l.foldl (addFirst t) found, e.key t = d.key t := by
  induction l generalizing found with
  | nil => cases hd
  | cons b l ih =>
    rw [List.foldl_cons]
    rcases List.mem_cons.1 hd with rfl | hd
    · obtain ⟨e, he, hkey⟩ := @exists_key_addFirst t found d
      exact ⟨e, mem_foldl_addFirst_of_mem he, hkey⟩
    · exact ih hd

theorem foldl_addFirst_of_key_mem {l : List Successor}
    (h : ∀ d ∈ l, ∃ e ∈ found, e.key t = d.key t) : l.foldl (addFirst t) found = found := by
  induction l with
  | nil => rfl
  | cons b l ih =>
    rw [List.foldl_cons, addFirst_of_key_mem (h b List.mem_cons_self)]
    exact ih fun d hd ↦ h d (List.mem_cons_of_mem _ hd)

theorem mem_of_mem_foldl_addFirst {l : List Successor} {e : Successor}
    (he : e ∈ l.foldl (addFirst t) found) : e ∈ found ∨ e ∈ l := by
  induction l generalizing found with
  | nil => exact .inl he
  | cons b l ih =>
    rcases ih he with he | he
    · unfold addFirst at he
      split at he
      · exact .inl he
      · rcases Array.mem_push.1 he with he | rfl
        · exact .inl he
        · exact .inr List.mem_cons_self
    · exact .inr (List.mem_cons_of_mem _ he)

theorem nodup_foldl_addFirst {l : List Successor}
    (h : (found.toList.map fun e ↦ e.key t).Nodup) :
    ((l.foldl (addFirst t) found).toList.map fun e ↦ e.key t).Nodup := by
  induction l generalizing found with
  | nil => exact h
  | cons b l ih =>
    refine ih ?_
    unfold addFirst
    split
    · exact h
    · next hnew =>
      rw [Array.toList_push, List.map_append, List.map_singleton, ← List.concat_eq_append]
      refine List.Nodup.concat (fun hmem ↦ hnew ?_) h
      obtain ⟨e, he, hkey⟩ := List.mem_map.1 hmem
      exact any_key_iff.2 ⟨e, Array.mem_toList_iff.1 he, hkey⟩

end Successor

theorem Path.deliver_eq_foldl {s : Stance} (found : Array Successor) (p : Path) :
    p.deliver s found = (p.delivery? s).toList.foldl (Successor.addFirst s.tree) found := by
  unfold Path.deliver
  split <;> simp [*]

/-! ## The exhaustive walk lists all deliveries -/

section Exhaustive

variable {s : Stance}

theorem Exhausts.unique {pending : List Path} {found found₁ found₂ : Array Successor}
    (h₁ : Exhausts s pending found found₁) (h₂ : Exhausts s pending found found₂) :
    found₁ = found₂ := by
  induction h₁ with
  | done => cases h₂; rfl
  | move _ ih =>
    cases h₂ with
    | move h₂ => exact ih h₂

theorem ExhaustsFrom.unique {t : Tree} {held : MarkerSet} {mustAdvance : Bool}
    {markers : List Nat} {found found₁ found₂ : Array Successor}
    (h₁ : ExhaustsFrom t held mustAdvance markers found found₁)
    (h₂ : ExhaustsFrom t held mustAdvance markers found found₂) : found₁ = found₂ := by
  induction h₁ with
  | done => cases h₂; rfl
  | skip hnone _ ih =>
    cases h₂ with
    | skip _ h₂ => exact ih h₂
    | walk hsome => exact absurd (hnone.symm.trans hsome) (by simp)
  | walk hsome hwalk _ ih =>
    cases h₂ with
    | skip hnone => exact absurd (hnone.symm.trans hsome) (by simp)
    | walk hsome' hwalk' h₂ =>
      obtain rfl := Option.some.inj (hsome.symm.trans hsome')
      obtain rfl := hwalk.unique hwalk'
      exact ih h₂

/-- Following one path to its end lists what it delivers. -/
theorem exhausts_cons (hforest : s.tree.arena.Forest) (hfit : s.tree.LengthsFit) {p : Path}
    (hp : p.node < s.tree.size) {pending : List Path} {found found' : Array Successor}
    (h : Exhausts s pending ((p.deliveries s).foldl (Successor.addFirst s.tree) found) found') :
    Exhausts s (p :: pending) found found' := by
  induction hrank : p.rank s.tree.arena using Nat.strong_induction_on
    generalizing p pending found with
  | _ n ih =>
    rw [Path.deliveries_eq hforest hfit hp, List.foldl_append, ← Path.deliver_eq_foldl] at h
    refine .move ?_
    have hnext : ∀ q ∈ p.next s, q.node < s.tree.size ∧ q.rank s.tree.arena < n := fun q hq ↦
      hrank ▸ (Path.leads_of_mem_next hfit hq).rank_lt hforest hp
    generalize p.next s = next at h hnext
    generalize p.deliver s found = found at h
    induction next generalizing found with
    | nil => exact h
    | cons q next ihnext =>
      have hq := hnext q List.mem_cons_self
      rw [List.flatMap_cons, List.foldl_append] at h
      exact ih _ hq.2 hq.1 (ihnext (fun r hr ↦ hnext r (List.mem_cons_of_mem _ hr)) _ h) rfl

end Exhaustive

/-! ## The walk lists all deliveries -/

namespace Walk

variable {s : Stance} {w w' : Walk}

/-- The targets noted as reached are those that ways have been found to. -/
def Tidy (t : Tree) (w : Walk) : Prop :=
  ∀ k, w.reached.contains k = true ↔ ∃ e ∈ w.found, e.key t = k

/-- What a path in a seen context delivers has been reached, for paths below some rank. -/
def Settled (s : Stance) (rank : Nat) (w : Walk) : Prop :=
  ∀ q : Path, q.Sound s.tree → q.rank s.tree.arena < rank →
    w.visited.contains q.context = true →
    ∀ d ∈ q.deliveries s, ∃ e ∈ w.found, e.key s.tree = d.key s.tree

/-- What happens when some ways are followed: they are listed, and every context that is seen for
the first time is settled. -/
structure Lists (s : Stance) (ways : List Successor) (w w' : Walk) : Prop where
  found_eq : w'.found = ways.foldl (Successor.addFirst s.tree) w.found
  tidy : w'.Tidy s.tree
  settled : ∀ q : Path, q.Sound s.tree → w'.visited.contains q.context = true →
    w.visited.contains q.context = true ∨
      ∀ d ∈ q.deliveries s, ∃ e ∈ w'.found, e.key s.tree = d.key s.tree

theorem tidy_arrive {t : Tree} (h : w.Tidy t) (d : Successor) : (w.arrive t d).Tidy t := by
  unfold arrive
  split
  · exact h
  · intro k
    simp only [Std.HashSet.contains_insert, Bool.or_eq_true, beq_iff_eq, h k, Array.mem_push]
    grind

theorem found_arrive {t : Tree} (h : w.Tidy t) (d : Successor) :
    (w.arrive t d).found = Successor.addFirst t w.found d := by
  unfold arrive Successor.addFirst
  by_cases hd : w.reached.contains (d.key t) = true
  · rw [if_pos hd, if_pos (Successor.any_key_iff.2 ((h _).1 hd))]
  · rw [if_neg hd, if_neg fun hany ↦ hd ((h _).2 (Successor.any_key_iff.1 hany))]

theorem found_visit (h : w.Tidy s.tree) (p : Path) :
    (w.visit s p).found = p.deliver s w.found := by
  unfold visit Path.deliver Path.delivery?
  cases p.arrival? s with
  | none => rfl
  | some target => exact found_arrive (w := { w with visited := w.visited.insert p.context }) h _

theorem tidy_visit (h : w.Tidy s.tree) (p : Path) : (w.visit s p).Tidy s.tree := by
  unfold visit
  cases p.arrival? s with
  | none => exact h
  | some target => exact tidy_arrive (w := { w with visited := w.visited.insert p.context }) h _

theorem visited_visit (p : Path) : (w.visit s p).visited = w.visited.insert p.context := by
  unfold visit
  cases p.arrival? s with
  | none => rfl
  | some target =>
    dsimp only
    unfold arrive
    split <;> rfl

theorem contains_visit {p : Path} {c : Path.Context} :
    (w.visit s p).visited.contains c = true ↔ p.context = c ∨ w.visited.contains c = true := by
  rw [visited_visit, Std.HashSet.contains_insert, Bool.or_eq_true, beq_iff_eq]

theorem Settled.mono {m n : Nat} (h : w.Settled s n) (hmn : m ≤ n) : w.Settled s m :=
  fun q hq hrank ↦ h q hq (Nat.lt_of_lt_of_le hrank hmn)

theorem Lists.settled_of_settled {ways : List Successor} {n : Nat} (h : Lists s ways w w')
    (hw : w.Settled s n) : w'.Settled s n := by
  intro q hq hrank hseen
  rcases h.settled q hq hseen with hold | hnew
  · intro d hd
    obtain ⟨e, he, hkey⟩ := hw q hq hrank hold d hd
    exact ⟨e, h.found_eq ▸ Successor.mem_foldl_addFirst_of_mem he, hkey⟩
  · exact hnew

theorem Lists.trans {ways ways' : List Successor} {w'' : Walk} (h : Lists s ways w w')
    (h' : Lists s ways' w' w'') : Lists s (ways ++ ways') w w'' where
  found_eq := by rw [h'.found_eq, h.found_eq, List.foldl_append]
  tidy := h'.tidy
  settled q hq hseen := by
    rcases h'.settled q hq hseen with hold | hnew
    · rcases h.settled q hq hold with hold | hnew
      · exact .inl hold
      · refine .inr fun d hd ↦ ?_
        obtain ⟨e, he, hkey⟩ := hnew d hd
        exact ⟨e, h'.found_eq ▸ Successor.mem_foldl_addFirst_of_mem he, hkey⟩
    · exact .inr hnew

/-- **The walk follows a path to its end before it turns to another one**, and lists what the path
delivers, known contexts or not. -/
theorem exists_run_cons (hforest : s.tree.arena.Forest) (hfit : s.tree.LengthsFit) {p : Path}
    (hp : p.Sound s.tree) {left : Nat} (hleft : p.rank s.tree.arena < left) (htidy : w.Tidy s.tree)
    (hw : w.Settled s (p.rank s.tree.arena + 1)) (pending : List (Nat × Path)) :
    ∃ w', run s ((left, p) :: pending) w = run s pending w' ∧ Lists s (p.deliveries s) w w' := by
  induction hrank : p.rank s.tree.arena using Nat.strong_induction_on
    generalizing p left w pending with
  | _ n ih =>
    obtain ⟨left, rfl⟩ := Nat.exists_eq_add_of_le' (Nat.one_le_of_lt hleft)
    rw [run]
    by_cases hseen : w.visited.contains p.context = true
    · rw [if_pos hseen]
      refine ⟨w, rfl, ?_, htidy, fun q _ hq ↦ .inl hq⟩
      exact (Successor.foldl_addFirst_of_key_mem (hw p hp (Nat.lt_succ_self _) hseen)).symm
    rw [if_neg hseen]
    -- the context of the path itself is not settled before its continuations have been followed
    have hsettled : (w.visit s p).Settled s n := by
      intro q hq hlt hcontext
      rcases contains_visit.1 hcontext with hcontext | hcontext
      · exact absurd (Path.rank_eq_of_context s.tree.arena hcontext.symm) (by omega)
      · intro d hd
        obtain ⟨e, he, hkey⟩ := hw q hq (by omega) hcontext d hd
        rw [found_visit htidy, Path.deliver_eq_foldl]
        exact ⟨e, Successor.mem_foldl_addFirst_of_mem he, hkey⟩
    -- then the ways to go on, one after another
    have hnext : ∀ q ∈ p.next s, q.Sound s.tree ∧ q.rank s.tree.arena < n := fun q hq ↦
      ⟨hp.of_mem_next hforest hfit hq,
        hrank ▸ ((Path.leads_of_mem_next hfit hq).rank_lt hforest hp.node_lt).2⟩
    have hfollow : ∀ next : List Path, (∀ q ∈ next, q.Sound s.tree ∧ q.rank s.tree.arena < n) →
        ∀ w₁ : Walk, w₁.Tidy s.tree → w₁.Settled s n →
        ∃ w', run s (next.map (left, ·) ++ pending) w₁ = run s pending w' ∧
          Lists s (next.flatMap (Path.deliveries s)) w₁ w' := by
      intro next
      induction next with
      | nil => exact fun _ w₁ htidy _ ↦ ⟨w₁, rfl, rfl, htidy, fun q _ hq ↦ .inl hq⟩
      | cons q next ihnext =>
        intro hnext w₁ htidy hsettled
        obtain ⟨hq, hqrank⟩ := hnext q List.mem_cons_self
        have hleft : q.rank s.tree.arena < left := by omega
        obtain ⟨w₂, hrun, hlists⟩ := ih _ hqrank hq hleft htidy (hsettled.mono (by omega))
          (next.map (left, ·) ++ pending) rfl
        obtain ⟨w', hrun', hlists'⟩ := ihnext (fun r hr ↦ hnext r (List.mem_cons_of_mem _ hr)) w₂
          hlists.tidy (hlists.settled_of_settled hsettled)
        exact ⟨w', hrun.trans hrun', hlists.trans hlists'⟩
    obtain ⟨w', hrun, hlists⟩ := hfollow (p.next s) hnext _ (tidy_visit htidy p) hsettled
    have hall : w'.found = (p.deliveries s).foldl (Successor.addFirst s.tree) w.found := by
      rw [Path.deliveries_eq hforest hfit hp.node_lt, List.foldl_append, ← Path.deliver_eq_foldl,
        ← found_visit htidy, hlists.found_eq]
    refine ⟨w', hrun, hall, hlists.tidy, fun q hq hcontext ↦ ?_⟩
    rcases hlists.settled q hq hcontext with hold | hnew
    · rcases contains_visit.1 hold with hsame | hold
      · -- the context of the path itself is settled by now
        refine .inr fun d hd ↦ ?_
        obtain ⟨e, he, hkey⟩ := Path.exists_key_of_context_eq hforest hfit hq hp hsame.symm hd
        obtain ⟨e', he', hkey'⟩ := @Successor.exists_key_foldl_addFirst s.tree w.found _ _ he
        exact ⟨e', hall ▸ he', hkey'.trans hkey⟩
      · exact .inl hold
    · exact .inr hnew

theorem found_fromMarker (hforest : s.tree.arena.Forest) (hfit : s.tree.LengthsFit) {marker : Nat}
    (hmarker : marker < s.tree.size) (htidy : w.Tidy s.tree) :
    (w.fromMarker s marker).Tidy s.tree ∧ (w.fromMarker s marker).found =
      (Path.deliveries s { node := marker, isLeaving := true }).foldl (Successor.addFirst s.tree)
        w.found := by
  let start : Path := { node := marker, isLeaving := true }
  have hstart : start.Sound s.tree := ⟨hmarker, fun d hd ↦ nomatch hd⟩
  have hfresh : ({ w with visited := {} } : Walk).Settled s (start.rank s.tree.arena + 1) :=
    fun q _ _ hseen ↦ by simp at hseen
  obtain ⟨w', hrun, hlists⟩ := exists_run_cons hforest hfit hstart
    (Path.rank_lt_allowance hstart.node_lt) (w := { w with visited := {} }) htidy hfresh []
  have hw' : w.fromMarker s marker = w' := by rw [fromMarker, hrun, run]
  rw [hw']
  exact ⟨hlists.tidy, hlists.found_eq⟩

end Walk

/-! ## The walk is exhaustive -/

namespace Tree

variable {t : Tree} {held : MarkerSet} {mustAdvance : Bool}

theorem lt_size_of_origin {marker : Nat} {isAtStart : Bool}
    (h : t.origin? marker = some isAtStart) : marker < t.size := by
  refine Arena.lt_size_of_node_ne fun hd ↦ ?_
  have hd : t.node marker = default := hd
  rw [origin?, hd] at h
  cases h

/-- What the paths from one of the markers held deliver. -/
def waysFrom (t : Tree) (held : MarkerSet) (mustAdvance : Bool) (marker : Nat) : List Successor :=
  match t.origin? marker with
  | none => []
  | some isAtStart =>
    Path.deliveries { tree := t, held, mustAdvance, isAtStart }
      { node := marker, isLeaving := true }

def ways (t : Tree) (held : MarkerSet) (mustAdvance : Bool) : List Successor :=
  held.toList.flatMap (t.waysFrom held mustAdvance)

def firstWays (t : Tree) (held : MarkerSet) (mustAdvance : Bool) : Array Successor :=
  (t.ways held mustAdvance).foldl (Successor.addFirst t) #[]

/-- **A walk lists the first way to each target.** -/
theorem found_walk (hforest : t.arena.Forest) (hfit : t.LengthsFit) :
    (t.walk held mustAdvance).found = t.firstWays held mustAdvance := by
  suffices h : ∀ (markers : List Nat) (w : Walk), w.Tidy t →
      (markers.foldl (fun w marker ↦ match t.origin? marker with
        | none => w
        | some isAtStart => w.fromMarker { tree := t, held, mustAdvance, isAtStart } marker)
        w).found = (markers.flatMap (t.waysFrom held mustAdvance)).foldl (Successor.addFirst t)
          w.found from h held.toList {} fun k ↦ by simp
  intro markers
  induction markers with
  | nil => exact fun w _ ↦ rfl
  | cons marker markers ih =>
    intro w htidy
    rw [List.foldl_cons, List.flatMap_cons, List.foldl_append, waysFrom]
    cases horigin : t.origin? marker with
    | none => exact ih w htidy
    | some isAtStart =>
      obtain ⟨htidy', hfound⟩ := Walk.found_fromMarker
        (s := { tree := t, held, mustAdvance, isAtStart }) hforest hfit
        (lt_size_of_origin horigin) htidy
      rw [ih _ htidy', hfound]

/-- The exhaustive walk lists the first way to each target as well. -/
theorem exhaustsFrom_ways (hforest : t.arena.Forest) (hfit : t.LengthsFit) (markers : List Nat)
    (found : Array Successor) : ExhaustsFrom t held mustAdvance markers found
      ((markers.flatMap (t.waysFrom held mustAdvance)).foldl (Successor.addFirst t) found) := by
  induction markers generalizing found with
  | nil => exact .done
  | cons marker markers ih =>
    rw [List.flatMap_cons, List.foldl_append]
    cases horigin : t.origin? marker with
    | none =>
      rw [waysFrom, horigin]
      exact .skip horigin (ih found)
    | some isAtStart =>
      refine .walk horigin ?_ (ih _)
      rw [waysFrom, horigin]
      exact exhausts_cons (s := { tree := t, held, mustAdvance, isAtStart }) hforest hfit
        (lt_size_of_origin horigin) .done

theorem step_eq_track_ways (hforest : t.arena.Forest) (hfit : t.LengthsFit) :
    t.step held mustAdvance = t.track held (t.firstWays held mustAdvance) := by
  rw [step, found_walk hforest hfit]

/-- The walk that follows every path to its end comes to an end, in what the step lists. -/
theorem stepsExhaustively_step (hforest : t.arena.Forest) (hfit : t.LengthsFit) :
    t.StepsExhaustively held mustAdvance (t.step held mustAdvance) := by
  rw [step_eq_track_ways hforest hfit]
  exact ⟨_, exhaustsFrom_ways hforest hfit held.toList #[], rfl⟩

/-- **Giving up known contexts loses nothing.** From whatever markers of a finished tree, the step
lists the same successors, in the same order and with all that they carry, as the walk that follows
every path to its end. -/
theorem Finished.exhaustive_iff_eq_step (h : t.Finished) {successors : Array Successor} :
    t.StepsExhaustively held mustAdvance successors ↔ successors = t.step held mustAdvance := by
  have hstep : t.StepsExhaustively held mustAdvance (t.step held mustAdvance) :=
    stepsExhaustively_step h.regular.forest h.regular.fits
  constructor
  · rintro ⟨found, hfound, rfl⟩
    obtain ⟨found', hfound', heq⟩ := hstep
    rw [heq, hfound.unique hfound']
  · rintro rfl
    exact hstep

/-- Two loops, one within the other, in front of an assertion that holds. -/
theorem exhaustive_nested_loops :
    ∃ t, ofPattern {} (.ofString "(?:a*|b)*(?<=a)$") = .ok t ∧
      ∃ successors, t.StepsExhaustively ⟨t.size, (IndexSet.single 4).insert 15⟩ false successors ∧
        successors.map Successor.target = #[4, 9, 17, 15] := by
  obtain ⟨t, ht, hways⟩ := exists_ofPattern
    (fun t ↦
      let held : MarkerSet := ⟨t.size, (IndexSet.single 4).insert 15⟩
      (t.track held (t.firstWays held false)).map Successor.target == #[4, 9, 17, 15])
    (show (ofPattern {} (.ofString "(?:a*|b)*(?<=a)$")).toOption.any _ = true by decide +kernel)
  have hregular := (Finished.ofPattern ht).regular
  refine ⟨t, ht, _, (Finished.exhaustive_iff_eq_step (.ofPattern ht)).2 rfl, ?_⟩
  rw [step_eq_track_ways hregular.forest hregular.fits]
  exact eq_of_beq hways

end Tree

end PatternAutomata
