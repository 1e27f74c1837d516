import PatternAutomata.Proofs.Step.Exhaustive

/-!
# The contexts that a walk sees

A walk gives up a path in a context that has been seen, so every context costs it one visit. What is
seen from a marker does not depend on the order in which the pending paths are walked: it is the
contexts of all paths that go on from the marker. A path that is given up has been preceded by one
in the same context, which has been followed to its end together with all that branched off from it;
and a way to go on from a path can be gone by every path in the same context.
-/

namespace PatternAutomata

namespace Path

variable {s : Stance} {p q : Path}

theorem exists_continues_context_eq (hfit : s.tree.LengthsFit) (h : p.context = q.context)
    {p' : Path} (hp' : Continues s p p') : ∃ q', Continues s q q' ∧ p'.context = q'.context := by
  induction hp' with
  | refl => exact ⟨q, .refl, h⟩
  | tail _ hnext ih =>
    obtain ⟨q₁, hq₁, hsame⟩ := ih
    obtain ⟨q', hq', hcontext⟩ := exists_next_context_eq hfit hsame hnext
    exact ⟨q', hq₁.tail hq', hcontext⟩

/-- The contexts of the continuations of a path: its own, and those of the ways to go on. -/
theorem exists_continues_iff {c : Context} : (∃ q, Continues s p q ∧ q.context = c) ↔
    p.context = c ∨ ∃ r ∈ p.next s, ∃ q, Continues s r q ∧ q.context = c := by
  constructor
  · rintro ⟨q, hpq, hc⟩
    rcases hpq.cases_head with rfl | ⟨r, hr, hrq⟩
    · exact .inl hc
    · exact .inr ⟨r, hr, q, hrq, hc⟩
  · rintro (hc | ⟨r, hr, q, hrq, hc⟩)
    · exact ⟨p, .refl, hc⟩
    · exact ⟨q, .head hr hrq, hc⟩

end Path

namespace Walk

variable {s : Stance} {w w' : Walk}

/-- Walking some paths to their ends adds the contexts of all their continuations to those seen. -/
def Sees (s : Stance) (paths : List Path) (w w' : Walk) : Prop :=
  ∀ c, w'.visited.contains c = true ↔
    w.visited.contains c = true ∨ ∃ p ∈ paths, ∃ q, Path.Continues s p q ∧ q.context = c

/-- With the context of a path, for paths below some rank, those of its continuations have been
seen. -/
def Explored (s : Stance) (rank : Nat) (w : Walk) : Prop :=
  ∀ p : Path, p.rank s.tree.arena < rank → w.visited.contains p.context = true →
    ∀ q, Path.Continues s p q → w.visited.contains q.context = true

theorem Explored.mono {m n : Nat} (h : w.Explored s n) (hmn : m ≤ n) : w.Explored s m :=
  fun p hrank ↦ h p (Nat.lt_of_lt_of_le hrank hmn)

theorem sees_nil : Sees s [] w w := fun c ↦ by simp

theorem Sees.trans {ps qs : List Path} {w'' : Walk} (h : Sees s ps w w') (h' : Sees s qs w' w'') :
    Sees s (ps ++ qs) w w'' := by
  intro c
  rw [h' c, h c, or_assoc]
  simp only [List.mem_append, or_and_right, exists_or]

theorem Sees.explored {paths : List Path} (hfit : s.tree.LengthsFit) (h : Sees s paths w w')
    {n : Nat} (hw : w.Explored s n) : w'.Explored s n := by
  intro p hrank hseen q hpq
  rcases (h _).1 hseen with hold | ⟨start, hstart, p', hp', hsame⟩
  · exact (h _).2 (.inl (hw p hrank hold q hpq))
  · obtain ⟨q', hq', hcontext⟩ := Path.exists_continues_context_eq hfit hsame.symm hpq
    exact (h _).2 (.inr ⟨start, hstart, q', hp'.trans hq', hcontext.symm⟩)

/-- **The walk of a path sees the contexts of all its continuations**, also where it gives up. -/
theorem exists_run_sees (hforest : s.tree.arena.Forest) (hfit : s.tree.LengthsFit) {p : Path}
    (hp : p.node < s.tree.size) {left : Nat} (hleft : p.rank s.tree.arena < left)
    (hw : w.Explored s (p.rank s.tree.arena + 1)) (pending : List (Nat × Path)) :
    ∃ w', run s ((left, p) :: pending) w = run s pending w' ∧ Sees s [p] w w' := by
  induction hrank : p.rank s.tree.arena using Nat.strong_induction_on
    generalizing p left w pending with
  | _ n ih =>
    obtain ⟨left, rfl⟩ := Nat.exists_eq_add_of_le' (Nat.one_le_of_lt hleft)
    rw [run]
    by_cases hseen : w.visited.contains p.context = true
    · rw [if_pos hseen]
      refine ⟨w, rfl, fun c ↦ (or_iff_left_of_imp ?_).symm⟩
      rintro ⟨p', hp', q, hpq, rfl⟩
      obtain rfl := List.mem_singleton.1 hp'
      exact hw p' (Nat.lt_succ_self _) hseen q hpq
    rw [if_neg hseen]
    -- what goes on from a path has a smaller rank, so its own context does not matter
    have hexplored : (w.visit s p).Explored s n := by
      intro q hlt hcontext r hqr
      rcases contains_visit.1 hcontext with hcontext | hcontext
      · exact absurd (Path.rank_eq_of_context s.tree.arena hcontext.symm) (by omega)
      · exact contains_visit.2 (.inr (hw q (by omega) hcontext r hqr))
    have hnext : ∀ q ∈ p.next s, q.node < s.tree.size ∧ q.rank s.tree.arena < n := fun q hq ↦
      hrank ▸ (Path.leads_of_mem_next hfit hq).rank_lt hforest hp
    have hfollow : ∀ next : List Path,
        (∀ q ∈ next, q.node < s.tree.size ∧ q.rank s.tree.arena < n) →
        ∀ w₁ : Walk, w₁.Explored s n →
        ∃ w', run s (next.map (left, ·) ++ pending) w₁ = run s pending w' ∧ Sees s next w₁ w' := by
      intro next
      induction next with
      | nil => exact fun _ w₁ _ ↦ ⟨w₁, rfl, sees_nil⟩
      | cons q next ihnext =>
        intro hnext w₁ hexplored
        obtain ⟨hq, hqrank⟩ := hnext q List.mem_cons_self
        have hleft : q.rank s.tree.arena < left := by omega
        obtain ⟨w₂, hrun, hsees⟩ := ih _ hqrank hq hleft (hexplored.mono (by omega))
          (next.map (left, ·) ++ pending) rfl
        obtain ⟨w', hrun', hsees'⟩ := ihnext (fun r hr ↦ hnext r (List.mem_cons_of_mem _ hr)) w₂
          (hsees.explored hfit hexplored)
        exact ⟨w', hrun.trans hrun', hsees.trans hsees'⟩
    obtain ⟨w', hrun, hsees⟩ := hfollow (p.next s) hnext _ hexplored
    refine ⟨w', hrun, fun c ↦ ?_⟩
    simp only [List.mem_singleton, exists_eq_left]
    rw [hsees c, contains_visit, Path.exists_continues_iff, or_assoc, or_left_comm]

/-- **The contexts seen from a marker** are those of all paths that go on from it. -/
theorem contains_visited_fromMarker (hforest : s.tree.arena.Forest) (hfit : s.tree.LengthsFit)
    {marker : Nat} (hmarker : marker < s.tree.size) {c : Path.Context} :
    (w.fromMarker s marker).visited.contains c = true ↔
      ∃ q, Path.Continues s { node := marker, isLeaving := true } q ∧ q.context = c := by
  let start : Path := { node := marker, isLeaving := true }
  have hfresh : ({ w with visited := {} } : Walk).Explored s (start.rank s.tree.arena + 1) :=
    fun q _ hseen ↦ by simp at hseen
  obtain ⟨w', hrun, hsees⟩ := exists_run_sees hforest hfit hmarker
    (Path.rank_lt_allowance (p := start) hmarker) hfresh []
  have hw' : w.fromMarker s marker = w' := by rw [fromMarker, hrun, run]
  rw [hw', hsees c]
  simp [start]

end Walk

end PatternAutomata
