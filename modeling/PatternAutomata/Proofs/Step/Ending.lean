import Mathlib.Data.Set.Finite.Lattice
import Mathlib.Data.Set.Finite.List
import PatternAutomata.Proofs.Step.Exhaustive

/-!
# Every walk ends

A path ends because a loop is started again only once on each path. Between two such starts it goes
around the tree at most once, so the number of its moves is bounded by the spots of the tree and
the loops. As it goes on in finitely many ways every time, there are finitely many paths from
a marker, and following them all comes to an end, whether known contexts are given up or not.

A walk grants each path an allowance of moves. The walk without an allowance, which nothing but the
paths themselves brings to an end, is told by rules here; it ends, and where the walk with the
allowance does: the allowance never cuts a path short.
-/

namespace PatternAutomata

/-! ## Trails -/

/-- A trail: a path, what it becomes by one move, and so on. -/
def Stance.Trail (s : Stance) (trail : List Path) : Prop := trail.IsChain fun p q ↦ q ∈ p.next s

namespace Path

variable {s : Stance} {p : Path}

/-- What holds of a path if it holds of all ways to go on from it holds of every path. -/
theorem next_induction (hforest : s.tree.arena.Forest) (hfit : s.tree.LengthsFit)
    {P : Path → Prop} (step : ∀ p, p.node < s.tree.size → (∀ q ∈ p.next s, P q) → P p)
    (hp : p.node < s.tree.size) : P p := by
  induction hrank : p.rank s.tree.arena using Nat.strong_induction_on generalizing p with
  | _ n ih =>
    refine step p hp fun q hq ↦ ?_
    obtain ⟨hlt, hless⟩ := (leads_of_mem_next hfit hq).rank_lt hforest hp
    exact ih _ (hrank ▸ hless) hlt rfl

/-- A trail is no longer than the rank of the path in front allows. -/
theorem length_trail_le_rank (hforest : s.tree.arena.Forest) (hfit : s.tree.LengthsFit)
    {trail : List Path} (hp : p.node < s.tree.size) (h : s.Trail (p :: trail)) :
    trail.length ≤ p.rank s.tree.arena := by
  induction trail generalizing p with
  | nil => exact Nat.zero_le _
  | cons q trail ih =>
    obtain ⟨hq, htrail⟩ := List.isChain_cons_cons.1 h
    obtain ⟨hlt, hless⟩ := (leads_of_mem_next hfit hq).rank_lt hforest hp
    exact Nat.lt_of_le_of_lt (ih hlt htrail) hless

/-- **How long a path can go on.** Every path on a trail makes one move, the last one included: it
arrives, or finds no way to go on. -/
theorem length_trail_le (hforest : s.tree.arena.Forest) (hfit : s.tree.LengthsFit)
    {trail : List Path} (hp : p.node < s.tree.size) (h : s.Trail (p :: trail)) :
    (p :: trail).length ≤ 2 * s.tree.size * (s.tree.arena.loops.card + 1) := by
  rw [List.length_cons, Nat.mul_comm]
  exact Nat.lt_of_le_of_lt (length_trail_le_rank hforest hfit hp h) (rank_lt hp)

/-- **There are finitely many trails from a path.** -/
theorem finite_trails (hforest : s.tree.arena.Forest) (hfit : s.tree.LengthsFit)
    (hp : p.node < s.tree.size) : {trail | s.Trail (p :: trail)}.Finite := by
  refine next_induction (P := fun p ↦ {trail | s.Trail (p :: trail)}.Finite) hforest hfit
    (fun p hp ih ↦ ?_) hp
  have hways : (⋃ q ∈ {q | q ∈ p.next s}, (q :: ·) '' {trail | s.Trail (q :: trail)}).Finite :=
    (p.next s).finite_toSet.biUnion fun q hq ↦ (ih q hq).image _
  refine (hways.insert []).subset fun trail htrail ↦ ?_
  cases trail with
  | nil => exact Set.mem_insert _ _
  | cons q trail =>
    obtain ⟨hq, htrail⟩ := List.isChain_cons_cons.1 htrail
    exact .inr (Set.mem_biUnion hq ⟨trail, htrail, rfl⟩)

end Path

/-! ## The walk without an allowance -/

/-- Walking the pending paths, however far they go, makes `w'` of `w`. -/
inductive Walk.Follows (s : Stance) : List Path → Walk → Walk → Prop
  | done {w : Walk} : Follows s [] w w
  | known {p : Path} {pending : List Path} {w w' : Walk} :
      w.visited.contains p.context = true → Follows s pending w w' →
      Follows s (p :: pending) w w'
  | move {p : Path} {pending : List Path} {w w' : Walk} :
      w.visited.contains p.context = false →
      Follows s (p.next s ++ pending) (w.visit s p) w' → Follows s (p :: pending) w w'

/-- Walking from some markers makes `w'` of `w`. -/
inductive Tree.WalksFrom (t : Tree) (held : MarkerSet) (mustAdvance : Bool) :
    List Nat → Walk → Walk → Prop
  | done {w : Walk} : WalksFrom t held mustAdvance [] w w
  | skip {marker : Nat} {markers : List Nat} {w w' : Walk} :
      t.origin? marker = none → WalksFrom t held mustAdvance markers w w' →
      WalksFrom t held mustAdvance (marker :: markers) w w'
  | walk {marker : Nat} {markers : List Nat} {isAtStart : Bool} {w w₁ w' : Walk} :
      t.origin? marker = some isAtStart →
      Walk.Follows { tree := t, held, mustAdvance, isAtStart }
        [{ node := marker, isLeaving := true }] { w with visited := {} } w₁ →
      WalksFrom t held mustAdvance markers w₁ w' →
      WalksFrom t held mustAdvance (marker :: markers) w w'

namespace Walk

variable {s : Stance} {w w₁ w₂ : Walk}

theorem Follows.unique {pending : List Path} (h₁ : Follows s pending w w₁)
    (h₂ : Follows s pending w w₂) : w₁ = w₂ := by
  induction h₁ with
  | done => cases h₂; rfl
  | known hknown _ ih =>
    cases h₂ with
    | known _ h₂ => exact ih h₂
    | move hnew _ => exact absurd (hknown.symm.trans hnew) (by simp)
  | move hnew _ ih =>
    cases h₂ with
    | known hknown _ => exact absurd (hknown.symm.trans hnew) (by simp)
    | move _ h₂ => exact ih h₂

/-- **The allowance cuts no path short.** As long as each pending path is granted more moves than
its rank, the walk goes on where the one without an allowance does. -/
theorem follows_run (hforest : s.tree.arena.Forest) (hfit : s.tree.LengthsFit)
    (pending : List (Nat × Path))
    (h : ∀ r ∈ pending, r.2.node < s.tree.size ∧ r.2.rank s.tree.arena < r.1) :
    Follows s (pending.map Prod.snd) w (run s pending w) := by
  induction pending, w using run.induct s with
  | case1 w =>
    rw [run]
    exact .done
  | case2 p pending w ih => exact absurd (h _ List.mem_cons_self).2 (Nat.not_lt_zero _)
  | case3 left p pending w hknown ih =>
    rw [run, if_pos hknown]
    exact .known hknown (ih fun r hr ↦ h r (List.mem_cons_of_mem _ hr))
  | case4 left p pending w hnew ih =>
    rw [run, if_neg hnew]
    obtain ⟨hp, hrank⟩ := h _ List.mem_cons_self
    have hnext : ∀ r ∈ (p.next s).map (left, ·) ++ pending,
        r.2.node < s.tree.size ∧ r.2.rank s.tree.arena < r.1 := by
      intro r hr
      rcases List.mem_append.1 hr with hr | hr
      · obtain ⟨q, hq, rfl⟩ := List.mem_map.1 hr
        obtain ⟨hlt, hless⟩ := (Path.leads_of_mem_next hfit hq).rank_lt hforest hp
        exact ⟨hlt, Nat.lt_of_lt_of_le hless (Nat.le_of_lt_succ hrank)⟩
      · exact h r (List.mem_cons_of_mem _ hr)
    have hrest := ih hnext
    rw [List.map_append, List.map_map] at hrest
    exact .move (Bool.eq_false_iff.2 hnew) (by simpa [Function.comp_def] using hrest)

theorem follows_fromMarker (hforest : s.tree.arena.Forest) (hfit : s.tree.LengthsFit)
    {marker : Nat} (hmarker : marker < s.tree.size) :
    Follows s [{ node := marker, isLeaving := true }] { w with visited := {} }
      (w.fromMarker s marker) := by
  refine follows_run hforest hfit [(s.tree.allowance, _)] fun r hr ↦ ?_
  obtain rfl := List.mem_singleton.1 hr
  exact ⟨hmarker, Path.rank_lt_allowance hmarker⟩

end Walk

namespace Tree

variable {t : Tree} {held : MarkerSet} {mustAdvance : Bool}

theorem WalksFrom.unique {markers : List Nat} {w w₁ w₂ : Walk}
    (h₁ : t.WalksFrom held mustAdvance markers w w₁)
    (h₂ : t.WalksFrom held mustAdvance markers w w₂) : w₁ = w₂ := by
  induction h₁ with
  | done => cases h₂; rfl
  | skip hnone _ ih =>
    cases h₂ with
    | skip _ h₂ => exact ih h₂
    | walk hsome => exact absurd (hnone.symm.trans hsome) (by simp)
  | walk hsome hwalk _ ih =>
    cases h₂ with
    | skip hnone => exact absurd (hnone.symm.trans hsome) (by simp)
    | walk hsome' hwalk' h₂ =>
      obtain rfl := Option.some.inj (hsome.symm.trans hsome')
      obtain rfl := hwalk.unique hwalk'
      exact ih h₂

/-- The walk from one more marker. -/
def walkMore (t : Tree) (held : MarkerSet) (mustAdvance : Bool) (w : Walk) (marker : Nat) : Walk :=
  match t.origin? marker with
  | none => w
  | some isAtStart => w.fromMarker { tree := t, held, mustAdvance, isAtStart } marker

/-- **The walk of a step ends by itself.** -/
theorem walksFrom_iff_eq_walk (hforest : t.arena.Forest) (hfit : t.LengthsFit) {w : Walk} :
    t.WalksFrom held mustAdvance held.toList {} w ↔ w = t.walk held mustAdvance := by
  suffices h : ∀ (markers : List Nat) (w : Walk), t.WalksFrom held mustAdvance markers w
      (markers.foldl (t.walkMore held mustAdvance) w) from
    ⟨fun hw ↦ hw.unique (h held.toList {}), fun hw ↦ hw ▸ h held.toList {}⟩
  intro markers
  induction markers with
  | nil => exact fun w ↦ .done
  | cons marker markers ih =>
    intro w
    rw [List.foldl_cons, walkMore]
    cases horigin : t.origin? marker with
    | none => exact .skip horigin (ih w)
    | some isAtStart =>
      let s : Stance := { tree := t, held, mustAdvance, isAtStart }
      have hwalk : Walk.Follows s _ _ (w.fromMarker s marker) :=
        Walk.follows_fromMarker hforest hfit (lt_size_of_origin horigin)
      exact .walk horigin hwalk (ih _)

end Tree

end PatternAutomata
