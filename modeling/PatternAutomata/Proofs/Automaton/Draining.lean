import PatternAutomata.Proofs.Automaton.Bounds
import PatternAutomata.Proofs.Step.Ending

/-!
# Building an automaton ends

States are expanded one after another from a queue, which others join meanwhile. The rules by which
the queue is drained are told here without a limit on the number of rounds. What joins the queue is
the number of a state that has just been made, so no number is there twice, and there are no more of
them than the bound on states lets be made. So the queue runs empty, or a bound is exceeded before
that, and the limit on the number of rounds that expansion is granted never comes into play.

Each round needs a step, and steps end as well.
-/

namespace PatternAutomata

namespace Assembly

variable {t : Tree} {o : Options} {m m' : Assembly o} {q place fuel : Nat} {b : Branch}
  {queue queue' : Array Nat}

/-- Draining a queue from a place in it onwards expands some states, in this order, and ends with
a result. -/
inductive Drains (t : Tree) (o : Options) :
    Nat → Array Nat → Assembly o → List Nat → Except Explosion (Assembly o) → Prop
  | done {place : Nat} {queue : Array Nat} {m : Assembly o} : queue[place]? = none →
      Drains t o place queue m [] (.ok m)
  | fail {place id : Nat} {queue : Array Nat} {m : Assembly o} {e : Explosion} :
      queue[place]? = some id → expand t queue m id = .error e →
      Drains t o place queue m [id] (.error e)
  | move {place id : Nat} {queue queue' : Array Nat} {m m' : Assembly o} {expanded : List Nat}
      {r : Except Explosion (Assembly o)} :
      queue[place]? = some id → expand t queue m id = .ok (queue', m') →
      Drains t o (place + 1) queue' m' expanded r → Drains t o place queue m (id :: expanded) r

theorem Drains.unique {expanded expanded' : List Nat} {r r' : Except Explosion (Assembly o)}
    (h : Drains t o place queue m expanded r) (h' : Drains t o place queue m expanded' r') :
    expanded' = expanded ∧ r' = r := by
  induction h generalizing expanded' with
  | done hnone =>
    cases h' with
    | done => exact ⟨rfl, rfl⟩
    | fail hid => cases hnone.symm.trans hid
    | move hid => cases hnone.symm.trans hid
  | fail hid herror =>
    cases h' with
    | done hnone => cases hnone.symm.trans hid
    | fail hid' herror' =>
      obtain rfl := Option.some.inj (hid.symm.trans hid')
      cases herror.symm.trans herror'
      exact ⟨rfl, rfl⟩
    | move hid' hok =>
      obtain rfl := Option.some.inj (hid.symm.trans hid')
      cases herror.symm.trans hok
  | move hid hok _ ih =>
    cases h' with
    | done hnone => cases hnone.symm.trans hid
    | fail hid' herror =>
      obtain rfl := Option.some.inj (hid.symm.trans hid')
      cases herror.symm.trans hok
    | move hid' hok' h' =>
      obtain rfl := Option.some.inj (hid.symm.trans hid')
      cases hok.symm.trans hok'
      obtain ⟨rfl, rfl⟩ := ih h'
      exact ⟨rfl, rfl⟩

/-- The states in the queue have been made, and none of them is there twice. -/
structure Lined (o : Options) (queue : Array Nat) (m : Assembly o) : Prop where
  paced : Paced o queue m
  nodup : queue.toList.Nodup
  lt : ∀ id ∈ queue, id < m.states.size

theorem Extends.push (queue : Array Nat) (id : Nat) : Extends queue (queue.push id) := by
  intro i q hi
  rwa [Array.getElem?_push, if_neg (Nat.ne_of_lt (Array.getElem?_eq_some_iff.1 hi).1)]

theorem Lined.addBranch {successors : Array Successor} {r r' : Array Nat × Assembly o}
    (h : Lined o r.1 r.2) (hok : Assembly.addBranch t q successors r b = .ok r') :
    Lined o r'.1 r'.2 ∧ Extends r.1 r'.1 := by
  have hpaced := h.paced.addBranch hok
  rcases addBranch_cases hok with ⟨hsize, heq⟩ | ⟨hsize, -, heq | heq⟩
  · exact ⟨⟨hpaced, heq ▸ h.nodup, by rw [heq, hsize]; exact h.lt⟩, heq ▸ fun _ _ hi ↦ hi⟩
  · refine ⟨⟨hpaced, heq ▸ h.nodup, ?_⟩, heq ▸ fun _ _ hi ↦ hi⟩
    rw [heq, hsize]
    exact fun id hid ↦ Nat.lt_succ_of_lt (h.lt id hid)
  · refine ⟨⟨hpaced, ?_, ?_⟩, heq ▸ .push _ _⟩
    · rw [heq, Array.toList_push, ← List.concat_eq_append]
      exact h.nodup.concat fun hmem ↦ Nat.lt_irrefl _ (h.lt _ (Array.mem_toList_iff.1 hmem))
    · rw [heq, hsize]
      intro id hid
      rcases Array.mem_push.1 hid with hid | rfl
      · exact Nat.lt_succ_of_lt (h.lt id hid)
      · exact Nat.lt_succ_self _

/-- **One round.** -/
theorem Lined.expand (h : Lined o queue m)
    (hok : Assembly.expand t queue m q = .ok (queue', m')) :
    Lined o queue' m' ∧ Extends queue queue' :=
  of_foldlM_eq_ok (fun r ↦ Lined o r.1 r.2 ∧ Extends queue r.1)
    (fun hr hok ↦ (hr.1.addBranch hok).imp_right fun hextends _ _ hi ↦ hextends (hr.2 hi))
    ⟨h, fun _ _ hi ↦ hi⟩ hok

theorem Lined.size_le (h : Lined o queue m) : queue.size ≤ o.maxState + 1 :=
  Nat.le_trans h.paced.queue h.paced.states

theorem Lined.place_unique (h : Lined o queue m) {i j id : Nat} (hi : queue[i]? = some id)
    (hj : queue[j]? = some id) : i = j := by
  rw [← Array.getElem?_toList] at hi hj
  exact (List.getElem?_inj (List.getElem?_eq_some_iff.1 hi).1 h.nodup).1 (hi.trans hj.symm)

/-- **All rounds.** The queue runs empty before the rounds that expansion is granted are over. No
state is expanded twice, and together with those expanded before they are no more than the bound
lets be made. -/
theorem Lined.exists_drains (h : Lined o queue m) (hfuel : o.maxState + 1 ≤ place + fuel) :
    ∃ expanded, Drains t o place queue m expanded (expandAll t fuel place queue m) ∧
      expanded.Nodup ∧ expanded.length ≤ o.maxState + 1 - place ∧
        ∀ i < place, ∀ id ∈ expanded, queue[i]? ≠ some id := by
  induction fuel generalizing place queue m with
  | zero =>
    have hnone : queue[place]? = none :=
      Array.getElem?_eq_none_iff.2 (Nat.le_trans h.size_le hfuel)
    rw [expandAll_of_none hnone]
    exact ⟨[], .done hnone, List.nodup_nil, Nat.zero_le _, fun _ _ _ hid ↦ nomatch hid⟩
  | succ fuel ih =>
    cases hq : queue[place]? with
    | none =>
      rw [expandAll_of_none hq]
      exact ⟨[], .done hq, List.nodup_nil, Nat.zero_le _, fun _ _ _ hid ↦ nomatch hid⟩
    | some id =>
      have hplace : place < o.maxState + 1 :=
        Nat.lt_of_lt_of_le (Array.getElem?_eq_some_iff.1 hq).1 h.size_le
      have hbefore : ∀ i < place, queue[i]? ≠ some id := fun i hi hget ↦
        Nat.ne_of_lt hi (h.place_unique hget hq)
      rw [expandAll_of_some hq]
      cases hexpand : Assembly.expand t queue m id with
      | error e =>
        refine ⟨[id], .fail hq hexpand, List.nodup_singleton id, ?_, fun i hi j hj ↦ ?_⟩
        · exact Nat.le_sub_of_add_le' hplace
        · exact List.mem_singleton.1 hj ▸ hbefore i hi
      | ok r =>
        obtain ⟨hlined, hextends⟩ := h.expand hexpand
        obtain ⟨expanded, hdrains, hnodup, hlength, hbehind⟩ :=
          ih hlined (show o.maxState + 1 ≤ place + 1 + fuel by omega)
        refine ⟨id :: expanded, .move hq hexpand hdrains, List.nodup_cons.2 ⟨fun hmem ↦ ?_, hnodup⟩,
          ?_, fun i hi j hj ↦ ?_⟩
        · exact hbehind place (Nat.lt_succ_self _) id hmem (hextends hq)
        · rw [List.length_cons]
          omega
        · rcases List.mem_cons.1 hj with rfl | hj
          · exact hbefore i hi
          · exact fun hget ↦ hbehind i (Nat.lt_succ_of_lt hi) j hj (hextends hget)

/-- What is left to do when nothing is left to expand. -/
def close (t : Tree) (o : Options) (fl : Flags) (f : Fixed) (m : Assembly o) :
    Except Explosion Automaton := do
  let (loopBack, m) ← m.addLoopBacks t f
  let (hardPrefixStates, m) := m.linkAll t fl f.dummy
  return {
    states := m.states
    transitions := m.transitions
    dummy := f.dummy
    anchoredFinal := f.anchoredFinal
    unanchoredFinal := f.unanchoredFinal
    anchoredReverseEntry := f.anchoredReverseEntry
    unanchoredReverseEntry := f.unanchoredReverseEntry
    unanchored := f.unanchored
    ownAnchored := f.ownAnchored
    advanced := f.advanced
    loopBack, hardPrefixStates }

end Assembly

namespace Automaton

open Assembly

variable {t : Tree} {o : Options} {fl : Flags}

theorem ofTree_eq : ofTree t o fl = (do
    let (f, m) ← Assembly.start t o
    let m ← expandAll t (o.maxState + 1) 0 f.queue m
    m.close t o fl f) := rfl

/-- Building the automaton of a tree expands some states, in this order, and ends with a result: an
automaton, or the bound that is exceeded. -/
inductive Generates (t : Tree) (o : Options) (fl : Flags) :
    List Nat → Except Explosion Automaton → Prop
  | outgrown {e : Explosion} : Assembly.start t o = .error e → Generates t o fl [] (.error e)
  | stopped {f : Fixed} {m : Assembly o} {expanded : List Nat} {e : Explosion} :
      Assembly.start t o = .ok (f, m) → Drains t o 0 f.queue m expanded (.error e) →
      Generates t o fl expanded (.error e)
  | drained {f : Fixed} {m m' : Assembly o} {expanded : List Nat} :
      Assembly.start t o = .ok (f, m) → Drains t o 0 f.queue m expanded (.ok m') →
      Generates t o fl expanded (m'.close t o fl f)

theorem Generates.unique {expanded expanded' : List Nat} {r r' : Except Explosion Automaton}
    (h : Generates t o fl expanded r) (h' : Generates t o fl expanded' r') :
    expanded' = expanded ∧ r' = r := by
  cases h with
  | outgrown herror =>
    cases h' with
    | outgrown herror' =>
      cases herror.symm.trans herror'
      exact ⟨rfl, rfl⟩
    | stopped hok => cases herror.symm.trans hok
    | drained hok => cases herror.symm.trans hok
  | stopped hok hdrains =>
    cases h' with
    | outgrown herror => cases herror.symm.trans hok
    | stopped hok' hdrains' =>
      cases hok.symm.trans hok'
      obtain ⟨rfl, heq⟩ := hdrains.unique hdrains'
      cases heq
      exact ⟨rfl, rfl⟩
    | drained hok' hdrains' =>
      cases hok.symm.trans hok'
      cases (hdrains.unique hdrains').2
  | drained hok hdrains =>
    cases h' with
    | outgrown herror => cases herror.symm.trans hok
    | stopped hok' hdrains' =>
      cases hok.symm.trans hok'
      cases (hdrains.unique hdrains').2
    | drained hok' hdrains' =>
      cases hok.symm.trans hok'
      obtain ⟨rfl, heq⟩ := hdrains.unique hdrains'
      cases heq
      exact ⟨rfl, rfl⟩

/-- **Building ends**, with what is built under the limit on the number of rounds. -/
theorem exists_generates (h : t.Finished) (o : Options) (fl : Flags) :
    ∃ expanded, Generates t o fl expanded (ofTree t o fl) ∧ expanded.Nodup ∧
      expanded.length ≤ o.maxState + 1 := by
  rw [ofTree_eq]
  cases hstart : Assembly.start t o with
  | error e => exact ⟨[], .outgrown hstart, List.nodup_nil, Nat.zero_le _⟩
  | ok r =>
    obtain ⟨f, m⟩ := r
    obtain ⟨hunder, -⟩ := start_spec h.regular hstart
    have hlined : Lined o f.queue m := by
      refine ⟨⟨hunder.size_queue_le, hunder.size⟩, hunder.nodup, fun id hid ↦ ?_⟩
      obtain ⟨k, hk, -⟩ := hunder.known hid
      exact lt_of_key hk
    obtain ⟨expanded, hdrains, hnodup, hlength, -⟩ :=
      hlined.exists_drains (t := t) (Nat.le_of_eq (Nat.zero_add (o.maxState + 1)).symm)
    refine ⟨expanded, ?_, hnodup, hlength⟩
    change Generates t o fl expanded (expandAll t (o.maxState + 1) 0 f.queue m >>= fun m ↦
      m.close t o fl f)
    cases hexpand : expandAll t (o.maxState + 1) 0 f.queue m with
    | error e => exact .stopped hstart (hexpand ▸ hdrains)
    | ok m' => exact .drained hstart (hexpand ▸ hdrains)

end Automaton

namespace Tree

open Automaton

/-- **Steps end, and so does building an automaton.** Of a finished tree with `n` nodes and `l`
loops, a path from any marker makes at most `2 * n * (l + 1)` moves before it arrives or cannot go
on. There are finitely many such trails, and following them all comes to an end. So a step ends,
whether known contexts are given up or not, and without any limit it ends in what `Tree.step` lists
within its allowance. Building expands no state twice, and no more states than the bound lets be
made, until it ends with an automaton or with the bound that is exceeded. -/
theorem Finished.walks_and_building_end {t : Tree} (h : t.Finished) :
    (∀ held mustAdvance isAtStart marker, marker < t.size →
      let s : Stance := { tree := t, held, mustAdvance, isAtStart }
      let start : Path := { node := marker, isLeaving := true }
      (∀ trail, s.Trail (start :: trail) →
        (start :: trail).length ≤ 2 * t.size * (t.arena.loops.card + 1)) ∧
      {trail | s.Trail (start :: trail)}.Finite ∧
      ∀ found, ∃ found', Exhausts s [start] found found') ∧
    (∀ held mustAdvance, (∃ successors, t.StepsExhaustively held mustAdvance successors) ∧
      ∀ w, t.WalksFrom held mustAdvance held.toList {} w ↔ w = t.walk held mustAdvance) ∧
    ∀ o fl, ∃ expanded : List Nat, expanded.Nodup ∧ expanded.length ≤ o.maxState + 1 ∧
      ∀ expanded' r, Generates t o fl expanded' r ↔ expanded' = expanded ∧ r = ofTree t o fl := by
  have hforest := h.regular.forest
  have hfit := h.regular.fits
  refine ⟨fun held mustAdvance isAtStart marker hmarker ↦ ⟨fun trail htrail ↦ ?_, ?_, ?_⟩,
    fun held mustAdvance ↦ ⟨?_, fun w ↦ walksFrom_iff_eq_walk hforest hfit⟩, fun o fl ↦ ?_⟩
  · exact Path.length_trail_le hforest hfit hmarker htrail
  · exact Path.finite_trails hforest hfit hmarker
  · exact fun found ↦ ⟨_, exhausts_cons hforest hfit hmarker .done⟩
  · exact ⟨_, stepsExhaustively_step hforest hfit⟩
  · obtain ⟨expanded, hgenerates, hnodup, hlength⟩ := exists_generates h o fl
    refine ⟨expanded, hnodup, hlength, fun expanded' r ↦ ⟨hgenerates.unique, ?_⟩⟩
    rintro ⟨rfl, rfl⟩
    exact hgenerates

/-- Three loops, one within the other, each of which can be idle, from the class within them. -/
theorem walks_and_building_end_nested_loops :
    ∃ t, ofPattern {} (.ofString "(?:(?:a*)*|$)*") = .ok t ∧
      let s : Stance :=
        { tree := t, held := t.markers [6], mustAdvance := false, isAtStart := false }
      let start : Path := { node := 6, isLeaving := true }
      t.origin? 6 = some false ∧ {trail | s.Trail (start :: trail)}.Finite ∧
        (∀ trail, s.Trail (start :: trail) → (start :: trail).length ≤ 2 * 23 * (3 + 1)) ∧
        ∃ expanded : List Nat, expanded.Nodup ∧ expanded.length ≤ 3501 ∧
          Generates t {} {} expanded (ofTree t {} {}) := by
  obtain ⟨t, ht, htests⟩ := exists_ofPattern
    (fun t ↦ decide (t.origin? 6 = some false ∧ t.size = 23 ∧ t.arena.loops.card = 3))
    (show (ofPattern {} (.ofString "(?:(?:a*)*|$)*")).toOption.any _ = true by decide +kernel)
  obtain ⟨horigin, hsize, hcard⟩ := of_decide_eq_true htests
  obtain ⟨htrails, -, hbuilding⟩ := Finished.walks_and_building_end (.ofPattern ht)
  obtain ⟨hlength, hfinite, -⟩ := htrails (t.markers [6]) false false 6 (by omega)
  obtain ⟨expanded, hnodup, hexpanded, hiff⟩ := hbuilding {} {}
  rw [hsize, hcard] at hlength
  exact ⟨t, ht, horigin, hfinite, hlength, expanded, hnodup, hexpanded, (hiff _ _).2 ⟨rfl, rfl⟩⟩

end Tree

end PatternAutomata
