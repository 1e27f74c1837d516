import Mathlib.Data.List.Nodup
import PatternAutomata.Proofs.Automaton.Expansion
import PatternAutomata.Proofs.Tree.Regular

/-!
# Fixed states

What stands when expansion starts: the dummy, the final states and the initial states, of which each
has the key that it should have. Nothing leaves any of them yet but the entries that leave the
dummy, which are all transitions but the first two, and the initial states, none of which is there
twice, make up the queue.
-/

namespace PatternAutomata

namespace Tree

variable {t : Tree} {ok : CodePointSet → Prop} {x lead : Nat} {ids : List Nat} {anchored : Bool}

theorem mem_markers : x ∈ (t.markers ids).members ↔ x ∈ ids := IndexSet.mem_ofList

def startKey (t : Tree) (o : Options) (anchored : Bool) (lead : Nat) : MarkerSet × Bool :=
  (t.markers [t.start anchored lead], o.mustAdvance)

theorem Regular.ends_dollars (h : t.Regular ok) : t.Ends (t.markers t.dollars.toList) := by
  intro x hx
  have hdollar := (h.mem_dollars.1 (Array.mem_toList_iff.1 (mem_markers.1 hx))).1
  exact .inl (by rw [isFinal, hdollar])

theorem Regular.ends_matchFound (h : t.Regular ok) : t.Ends (t.markers [t.matchFound]) := by
  intro x hx
  have hmatch := h.matchFound_iff.2 (List.mem_singleton.1 (mem_markers.1 hx))
  exact .inl (by rw [isFinal, hmatch])

theorem not_ends_single (hfinal : t.isFinal x = false)
    (hlookBehind : (t.node x).kind.isLookBehind = false) : ¬t.Ends (t.markers [x]) := by
  intro hends
  rcases hends x (mem_markers.2 (List.mem_singleton_self x)) with hend | hend
  · rw [hfinal] at hend
    cases hend
  · rw [hlookBehind] at hend
    cases hend

theorem Regular.not_ends_start (h : t.Regular ok) (hlead : lead ≤ t.leadLength) :
    ¬t.Ends (t.markers [t.start anchored lead]) := by
  have hkind : (t.node (t.start anchored lead)).kind = .marker anchored lead := h.start_kind hlead
  exact not_ends_single (by rw [isFinal, hkind]) (by rw [hkind]; rfl)

theorem Regular.not_ends_wrappedRoot (h : t.Regular ok) : ¬t.Ends (t.markers [t.wrappedRoot]) := by
  obtain ⟨g, hkind⟩ := NodeKind.isGroup_iff.1 h.wrappedRoot_group
  exact not_ends_single (by rw [isFinal, hkind]) (by rw [hkind]; rfl)

theorem concludes_matchFound : t.Concludes (t.markers [t.matchFound]) :=
  ⟨t.matchFound, mem_markers.2 (List.mem_singleton_self _), .inl rfl⟩

theorem Regular.not_concludes_single (h : t.Regular ok) {k : NodeKind} (hkind : (t.node x).kind = k)
    (hmatch : k ≠ .matchFound) (hdollar : k ≠ .dollar) : ¬t.Concludes (t.markers [x]) := by
  rintro ⟨y, hy, hend⟩
  rw [List.mem_singleton.1 (mem_markers.1 hy)] at hend
  rcases hend with hend | hend
  · exact hmatch (hkind.symm.trans (h.matchFound_iff.2 hend))
  · exact hdollar (hkind.symm.trans hend)

theorem Regular.not_concludes_start (h : t.Regular ok) (hlead : lead ≤ t.leadLength) :
    ¬t.Concludes (t.markers [t.start anchored lead]) :=
  h.not_concludes_single (h.start_kind hlead) nofun nofun

theorem Regular.not_concludes_wrappedRoot (h : t.Regular ok) :
    ¬t.Concludes (t.markers [t.wrappedRoot]) := by
  obtain ⟨g, hkind⟩ := NodeKind.isGroup_iff.1 h.wrappedRoot_group
  exact h.not_concludes_single hkind nofun nofun

theorem eq_of_markers_eq {x y : Nat} (h : t.markers [x] = t.markers [y]) : x = y := by
  have hx : x ∈ (t.markers [y]).members := h ▸ mem_markers.2 (List.mem_singleton_self x)
  exact List.mem_singleton.1 (mem_markers.1 hx)

theorem Regular.start_inj (h : t.Regular ok) {anchored' : Bool} {lead' : Nat}
    (hlead : lead ≤ t.leadLength) (hlead' : lead' ≤ t.leadLength)
    (heq : t.start anchored lead = t.start anchored' lead') :
    anchored = anchored' ∧ lead = lead' := by
  have hkind : (t.node (t.start anchored lead)).kind = .marker anchored lead := h.start_kind hlead
  rw [heq, h.start_kind hlead'] at hkind
  cases hkind
  exact ⟨rfl, rfl⟩

theorem Regular.startKey_inj (h : t.Regular ok) {o : Options} {anchored' : Bool} {lead' : Nat}
    (hlead : lead ≤ t.leadLength) (hlead' : lead' ≤ t.leadLength)
    (heq : t.startKey o anchored lead = t.startKey o anchored' lead') :
    anchored = anchored' ∧ lead = lead' :=
  h.start_inj hlead hlead' (eq_of_markers_eq (congrArg Prod.fst heq))

end Tree

namespace Assembly

variable {t : Tree} {o : Options} {m m' m'' : Assembly o} {id q i n : Nat} {k : MarkerSet × Bool}
  {ids sources : List Nat} {entries entries' : Entries} {anchored isNew : Bool} {dummy : Nat}

/-! ## States without transitions -/

/-- No transition leaves any state, `ids` are the states that are not behind the pattern, and
`sources` are the sources of the transitions. -/
structure Prepared (t : Tree) (o : Options) (ids sources : List Nat) (m : Assembly o) : Prop where
  tabled : Tabled m
  labelled : Labelled t m
  size : m.states.size ≤ o.maxState + 1
  blank : ∀ {id}, m.out id = #[]
  listed : ∀ {id k}, m.key? id = some k → t.Ends k.1 ∨ id ∈ ids
  decides : ∀ {id k}, m.key? id = some k → t.Decides k
  sources : m.transitions.toList.map Transition.source = sources

theorem Prepared.empty : Prepared t o [] [] {} where
  tabled := by
    refine ⟨fun {k id} ↦ ?_, nofun⟩
    rw [Std.HashMap.getElem?_empty]
    exact iff_of_false nofun nofun
  labelled := nofun
  size := Nat.zero_le _
  blank := rfl
  listed := nofun
  decides := nofun
  sources := rfl

theorem Prepared.makes (h : Prepared t o ids sources m) (hmakes : Makes m m' id k)
    (htabled : Tabled m') (hlabelled : Labelled t m') (hsize : m'.states.size ≤ o.maxState + 1)
    (hdecides : t.Decides k) {ids' : List Nat} (hids : ids ⊆ ids')
    (hid : t.Ends k.1 ∨ id ∈ ids') : Prepared t o ids' sources m' where
  tabled := htabled
  labelled := hlabelled
  size := hsize
  blank := hmakes.out.trans h.blank
  listed hj := by
    rcases hmakes.keys.1 hj with hj | ⟨rfl, rfl⟩
    · exact (h.listed hj).imp_right fun hmem ↦ hids hmem
    · exact hid
  decides hj := by
    rcases hmakes.keys.1 hj with hj | ⟨rfl, rfl⟩
    · exact h.decides hj
    · exact hdecides
  sources := hmakes.transitions ▸ h.sources

theorem Prepared.size_stateOf (h : Prepared t o ids sources m)
    (hcases : isNew = false ∧ m' = m ∨ isNew = true ∧ m.key? id = none ∧ id ≤ o.maxState ∧
      m'.states.size = id + 1) : m'.states.size ≤ o.maxState + 1 := by
  rcases hcases with ⟨-, rfl⟩ | ⟨-, -, hle, hsize⟩
  · exact h.size
  · exact hsize ▸ Nat.succ_le_succ hle

theorem Prepared.stateOf (h : Prepared t o ids sources m) {markers : MarkerSet}
    {mustAdvance : Bool} (hends : ¬t.Ends markers) (hconcludes : ¬t.Concludes markers)
    (hok : m.stateOf t markers mustAdvance = .ok (id, isNew, m')) :
    Prepared t o (ids ++ [id]) sources m' ∧ Makes m m' id (markers, mustAdvance) := by
  obtain ⟨htabled, hmakes, hsame, hcases⟩ := stateOf_spec h.tabled hok
  have hnew : m'.isFinal id = true ↔ t.Ends markers := by
    refine iff_of_false ?_ hends
    rw [hsame]
    rcases hcases with ⟨-, rfl⟩ | ⟨-, hnone, -⟩
    · exact fun hfinal ↦ hends ((h.labelled hmakes.key).1 hfinal)
    · rw [isFinal_of_key_none hnone]
      exact Bool.false_ne_true
  refine ⟨h.makes hmakes htabled (h.labelled.makes hmakes (fun _ ↦ hsame) hnew)
    (h.size_stateOf hcases) (.inr (iff_of_false hends hconcludes)) (List.subset_append_left _ _)
    (.inr ?_), hmakes⟩
  exact List.mem_append_right _ (List.mem_singleton_self id)

theorem Prepared.stateOf_assign (h : Prepared t o ids sources m) {markers : MarkerSet}
    {mustAdvance : Bool} {f : Roles → Roles}
    (hf : ∀ s : State, ({ s with roles := f s.roles } : State).isFinal = true)
    (hends : t.Ends markers) (hdecides : t.Decides (markers, mustAdvance))
    (hok : m.stateOf t markers mustAdvance = .ok (id, isNew, m')) :
    Prepared t o ids sources (m'.assign id f) ∧
      Makes m (m'.assign id f) id (markers, mustAdvance) := by
  obtain ⟨htabled, hmakes, hsame, hcases⟩ := stateOf_spec h.tabled hok
  have hassign : Makes m (m'.assign id f) id (markers, mustAdvance) :=
    hmakes.modifyState (fun _ ↦ rfl) fun _ ↦ rfl
  have hget : ∀ {j}, (m'.assign id f).isFinal j = if id = j then true else m.isFinal j := by
    intro j
    rw [← hsame, isFinal, assign, getD_modifyState (lt_of_key hmakes.key)]
    split
    · exact hf _
    · rfl
  have hlabelled := h.labelled.makes hassign (fun hne ↦ by rw [hget, if_neg (Ne.symm hne)])
    (by rw [hget, if_pos rfl]; exact iff_of_true rfl hends)
  refine ⟨h.makes hassign (htabled.modifyState (fun _ ↦ rfl) fun _ ↦ rfl) hlabelled ?_ hdecides
    (List.Subset.refl _) (.inl hends), hassign⟩
  rw [size_assign]
  exact h.size_stateOf hcases

theorem Prepared.assign (h : Prepared t o ids sources m) {f : Roles → Roles}
    (hf : ∀ s : State, ({ s with roles := f s.roles } : State).isFinal = s.isFinal) :
    Prepared t o ids sources (m.assign id f) where
  tabled := h.tabled.modifyState (fun _ ↦ rfl) fun _ ↦ rfl
  labelled := h.labelled.modifyState (fun _ ↦ rfl) hf
  size := size_assign.symm ▸ h.size
  blank := out_assign.trans h.blank
  listed hj := by
    rw [key_assign] at hj
    exact h.listed hj
  decides hj := by
    rw [key_assign] at hj
    exact h.decides hj
  sources := h.sources

theorem Prepared.connectFreely (h : Prepared t o ids sources m) {source target : Nat}
    (hok : m.connectFreely t source target = .ok (i, m')) :
    Prepared t o ids (sources ++ [source]) m' ∧ Grows m m' ∧ i = sources.length := by
  obtain ⟨htabled, hgrows, -⟩ := h.tabled.connect hok
  obtain ⟨rfl, rfl⟩ := connect_eq hok
  refine ⟨⟨htabled, h.labelled, h.size, h.blank, h.listed, h.decides, ?_⟩, hgrows, ?_⟩
  · rw [transitions_withTransition, Array.toList_push, List.map_append, h.sources]
    rfl
  · rw [← h.sources, List.length_map, Array.length_toList]

/-! ## Initial states -/

/-- The initial states of all leads below `n`. -/
structure Enters (t : Tree) (o : Options) (anchored : Bool) (n : Nat) (m : Assembly o)
    (entries : Entries) : Prop where
  states : entries.states.toList.map m.key? =
    (List.range n).map fun lead ↦ some (t.startKey o anchored lead)

theorem Enters.exists_lead (h : Enters t o anchored n m entries) (hid : id ∈ entries.states) :
    ∃ lead < n, m.key? id = some (t.startKey o anchored lead) := by
  have hkey : m.key? id ∈ entries.states.toList.map m.key? :=
    List.mem_map_of_mem (Array.mem_toList_iff.2 hid)
  rw [h.states] at hkey
  obtain ⟨lead, hlead, hkey⟩ := List.mem_map.1 hkey
  exact ⟨lead, List.mem_range.1 hlead, hkey.symm⟩

theorem Enters.grows (h : Enters t o anchored n m entries) (hgrows : Grows m m') :
    Enters t o anchored n m' entries where
  states := by
    rw [← h.states]
    refine List.map_congr_left fun id hid ↦ ?_
    obtain ⟨lead, -, hkey⟩ := h.exists_lead (Array.mem_toList_iff.1 hid)
    rw [hkey, hgrows.keys hkey]

theorem Enters.key_getD (h : Enters t o anchored n m entries) {lead : Nat} (hlead : lead < n) :
    m.key? (entries.states.getD lead 0) = some (t.startKey o anchored lead) := by
  have hsize : entries.states.size = n := by
    have := congrArg List.length h.states
    rwa [List.length_map, List.length_map, List.length_range, Array.length_toList] at this
  have hget := congrArg (fun l ↦ l[lead]?) h.states
  rw [List.getElem?_map, List.getElem?_map, Array.getElem?_toList, List.getElem?_range hlead,
    Array.getElem?_eq_getElem (hsize ▸ hlead)] at hget
  rw [Array.getD_eq_getD_getElem?, Array.getElem?_eq_getElem (hsize ▸ hlead)]
  exact Option.some.inj hget

def initialRole (anchored : Bool) (lead : Nat) (r : Roles) : Roles :=
  if anchored then { r with anchoredInitial := true }
  else { r with unanchoredInitial := true, hasPrefix := r.hasPrefix || 0 < lead }

theorem isFinal_initialRole (anchored : Bool) (lead : Nat) (s : State) :
    ({ s with roles := initialRole anchored lead s.roles } : State).isFinal = s.isFinal := by
  cases anchored <;> rfl

/-- **Adding the initial states.** The entries to them get the next numbers. -/
theorem Prepared.addEntries (h : Prepared t o ids sources m)
    (hends : ∀ lead ≤ t.leadLength, ¬t.Ends (t.markers [t.start anchored lead]))
    (hconcludes : ∀ lead ≤ t.leadLength, ¬t.Concludes (t.markers [t.start anchored lead]))
    (hok : m.addEntries t dummy anchored = .ok (entries, m')) :
    Prepared t o (ids ++ entries.states.toList)
        (sources ++ List.replicate (t.leadLength + 1) dummy) m' ∧ Grows m m' ∧
      Enters t o anchored (t.leadLength + 1) m' entries ∧
      entries.transitions.toList = List.range' sources.length (t.leadLength + 1) := by
  unfold Assembly.addEntries at hok
  refine of_foldlM_range_eq_ok (fun n (r : Entries × Assembly o) ↦
    Prepared t o (ids ++ r.1.states.toList) (sources ++ List.replicate n dummy) r.2 ∧
      Grows m r.2 ∧ Enters t o anchored n r.2 r.1 ∧
        r.1.transitions.toList = List.range' sources.length n) ?_ ?_ hok
  · rw [List.append_nil, List.replicate_zero, List.append_nil]
    exact ⟨h, .refl _, ⟨rfl⟩, rfl⟩
  · rintro n ⟨entries₁, m₁⟩ r hlt ⟨hprepared, hgrows, henters, hentries⟩ hok
    obtain ⟨⟨state, isNew, m₂⟩, hstate, hok⟩ := exists_of_bind_eq_ok hok
    obtain ⟨⟨entry, m₃⟩, hconnect, hok⟩ := exists_of_bind_eq_ok hok
    cases hok
    have hle : n ≤ t.leadLength := Nat.le_of_lt_succ hlt
    obtain ⟨hprepared₂, hmakes⟩ := hprepared.stateOf (hends n hle) (hconcludes n hle) hstate
    have hprepared₃ : Prepared t o _ _ (m₂.assign state (initialRole anchored n)) :=
      hprepared₂.assign (isFinal_initialRole anchored n)
    have hassign : Makes m₁ (m₂.assign state (initialRole anchored n)) state
        (t.startKey o anchored n) := hmakes.modifyState (fun _ ↦ rfl) fun _ ↦ rfl
    obtain ⟨hprepared₄, hgrows₄, hentry⟩ := hprepared₃.connectFreely hconnect
    have hgrown := hassign.grows.trans hgrows₄
    refine ⟨?_, hgrows.trans hgrown, ⟨?_⟩, ?_⟩
    · rw [Array.toList_push, ← List.append_assoc, List.replicate_succ', ← List.append_assoc]
      exact hprepared₄
    · rw [Array.toList_push, List.map_append, (henters.grows hgrown).states, List.range_succ,
        List.map_append, List.map_singleton, List.map_singleton, hgrows₄.keys hassign.key]
    · rw [Array.toList_push, hentries, hentry, List.length_append, List.length_replicate,
        List.range'_concat, Nat.one_mul]

theorem addAdvanced_cases {advanced : Option Nat}
    (hok : m.addAdvanced t = .ok (advanced, m')) :
    o.mustAdvance = true ∧ (∃ id isNew, advanced = some id ∧
        m.stateOf t (t.markers [t.start false 0]) false = .ok (id, isNew, m')) ∨
      o.mustAdvance ≠ true ∧ advanced = none ∧ m' = m := by
  unfold Assembly.addAdvanced at hok
  split at hok
  · next hmust =>
    obtain ⟨⟨id, isNew, m₁⟩, hstate, hok⟩ := exists_of_bind_eq_ok hok
    cases hok
    exact .inl ⟨hmust, id, isNew, rfl, hstate⟩
  · next hmust =>
    cases hok
    exact .inr ⟨hmust, rfl, rfl⟩

theorem Prepared.addAdvanced (h : Prepared t o ids sources m) {advanced : Option Nat}
    (hends : ¬t.Ends (t.markers [t.start false 0]))
    (hconcludes : ¬t.Concludes (t.markers [t.start false 0]))
    (hok : m.addAdvanced t = .ok (advanced, m')) :
    Prepared t o (ids ++ advanced.toList) sources m' ∧ Grows m m' ∧ ∀ id, advanced = some id →
      o.mustAdvance = true ∧ m'.key? id = some (t.markers [t.start false 0], false) := by
  rcases addAdvanced_cases hok with ⟨hmust, id, isNew, rfl, hstate⟩ | ⟨-, rfl, rfl⟩
  · obtain ⟨hprepared, hmakes⟩ := h.stateOf hends hconcludes hstate
    refine ⟨hprepared, hmakes.grows, fun id' hid ↦ ⟨hmust, ?_⟩⟩
    cases hid
    exact hmakes.key
  · rw [Option.toList_none, List.append_nil]
    exact ⟨h, .refl _, nofun⟩

/-- The initial states of anchored searches that are not those of other searches. -/
def ownStates (own : Option Entries) : Array Nat :=
  match own with
  | none => #[]
  | some own => own.states

def ownTransitions (own : Option Entries) : Array Nat :=
  match own with
  | none => #[]
  | some own => own.transitions

/-- Anchored searches have initial states of their own just if there are carets to matter. -/
def OwnEnters (t : Tree) (o : Options) (m : Assembly o) (own : Option Entries) : Prop :=
  match own with
  | none => t.carets.isEmpty = true
  | some own => t.carets.isEmpty = false ∧ Enters t o true (t.leadLength + 1) m own

theorem OwnEnters.grows {own : Option Entries} (h : OwnEnters t o m own) (hgrows : Grows m m') :
    OwnEnters t o m' own := by
  cases own with
  | none => exact h
  | some own => exact ⟨h.1, h.2.grows hgrows⟩

theorem addOwnAnchored_cases {own : Option Entries}
    (hok : m.addOwnAnchored t dummy = .ok (own, m')) :
    t.carets.isEmpty = true ∧ own = none ∧ m' = m ∨ t.carets.isEmpty = false ∧
      ∃ entries, own = some entries ∧ m.addEntries t dummy true = .ok (entries, m') := by
  unfold Assembly.addOwnAnchored at hok
  split at hok
  · next hempty =>
    cases hok
    exact .inl ⟨hempty, rfl, rfl⟩
  · next hcarets =>
    obtain ⟨⟨entries, m₁⟩, hentries, hok⟩ := exists_of_bind_eq_ok hok
    cases hok
    exact .inr ⟨Bool.eq_false_iff.2 hcarets, entries, rfl, hentries⟩

theorem Prepared.addOwnAnchored (h : Prepared t o ids sources m) {own : Option Entries}
    (hends : ∀ lead ≤ t.leadLength, ¬t.Ends (t.markers [t.start true lead]))
    (hconcludes : ∀ lead ≤ t.leadLength, ¬t.Concludes (t.markers [t.start true lead]))
    (hok : m.addOwnAnchored t dummy = .ok (own, m')) :
    ∃ n, Prepared t o (ids ++ (ownStates own).toList) (sources ++ List.replicate n dummy) m' ∧
      Grows m m' ∧ OwnEnters t o m' own ∧
      (ownTransitions own).toList = List.range' sources.length n := by
  rcases addOwnAnchored_cases hok with ⟨hempty, rfl, rfl⟩ | ⟨hcarets, entries, rfl, hentries⟩
  · refine ⟨0, ?_, .refl _, hempty, rfl⟩
    rw [ownStates, List.append_nil, List.replicate_zero, List.append_nil]
    exact h
  · obtain ⟨hprepared, hgrows, henters, hnumbers⟩ := h.addEntries hends hconcludes hentries
    exact ⟨_, hprepared, hgrows, ⟨hcarets, henters⟩, hnumbers⟩

/-! ## The start of expansion -/

/-- The fixed states have their keys. -/
structure Fixed.Stands (t : Tree) (o : Options) (f : Fixed) (m : Assembly o) : Prop where
  dummy : m.key? f.dummy = some (t.markers [t.wrappedRoot], o.mustAdvance)
  anchoredFinal : m.key? f.anchoredFinal = some (t.markers t.dollars.toList, false)
  advanced : ∀ id, f.advanced = some id →
    o.mustAdvance = true ∧ m.key? id = some (t.markers [t.start false 0], false)
  unanchored : Enters t o false (t.leadLength + 1) m f.unanchored
  own : OwnEnters t o m f.ownAnchored

theorem Fixed.Stands.grows {f : Fixed} (h : f.Stands t o m) (hgrows : Grows m m') :
    f.Stands t o m' where
  dummy := hgrows.keys h.dummy
  anchoredFinal := hgrows.keys h.anchoredFinal
  advanced id hid := (h.advanced id hid).imp_right fun hkey ↦ hgrows.keys hkey
  unanchored := h.unanchored.grows hgrows
  own := h.own.grows hgrows

theorem Fixed.queue_eq (f : Fixed) :
    f.queue = f.unanchored.states ++ f.advanced.toArray ++ ownStates f.ownAnchored := rfl

theorem Fixed.entries_eq (f : Fixed) :
    f.entries = ownTransitions f.ownAnchored ++ f.unanchored.transitions := by
  unfold entries
  cases f.ownAnchored with
  | none => exact Array.empty_append.symm
  | some own => rfl

theorem Fixed.Stands.nodup_queue {f : Fixed} (h : f.Stands t o m) {ok : CodePointSet → Prop}
    (ht : t.Regular ok) : f.queue.toList.Nodup := by
  have hkeys : ∀ anchored, ((List.range (t.leadLength + 1)).map fun lead ↦
      some (t.startKey o anchored lead)).Nodup := by
    intro anchored
    refine List.Nodup.map_on (fun i hi j hj heq ↦ ?_) List.nodup_range
    have hi := Nat.le_of_lt_succ (List.mem_range.1 hi)
    have hj := Nat.le_of_lt_succ (List.mem_range.1 hj)
    exact (ht.startKey_inj hi hj (Option.some.inj heq)).2
  have hstates : f.unanchored.states.toList.Nodup :=
    .of_map m.key? (h.unanchored.states ▸ hkeys false)
  rw [Fixed.queue_eq, Array.toList_append, Array.toList_append]
  have hfirst : (f.unanchored.states.toList ++ f.advanced.toArray.toList).Nodup := by
    cases hadvanced : f.advanced with
    | none => simpa using hstates
    | some id =>
      obtain ⟨hmust, hid⟩ := h.advanced id hadvanced
      refine List.nodup_append.2 ⟨hstates, List.nodup_singleton id, fun a ha b hb ↦ ?_⟩
      rw [List.mem_singleton.1 hb]
      rintro rfl
      obtain ⟨lead, -, hkey⟩ := h.unanchored.exists_lead (Array.mem_toList_iff.1 ha)
      -- initial states have to advance, and this one need not any more
      have hfalse := congrArg Prod.snd (Option.some.inj (hkey.symm.trans hid))
      exact Bool.noConfusion (hmust.symm.trans hfalse)
  have hown := h.own
  cases howneq : f.ownAnchored with
  | none => simpa [ownStates] using hfirst
  | some own =>
    rw [howneq] at hown
    refine List.nodup_append.2 ⟨hfirst, .of_map m.key? (hown.2.states ▸ hkeys true),
      fun a ha b hb ↦ ?_⟩
    rintro rfl
    obtain ⟨lead, hlead, hkey⟩ := hown.2.exists_lead (Array.mem_toList_iff.1 hb)
    have hlead := Nat.le_of_lt_succ hlead
    rcases List.mem_append.1 ha with ha | ha
    · obtain ⟨lead', hlead', hkey'⟩ := h.unanchored.exists_lead (Array.mem_toList_iff.1 ha)
      have heq := Option.some.inj (hkey.symm.trans hkey')
      exact Bool.noConfusion (ht.startKey_inj hlead (Nat.le_of_lt_succ hlead') heq).1
    · have ha : f.advanced = some a := by simpa using ha
      have heq := Option.some.inj (hkey.symm.trans (h.advanced a ha).2)
      have hstart := Tree.eq_of_markers_eq (congrArg Prod.fst heq)
      exact Bool.noConfusion (ht.start_inj hlead (Nat.zero_le _) hstart).1

theorem Fixed.Stands.exists_key {f : Fixed} {ok : CodePointSet → Prop} (ht : t.Regular ok)
    (h : f.Stands t o m) (hid : id ∈ f.queue) : ∃ k, m.key? id = some k ∧ ¬t.Ends k.1 := by
  rw [Fixed.queue_eq, Array.mem_append, Array.mem_append] at hid
  rcases hid with (hid | hid) | hid
  · obtain ⟨lead, hlead, hkey⟩ := h.unanchored.exists_lead hid
    exact ⟨_, hkey, ht.not_ends_start (Nat.le_of_lt_succ hlead)⟩
  · exact ⟨_, (h.advanced id (by simpa using hid)).2, ht.not_ends_start (Nat.zero_le _)⟩
  · have hown := h.own
    cases howneq : f.ownAnchored with
    | none =>
      rw [howneq] at hid
      exact absurd hid (Array.not_mem_empty id)
    | some own =>
      rw [howneq] at hown hid
      obtain ⟨lead, hlead, hkey⟩ := hown.2.exists_lead hid
      exact ⟨_, hkey, ht.not_ends_start (Nat.le_of_lt_succ hlead)⟩

/-- The assembly when the entries leave the dummy. -/
def Fixed.attach (f : Fixed) (into : Array Nat) (m : Assembly o) : Assembly o :=
  m.modifyState f.dummy fun s ↦ { s with out := f.entries, into := into }

section attach

variable {f : Fixed} {into : Array Nat}

theorem key_attach : (f.attach into m).key? j = m.key? j := key_modifyState fun _ ↦ rfl

theorem grows_attach : Grows m (f.attach into m) := .modifyState fun _ ↦ rfl

theorem Prepared.out_attach (h : Prepared t o ids sources m) (hf : f.Stands t o m) :
    (f.attach into m).out j = if f.dummy = j then f.entries else #[] := by
  rw [out, Fixed.attach, getD_modifyState (lt_of_key hf.dummy)]
  split
  · rfl
  · exact h.blank

theorem Prepared.wired_attach {x y n : Nat}
    (h : Prepared t o ids (x :: y :: List.replicate n f.dummy) m) (hf : f.Stands t o m)
    (hsize : m.transitions.size = 2 + n) (hentries : f.entries.toList.Perm (List.range' 2 n)) :
    Wired [0, 1] (f.attach into m) := by
  intro i tr htr q
  have htr : m.transitions[i]? = some tr := htr
  have hlt : i < 2 + n := hsize ▸ (Array.getElem?_eq_some_iff.1 htr).1
  have hsource : 2 ≤ i → tr.source = f.dummy := by
    intro hi
    obtain ⟨i, rfl⟩ := Nat.exists_eq_add_of_le' hi
    have hget := congrArg (fun l ↦ l[i + 2]?) h.sources
    rw [List.getElem?_map, Array.getElem?_toList, htr] at hget
    exact List.eq_of_mem_replicate (List.mem_of_getElem? hget.symm)
  -- the entries are all the numbers from two on, each of them once
  have hloose : i ∉ [0, 1] ↔ 2 ≤ i := by
    simp only [List.mem_cons, List.not_mem_nil, or_false]
    omega
  rw [h.out_attach hf, if_congr (and_congr_right fun _ ↦ hloose) rfl rfl]
  by_cases hq : f.dummy = q
  · have hcount : f.entries.count i = if 2 ≤ i then 1 else 0 := by
      rw [← Array.count_toList, (hentries.nodup_iff.2 (List.nodup_range' _)).count]
      simp only [hentries.mem_iff, List.mem_range'_1, hlt, and_true]
    rw [if_pos hq, hcount]
    refine if_congr ⟨fun hi ↦ ⟨?_, hi⟩, And.right⟩ rfl rfl
    rw [hsource hi, hq]
  · rw [if_neg hq, Array.count_empty, if_neg]
    rintro ⟨rfl, hi⟩
    exact hq (hsource hi).symm

/-- When the entries, which are all transitions but the first two, leave the dummy, expansion can
start. -/
theorem Prepared.underway {ok : CodePointSet → Prop} (ht : t.Regular ok) {x y n : Nat}
    (h : Prepared t o ids (x :: y :: List.replicate n f.dummy) m) (hf : f.Stands t o m)
    (hids : ∀ id ∈ ids, id = f.dummy ∨ id ∈ f.queue)
    (hentries : f.entries.toList.Perm (List.range' 2 n)) (into : Array Nat) :
    Underway t o f.dummy f.queue (f.attach into m) := by
  have hsize : m.transitions.size = 2 + n := by
    have hlength := congrArg List.length h.sources
    rw [List.length_map, Array.length_toList, List.length_cons, List.length_cons,
      List.length_replicate] at hlength
    omega
  constructor
  case tabled =>
    refine ⟨fun {k j} ↦ ?_, fun {j i} hi ↦ ?_⟩
    · rw [key_attach]
      exact h.tabled.table
    · rw [h.out_attach hf] at hi
      split at hi
      · rw [← Array.mem_toList_iff, hentries.mem_iff, List.mem_range'_1, ← hsize] at hi
        exact hi.2
      · exact absurd hi (Array.not_mem_empty i)
  case labelled => exact h.labelled.modifyState (fun _ ↦ rfl) fun _ ↦ rfl
  case size => exact size_modifyState.symm ▸ h.size
  case nodup => exact hf.nodup_queue ht
  case known => exact (hf.grows grows_attach).exists_key ht
  case queued =>
    intro j k hj
    rw [key_attach] at hj
    exact (h.listed hj).imp_right (hids j)
  case decides =>
    intro j k hj
    rw [key_attach] at hj
    exact h.decides hj
  case wired => exact h.wired_attach hf hsize hentries
  case two_le => exact hsize ▸ Nat.le_add_right 2 n

theorem Prepared.reaches_attach (h : Prepared t o ids sources m) (hf : f.Stands t o m)
    (queue : Array Nat) : Reaches t f.dummy 0 queue (f.attach into m) where
  done hi := absurd hi (Nat.not_lt_zero _)
  blank hq _ := by
    rw [edges, h.out_attach hf, if_neg (Ne.symm hq)]
    rfl

end attach

/-- **The fixed states and transitions, one after another.** -/
theorem start_cases {f : Fixed} (hok : Assembly.start t o = .ok (f, m)) :
    ∃ isNew₁ isNew₂ isNew₃ m₁ m₂ m₃ m₄ m₅ m₆ m₇ m₈,
      ({} : Assembly o).stateOf t (t.markers [t.wrappedRoot]) o.mustAdvance =
        .ok (f.dummy, isNew₁, m₁) ∧
      m₁.stateOf t (t.markers t.dollars.toList) false = .ok (f.anchoredFinal, isNew₂, m₂) ∧
      (m₂.assign f.anchoredFinal ({ · with anchoredFinal := true })).stateOf t
        (t.markers [t.matchFound]) false = .ok (f.unanchoredFinal, isNew₃, m₃) ∧
      (m₃.assign f.unanchoredFinal ({ · with unanchoredFinal := true })).connectFreely t
        f.anchoredFinal f.dummy = .ok (f.anchoredReverseEntry, m₄) ∧
      m₄.connectFreely t f.unanchoredFinal f.dummy = .ok (f.unanchoredReverseEntry, m₅) ∧
      m₅.addAdvanced t = .ok (f.advanced, m₆) ∧
      m₆.addEntries t f.dummy false = .ok (f.unanchored, m₇) ∧
      m₇.addOwnAnchored t f.dummy = .ok (f.ownAnchored, m₈) ∧
      m = f.attach #[f.anchoredReverseEntry, f.unanchoredReverseEntry] m₈ := by
  obtain ⟨⟨dummy, isNew₁, m₁⟩, h₁, hok⟩ := exists_of_bind_eq_ok hok
  obtain ⟨⟨anchoredFinal, isNew₂, m₂⟩, h₂, hok⟩ := exists_of_bind_eq_ok hok
  obtain ⟨⟨unanchoredFinal, isNew₃, m₃⟩, h₃, hok⟩ := exists_of_bind_eq_ok hok
  obtain ⟨⟨anchoredReverseEntry, m₄⟩, h₄, hok⟩ := exists_of_bind_eq_ok hok
  obtain ⟨⟨unanchoredReverseEntry, m₅⟩, h₅, hok⟩ := exists_of_bind_eq_ok hok
  obtain ⟨⟨advanced, m₆⟩, h₆, hok⟩ := exists_of_bind_eq_ok hok
  obtain ⟨⟨unanchored, m₇⟩, h₇, hok⟩ := exists_of_bind_eq_ok hok
  obtain ⟨⟨own, m₈⟩, h₈, hok⟩ := exists_of_bind_eq_ok hok
  cases hok
  exact ⟨isNew₁, isNew₂, isNew₃, m₁, m₂, m₃, m₄, m₅, m₆, m₇, m₈, h₁, h₂, h₃, h₄, h₅, h₆, h₇, h₈,
    rfl⟩

/-- **What stands when expansion starts.** -/
theorem start_spec {f : Fixed} {ok : CodePointSet → Prop} (ht : t.Regular ok)
    (hok : Assembly.start t o = .ok (f, m)) :
    Underway t o f.dummy f.queue m ∧ f.Stands t o m ∧ Reaches t f.dummy 0 f.queue m ∧
      f.anchoredReverseEntry = 0 ∧ f.unanchoredReverseEntry = 1 := by
  obtain ⟨isNew₁, isNew₂, isNew₃, m₁, m₂, m₃, m₄, m₅, m₆, m₇, m₈, h₁, h₂, h₃, h₄, h₅, h₆, h₇, h₈,
    rfl⟩ := start_cases hok
  have hends : ∀ anchored, ∀ lead ≤ t.leadLength,
      ¬t.Ends (t.markers [t.start anchored lead]) := fun _ _ ↦ ht.not_ends_start
  have hconcludes : ∀ anchored, ∀ lead ≤ t.leadLength,
      ¬t.Concludes (t.markers [t.start anchored lead]) := fun _ _ ↦ ht.not_concludes_start
  obtain ⟨hp₁, hmakes₁⟩ :=
    Prepared.empty.stateOf ht.not_ends_wrappedRoot ht.not_concludes_wrappedRoot h₁
  obtain ⟨hp₂, hmakes₂⟩ := hp₁.stateOf_assign (f := ({ · with anchoredFinal := true }))
    (fun _ ↦ Bool.true_or _) ht.ends_dollars (.inl rfl) h₂
  obtain ⟨hp₃, hmakes₃⟩ := hp₂.stateOf_assign (f := ({ · with unanchoredFinal := true }))
    (fun _ ↦ Bool.or_true _) ht.ends_matchFound
    (.inr (iff_of_true ht.ends_matchFound Tree.concludes_matchFound)) h₃
  obtain ⟨hp₄, hg₄, hi₄⟩ := hp₃.connectFreely h₄
  obtain ⟨hp₅, hg₅, hi₅⟩ := hp₄.connectFreely h₅
  obtain ⟨hp₆, hg₆, hadvanced⟩ :=
    hp₅.addAdvanced (hends _ _ (Nat.zero_le _)) (hconcludes _ _ (Nat.zero_le _)) h₆
  obtain ⟨hp₇, hg₇, hunanchored, hn₇⟩ := hp₆.addEntries (hends false) (hconcludes false) h₇
  obtain ⟨n, hp₈, hg₈, hown, hn₈⟩ := hp₇.addOwnAnchored (hends true) (hconcludes true) h₈
  have hgrown := ((((hmakes₃.grows.trans hg₄).trans hg₅).trans hg₆).trans hg₇).trans hg₈
  have hstands : f.Stands t o m₈ :=
    ⟨hgrown.keys (hmakes₂.grows.keys hmakes₁.key), hgrown.keys hmakes₂.key, fun id hid ↦
      (hadvanced id hid).imp_right fun hkey ↦ hg₈.keys (hg₇.keys hkey),
      hunanchored.grows hg₈, hown⟩
  rw [List.append_assoc _ (List.replicate _ _), ← List.replicate_add] at hp₈
  have hunder := hp₈.underway ht hstands
    (by
      intro id hid
      rw [Fixed.queue_eq]
      simp only [List.nil_append, List.mem_append, List.mem_singleton, Array.mem_toList_iff,
        Option.mem_toList] at hid
      simp only [Array.mem_append, Option.mem_toArray]
      tauto)
    (by
      -- the entries of anchored searches are listed first, but have been made last
      rw [Fixed.entries_eq, Array.toList_append, hn₇, hn₈, List.length_append,
        List.length_replicate]
      exact List.perm_append_comm.trans (.of_eq List.range'_append_1))
    #[f.anchoredReverseEntry, f.unanchoredReverseEntry]
  exact ⟨hunder, hstands.grows (.modifyState fun _ ↦ rfl), hp₈.reaches_attach hstands _, hi₄, hi₅⟩

end Assembly

end PatternAutomata
