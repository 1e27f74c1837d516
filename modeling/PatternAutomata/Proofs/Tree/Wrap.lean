import PatternAutomata.Proofs.Tree.Alike

/-!
# What finishing adds

Claims change the classes of look-behind bodies and nothing else. The lead-in and the place behind
the pattern are new nodes around the root. Both are described node by node.
-/

namespace PatternAutomata

namespace Arena

variable {a b : Arena} {x : Nat}

/-! ## Claims -/

/-- The classes in the body of a look-behind assertion. -/
def bodyOf (a : Arena) (lookBehind : Nat) : Array Nat :=
  a.bodyTerms ((a.node lookBehind).children.getD 0 lookBehind)

theorem SamePlaces.bodyOf (h : SamePlaces a b) (lookBehind : Nat) :
    b.bodyOf lookBehind = a.bodyOf lookBehind := by
  simp only [Arena.bodyOf, bodyTerms, h.children]

/-- A node that is claimed by a look-behind assertion if it is a class. -/
def claimed (lookBehind : Nat) (n : Node) : Node :=
  match n.kind with
  | .chars set _ => { n with kind := .chars set (some lookBehind) }
  | _ => n

theorem claimed_places (lookBehind : Nat) (n : Node) : (claimed lookBehind n).parent = n.parent ∧
    (claimed lookBehind n).index = n.index ∧ (claimed lookBehind n).children = n.children ∧
    (claimed lookBehind n).minPath = n.minPath := by
  unfold claimed
  split <;> exact ⟨rfl, rfl, rfl, rfl⟩

theorem claimed_claimed (lookBehind : Nat) (n : Node) :
    claimed lookBehind (claimed lookBehind n) = claimed lookBehind n := by
  obtain ⟨kind, parent, index, children, minPath⟩ := n
  cases kind <;> rfl

theorem claimBody_eq (lookBehind : Nat) :
    a.claimBody lookBehind =
      (a.bodyOf lookBehind).toList.foldl (fun a id ↦ a.modify id (claimed lookBehind)) a := by
  rw [Array.foldl_toList]
  rfl

theorem foldl_claimed (lookBehind : Nat) (ids : List Nat) (a : Arena) :
    SamePlaces a (ids.foldl (fun a id ↦ a.modify id (claimed lookBehind)) a) ∧
      (ids.foldl (fun a id ↦ a.modify id (claimed lookBehind)) a).size = a.size ∧
      (ids.foldl (fun a id ↦ a.modify id (claimed lookBehind)) a).node x =
        if x ∈ ids then claimed lookBehind (a.node x) else a.node x := by
  induction ids generalizing a with
  | nil => exact ⟨.refl a, rfl, by simp⟩
  | cons id ids ih =>
    obtain ⟨hplaces, hsize, hnode⟩ := ih (a.modify id (claimed lookBehind))
    have hmodify : (a.modify id (claimed lookBehind)).node x =
        if x = id then claimed lookBehind (a.node x) else a.node x := by
      by_cases hid : id < a.size
      · exact node_modify _ hid
      · rw [node_modify_of_size_le _ (Nat.not_lt.1 hid)]
        split
        · next hx =>
          rw [hx, node_of_size_le (Nat.not_lt.1 hid)]
          rfl
        · rfl
    refine ⟨.trans (samePlaces_modify fun n ↦ ?_) hplaces, hsize.trans (size_modify _), ?_⟩
    · have := claimed_places lookBehind n
      exact ⟨this.1, this.2.1, this.2.2.1⟩
    · rw [List.foldl_cons, hnode, hmodify]
      by_cases hx : x = id
      · rw [if_pos hx, if_pos (List.mem_cons.2 (.inl hx)), claimed_claimed]
        split <;> rfl
      · rw [if_neg hx]
        simp only [List.mem_cons, hx, false_or]

/-- Claims for some assertions change the classes of their bodies, each of which belongs to one. -/
theorem foldl_claimBody (lookBehinds : List Nat) (a : Arena) :
    SamePlaces a (lookBehinds.foldl claimBody a) ∧
      (lookBehinds.foldl claimBody a).size = a.size ∧
      ((∀ id ∈ lookBehinds, x ∉ a.bodyOf id) →
        (lookBehinds.foldl claimBody a).node x = a.node x) ∧
      ∀ id ∈ lookBehinds, x ∈ a.bodyOf id → (∀ id' ∈ lookBehinds, x ∈ a.bodyOf id' → id' = id) →
        (lookBehinds.foldl claimBody a).node x = claimed id (a.node x) := by
  induction lookBehinds generalizing a with
  | nil => exact ⟨.refl a, rfl, fun _ ↦ rfl, fun id hid ↦ absurd hid List.not_mem_nil⟩
  | cons id ids ih =>
    have hclaim := @foldl_claimed x id (a.bodyOf id).toList a
    rw [← claimBody_eq] at hclaim
    obtain ⟨hplaces, hsize, hnode⟩ := hclaim
    obtain ⟨hplaces', hsize', hout, hin⟩ := ih (a.claimBody id)
    simp only [hplaces.bodyOf, Array.mem_toList_iff] at hout hin hnode
    refine ⟨hplaces.trans hplaces', hsize'.trans hsize, fun hnone ↦ ?_,
      fun id' hid' hx hunique ↦ ?_⟩
    · rw [List.foldl_cons, hout fun id' hid' ↦ hnone id' (List.mem_cons_of_mem _ hid'), hnode,
        if_neg (hnone id List.mem_cons_self)]
    · rw [List.foldl_cons]
      by_cases hmem : id' ∈ ids
      · rw [hin id' hmem hx fun id hid ↦ hunique id (List.mem_cons_of_mem _ hid), hnode]
        split
        · next hx' => rw [hunique id List.mem_cons_self hx', claimed_claimed]
        · rfl
      · obtain rfl : id' = id := (List.mem_cons.1 hid').resolve_right hmem
        rw [hout, hnode, if_pos hx]
        intro id hid hx'
        exact hmem (hunique id (List.mem_cons_of_mem _ hid) hx' ▸ hid)

/-! ## The lead-in -/

theorem node_add_link {s : Nat} (hs : s < a.size) (k : NodeKind) :
    ((a.add k).link s a.size).node x =
      if x = s then { a.node s with children := (a.node s).children.push a.size }
      else if x = a.size then
        { kind := k, parent := some s, index := (a.node s).children.size }
      else a.node x := by
  have hne : s ≠ a.size := Nat.ne_of_lt hs
  rw [node_link (by simp; omega) (by simp)]
  simp only [node_add, if_neg hne]
  by_cases hxs : x = s
  · subst hxs
    simp [hne]
  · by_cases hx : x = a.size
    · subst hx
      simp [hne.symm]
    · simp [hxs, hx]

/-- It makes no difference whether a node is made before others are placed. -/
theorem link_add {p c : Nat} (hp : p < a.size) (hc : c < a.size) (k : NodeKind) :
    (a.add k).link p c = (a.link p c).add k := by
  refine ext_node (by simp) fun x _ ↦ ?_
  rw [node_link (by simp; omega) (by simp; omega), node_add, node_add, node_add, size_link,
    node_link hp hc, if_neg (Nat.ne_of_lt hp)]
  by_cases hx : x = a.size
  · simp [hx, Nat.ne_of_gt hp, Nat.ne_of_gt hc]
  · simp [hx]

/-- What the nodes of a lead-in are, in order. -/
def leadKinds (full : CodePointSet) : Nat → List NodeKind
  | 0 => [.marker false 0, .marker true 0]
  | lead + 1 =>
    .marker false (lead + 1) :: .marker true (lead + 1) :: .chars full none :: leadKinds full lead

@[simp] theorem length_leadKinds (full : CodePointSet) (lead : Nat) :
    (leadKinds full lead).length = 3 * lead + 2 := by
  induction lead with
  | zero => rfl
  | succ lead ih => simp only [leadKinds, List.length_cons, ih]; omega

/-- The markers for a shorter lead follow those for longer ones, in front of their class. -/
theorem getElem?_leadKinds {full : CodePointSet} {lead i : Nat} (hi : i ≤ lead) :
    (leadKinds full lead)[3 * (lead - i)]? = some (.marker false i) ∧
      (leadKinds full lead)[3 * (lead - i) + 1]? = some (.marker true i) ∧
      (0 < i → (leadKinds full lead)[3 * (lead - i) + 2]? = some (.chars full none)) := by
  induction lead with
  | zero =>
    obtain rfl : i = 0 := Nat.le_zero.1 hi
    exact ⟨rfl, rfl, fun h ↦ absurd h (Nat.lt_irrefl 0)⟩
  | succ lead ih =>
    by_cases heq : i = lead + 1
    · rw [heq, Nat.sub_self]
      exact ⟨rfl, rfl, fun _ ↦ rfl⟩
    · have hsub : 3 * (lead + 1 - i) = 3 * (lead - i) + 3 := by omega
      rw [hsub]
      exact ih (by omega)

theorem of_getElem?_leadKinds {full : CodePointSet} {lead j : Nat} {k : NodeKind}
    (h : (leadKinds full lead)[j]? = some k) :
    (∃ i ≤ lead, k = .marker false i ∧ j = 3 * (lead - i)) ∨
      (∃ i ≤ lead, k = .marker true i ∧ j = 3 * (lead - i) + 1) ∨ k = .chars full none := by
  induction lead generalizing j with
  | zero =>
    match j with
    | 0 => cases h; exact .inl ⟨0, Nat.le_refl _, rfl, rfl⟩
    | 1 => cases h; exact .inr (.inl ⟨0, Nat.le_refl _, rfl, rfl⟩)
    | j + 2 => cases h
  | succ lead ih =>
    match j with
    | 0 => cases h; exact .inl ⟨lead + 1, Nat.le_refl _, rfl, by omega⟩
    | 1 => cases h; exact .inr (.inl ⟨lead + 1, Nat.le_refl _, rfl, by omega⟩)
    | 2 => cases h; exact .inr (.inr rfl)
    | j + 3 =>
      rcases ih h with ⟨i, hi, hk, hj⟩ | ⟨i, hi, hk, hj⟩ | hk
      · exact .inl ⟨i, by omega, hk, by omega⟩
      · exact .inr (.inl ⟨i, by omega, hk, by omega⟩)
      · exact .inr (.inr hk)

/-- `b` is `a` with new nodes of some kinds placed at the end of a sequence. -/
structure Extended (a : Arena) (s : Nat) (kinds : List NodeKind) (b : Arena) : Prop where
  size : b.size = a.size + kinds.length
  old : ∀ x < a.size, x ≠ s → b.node x = a.node x
  sequence : b.node s =
    { a.node s with
      children := ((a.node s).children.toList ++ List.range' a.size kinds.length).toArray }
  new : ∀ i k, kinds[i]? = some k → b.node (a.size + i) =
    { kind := k, parent := some s, index := (a.node s).children.size + i }

namespace Extended

variable {s : Nat} {kinds kinds' : List NodeKind} {c : Arena}

theorem refl (a : Arena) (s : Nat) : Extended a s [] a where
  size := rfl
  old _ _ _ := rfl
  sequence := by simp
  new i k h := by cases h

theorem add (h : Extended a s kinds b) (hs : s < a.size) (k : NodeKind) :
    Extended a s (kinds ++ [k]) ((b.add k).link s b.size) := by
  have hsb : s < b.size := Nat.lt_of_lt_of_le hs (h.size ▸ Nat.le_add_right _ _)
  have hsize := h.size
  refine ⟨by simp [h.size, Nat.add_assoc], fun x hx hne ↦ ?_, ?_, fun i k' hi ↦ ?_⟩
  · rw [node_add_link hsb, if_neg hne, if_neg (by omega), h.old x hx hne]
  · rw [node_add_link hsb, if_pos rfl, h.sequence, hsize]
    rw [List.length_append, List.length_singleton, List.range'_concat, ← List.append_assoc,
      ← List.push_toArray, Nat.one_mul]
  · rw [node_add_link hsb, if_neg (by omega), h.sequence]
    by_cases hlt : i < kinds.length
    · rw [if_neg (by omega)]
      exact h.new i k' (by rwa [List.getElem?_append_left hlt] at hi)
    · have hik : i = kinds.length := by
        have := (List.getElem?_eq_some_iff.1 hi).1
        rw [List.length_append, List.length_singleton] at this
        omega
      subst hik
      rw [List.getElem?_concat_length] at hi
      cases hi
      rw [if_pos (by omega)]
      simp

end Extended

/-- An arena with the markers for a lead at the end of a sequence. -/
def withMarkers (a : Arena) (s lead : Nat) : Arena :=
  (((a.add (.marker false lead)).add (.marker true lead)).link s a.size).link s (a.size + 1)

theorem addLeadIn_succ (full : CodePointSet) (s lead : Nat) (l : LeadIn) :
    ∃ l' : LeadIn, addLeadIn full s (lead + 1) l = addLeadIn full s lead l' ∧
      l'.arena = ((withMarkers l.arena s (lead + 1)).add (.chars full none)).link s
        (withMarkers l.arena s (lead + 1)).size ∧
      l'.unanchored = l.arena.size :: l.unanchored ∧
      l'.anchored = (l.arena.size + 1) :: l.anchored ∧
      l'.classes = (withMarkers l.arena s (lead + 1)).size :: l.classes := by
  refine ⟨{
    arena := ((withMarkers l.arena s (lead + 1)).add (.chars full none)).link s
      (withMarkers l.arena s (lead + 1)).size
    unanchored := l.arena.size :: l.unanchored
    anchored := (l.arena.size + 1) :: l.anchored
    classes := (withMarkers l.arena s (lead + 1)).size :: l.classes }, ?_, rfl, rfl, rfl, rfl⟩
  rw [addLeadIn]
  rfl

theorem extended_withMarkers {s lead : Nat} {kinds : List NodeKind} (h : Extended a s kinds b)
    (hs : s < a.size) :
    Extended a s (kinds ++ [.marker false lead, .marker true lead]) (b.withMarkers s lead) := by
  have hsb : s < b.size := Nat.lt_of_lt_of_le hs (h.size ▸ Nat.le_add_right _ _)
  have htwo := (h.add hs (.marker false lead)).add hs (.marker true lead)
  have hsize : ((b.add (.marker false lead)).link s b.size).size = b.size + 1 := by simp
  rw [List.append_assoc, ← link_add (by simp; omega) (by simp), hsize] at htwo
  exact htwo

theorem extended_addLeadIn (full : CodePointSet) (lead : Nat) {s : Nat} {kinds : List NodeKind}
    {l : LeadIn} (h : Extended a s kinds l.arena) (hs : s < a.size) :
    Extended a s (kinds ++ leadKinds full lead) (addLeadIn full s lead l).arena ∧
      (addLeadIn full s lead l).unanchored =
        (List.range (lead + 1)).map (fun i ↦ l.arena.size + 3 * (lead - i)) ++ l.unanchored ∧
      (addLeadIn full s lead l).anchored =
        (List.range (lead + 1)).map (fun i ↦ l.arena.size + 1 + 3 * (lead - i)) ++ l.anchored := by
  induction lead generalizing kinds l with
  | zero => exact ⟨extended_withMarkers h hs, rfl, rfl⟩
  | succ lead ih =>
    have hsize : (l.arena.withMarkers s (lead + 1)).size = l.arena.size + 2 := by
      simp [withMarkers]
    have hfirst := (@extended_withMarkers _ _ _ (lead + 1) _ h hs).add hs (.chars full none)
    obtain ⟨l', hl', harena, hun, han, -⟩ := addLeadIn_succ full s lead l
    rw [← harena] at hfirst
    have hsize' : l'.arena.size = l.arena.size + 3 := by
      rw [harena, size_link, size_add, hsize]
    obtain ⟨hrest, hunanchored, hanchored⟩ := ih hfirst
    rw [hl']
    have hmap : ∀ c, (List.range (lead + 1)).map (fun i ↦ c + 3 * (lead + 1 - i)) =
        (List.range (lead + 1)).map fun i ↦ c + 3 + 3 * (lead - i) := by
      refine fun c ↦ List.map_congr_left fun i hi ↦ ?_
      have := List.mem_range.1 hi
      omega
    rw [List.range_succ (n := lead + 1), List.map_append, List.map_append, List.append_assoc,
      List.append_assoc, hunanchored, hanchored, hun, han, hsize', hmap, hmap]
    exact ⟨by simpa [leadKinds] using hrest, by simp, by simp [Nat.add_right_comm]⟩

/-! ## The wrapped root -/

/-- The lead-in in front of the place where the root will be. -/
def leadIn (a : Arena) (full : CodePointSet) (lead : Nat) : LeadIn :=
  addLeadIn full (a.size + 2) lead {
    arena := (((a.add .matchFound).add (.group {})).add .sequence).link (a.size + 1) (a.size + 2) }

/-- The arena with a wrapped root. -/
def wrap (a : Arena) (full : CodePointSet) (root lead : Nat) : Arena :=
  ((a.leadIn full lead).arena.link (a.size + 2) root).link (a.size + 2) a.size

/-- `b` is `a` with a wrapped root. -/
structure Wrapped (a : Arena) (full : CodePointSet) (root lead : Nat) (b : Arena) : Prop where
  size : b.size = a.size + 3 + (3 * lead + 2)
  old : ∀ x < a.size, x ≠ root → b.node x = a.node x
  rootNode : b.node root =
    { a.node root with parent := some (a.size + 2), index := 3 * lead + 2 }
  matchFound : b.node a.size =
    { kind := .matchFound, parent := some (a.size + 2), index := 3 * lead + 3 }
  top : b.node (a.size + 1) = { kind := .group {}, children := #[a.size + 2] }
  sequence : b.node (a.size + 2) = {
    kind := .sequence
    parent := some (a.size + 1)
    children := (List.range' (a.size + 3) (3 * lead + 2) ++ [root, a.size]).toArray }
  leadNode : ∀ i k, (leadKinds full lead)[i]? = some k → b.node (a.size + 3 + i) =
    { kind := k, parent := some (a.size + 2), index := i }

/-- The arena with the nodes around the root: the place where a match is found, and the group and
the sequence at the top. -/
def withTop (a : Arena) : Arena :=
  (((a.add .matchFound).add (.group {})).add .sequence).link (a.size + 1) (a.size + 2)

@[simp] theorem size_withTop : a.withTop.size = a.size + 3 := by simp [withTop]

theorem node_withTop (x : Nat) : a.withTop.node x =
    if x = a.size + 2 then { kind := .sequence, parent := some (a.size + 1) }
    else if x = a.size + 1 then { kind := .group {}, children := #[a.size + 2] }
    else if x = a.size then { kind := .matchFound } else a.node x := by
  rw [withTop, node_link (by simp) (by simp)]
  simp only [node_add, size_add]
  by_cases hx : x = a.size + 2
  · simp [hx]
  · by_cases hx' : x = a.size + 1
    · simp [hx']
    · simp [hx, hx']

/-- The lead-in extends the sequence at the top, and knows where its markers are. -/
theorem extended_leadIn (full : CodePointSet) (lead : Nat) :
    Extended a.withTop (a.size + 2) (leadKinds full lead) (a.leadIn full lead).arena ∧
      (a.leadIn full lead).unanchored =
        (List.range (lead + 1)).map (fun i ↦ a.size + 3 + 3 * (lead - i)) ∧
      (a.leadIn full lead).anchored =
        (List.range (lead + 1)).map (fun i ↦ a.size + 4 + 3 * (lead - i)) := by
  obtain ⟨hlead, hun, han⟩ := extended_addLeadIn full lead (l := { arena := a.withTop })
    (.refl a.withTop (a.size + 2)) (by simp)
  rw [List.nil_append] at hlead
  rw [List.append_nil, size_withTop] at hun han
  exact ⟨hlead, hun, han⟩

theorem size_leadIn (full : CodePointSet) (lead : Nat) :
    (a.leadIn full lead).arena.size = a.size + 3 + (3 * lead + 2) := by
  rw [(extended_leadIn full lead).1.size, size_withTop, length_leadKinds]

theorem sequence_leadIn (full : CodePointSet) (lead : Nat) :
    (a.leadIn full lead).arena.node (a.size + 2) = {
      kind := .sequence
      parent := some (a.size + 1)
      children := (List.range' (a.size + 3) (3 * lead + 2)).toArray } := by
  rw [(extended_leadIn full lead).1.sequence, node_withTop, if_pos rfl, size_withTop,
    length_leadKinds]
  rfl

theorem node_wrap {full : CodePointSet} {root lead : Nat} (hroot : root < a.size) (x : Nat) :
    (a.wrap full root lead).node x =
      { (a.leadIn full lead).arena.node x with
        parent := if x = a.size ∨ x = root then some (a.size + 2)
          else ((a.leadIn full lead).arena.node x).parent
        index := if x = a.size then 3 * lead + 3 else if x = root then 3 * lead + 2
          else ((a.leadIn full lead).arena.node x).index
        children := if x = a.size + 2 then
            (List.range' (a.size + 3) (3 * lead + 2) ++ [root, a.size]).toArray
          else ((a.leadIn full lead).arena.node x).children } := by
  have hsize := size_leadIn (a := a) full lead
  rw [wrap, node_link (by simp; omega) (by simp; omega), node_link (by omega) (by omega),
    node_link (by omega) (by omega), sequence_leadIn]
  by_cases hx : x = a.size + 2
  · have hpush : ((List.range' (a.size + 3) (3 * lead + 2)).toArray.push root).push a.size =
        (List.range' (a.size + 3) (3 * lead + 2) ++ [root, a.size]).toArray := by
      rw [List.push_toArray, List.push_toArray, List.append_assoc]
      rfl
    have hne : a.size + 2 ≠ root := by omega
    have hne' : a.size + 2 ≠ a.size := by omega
    simp only [hx, sequence_leadIn, hpush, hne, hne', if_true, if_false, or_self]
  · by_cases hxa : x = a.size
    · simp [hxa]
    · by_cases hxr : x = root
      · simp [hxr, show root ≠ a.size by omega, show root ≠ a.size + 2 by omega]
      · simp [hx, hxa, hxr]

theorem wrapped_wrap {full : CodePointSet} {root lead : Nat} (hroot : root < a.size) :
    Wrapped a full root lead (a.wrap full root lead) := by
  have hlead := (extended_leadIn (a := a) full lead).1
  have hold : ∀ x, x < a.size + 3 → x ≠ a.size + 2 →
      (a.leadIn full lead).arena.node x = a.withTop.node x := fun x hx hne ↦
    hlead.old x (by rwa [size_withTop]) hne
  refine ⟨?_, fun x hx hne ↦ ?_, ?_, ?_, ?_, ?_, fun i k hi ↦ ?_⟩
  · rw [wrap, size_link, size_link, size_leadIn]
  · rw [node_wrap hroot, hold x (by omega) (by omega), node_withTop]
    simp [hne, show x ≠ a.size + 2 by omega, show x ≠ a.size + 1 by omega, Nat.ne_of_lt hx]
  · rw [node_wrap hroot, hold root (by omega) (by omega), node_withTop]
    simp [show root ≠ a.size + 2 by omega, show root ≠ a.size + 1 by omega, Nat.ne_of_lt hroot]
  · rw [node_wrap hroot, hold a.size (by omega) (by omega), node_withTop]
    simp
  · rw [node_wrap hroot, hold (a.size + 1) (by omega) (by omega), node_withTop]
    simp [show a.size + 1 ≠ root by omega]
  · rw [node_wrap hroot, sequence_leadIn]
    simp [show a.size + 2 ≠ root by omega]
  · have hlt : i < 3 * lead + 2 := by
      have := (List.getElem?_eq_some_iff.1 hi).1
      rwa [length_leadKinds] at this
    have hnew := hlead.new i k hi
    rw [size_withTop, node_withTop, if_pos rfl] at hnew
    rw [node_wrap hroot, hnew]
    simp [show a.size + 3 + i ≠ a.size by omega, show a.size + 3 + i ≠ root by omega,
      show a.size + 3 + i ≠ a.size + 2 by omega]

end Arena

end PatternAutomata
