import Mathlib.Data.List.GetD
import Mathlib.Data.List.Pairwise
import PatternAutomata.Proofs.CodePoint.Members
import PatternAutomata.Step.Partition

/-!
# Branches are exact

Whatever order successors come in, and however their classes overlap: the branches that are made of
them have no character in common, and a character that is in a branch leads on by just the
successors that are listed with it, which are those whose classes have the character, in order of
priority. Every way to find a match has a branch of its own.
-/

namespace PatternAutomata

namespace Branch

/-- Characters of a branch are read, unless it finds a match. -/
def Reads (b : Branch) (c : CodePoint) : Prop := b.isFinal = false ∧ c ∈ b.on

/-- The branches that read characters have none in common. -/
structure Separate (branches : List Branch) : Prop where
  canonical : ∀ b ∈ branches, b.isFinal = false → b.on.Canonical
  disjoint : branches.Pairwise fun a b ↦ ∀ c, a.Reads c → ¬b.Reads c

variable {index : Nat} {rest : CodePointSet} {branches : List Branch} {b : Branch}

theorem Separate.of_cons (h : Separate (b :: branches)) :
    (b.isFinal = false → b.on.Canonical) ∧ (∀ c, b.Reads c → ∀ a ∈ branches, ¬a.Reads c) ∧
      Separate branches := by
  obtain ⟨hcanonical, hdisjoint⟩ := h
  obtain ⟨hb, hbranches⟩ := List.forall_mem_cons.1 hcanonical
  obtain ⟨hfirst, hlater⟩ := List.pairwise_cons.1 hdisjoint
  exact ⟨hb, fun c hc a ha ↦ hfirst a ha c hc, hbranches, hlater⟩

theorem Separate.eq_of_reads (h : Separate branches) {a : Branch} {c : CodePoint}
    (ha : a ∈ branches) (hb : b ∈ branches) (hac : a.Reads c) (hbc : b.Reads c) : a = b := by
  have : Std.Symm fun x y : Branch ↦ ∀ c, x.Reads c → ¬y.Reads c :=
    ⟨fun x y hxy c hy hx ↦ hxy c hx hy⟩
  by_contra hne
  exact h.disjoint.forall ha hb hne c hac hbc

/-- What spreading a set makes of some branches. -/
structure Spreads (index : Nat) (rest : CodePointSet) (branches result : List Branch) : Prop where
  separate : Separate result
  /-- A character leads on in one more way if it is in the set. -/
  old : ∀ {b c}, b ∈ result → b.Reads c →
    (∃ a ∈ branches, a.Reads c ∧ (c ∈ rest ∧ b.contributors = a.contributors.push index ∨
      c ∉ rest ∧ b.contributors = a.contributors)) ∨
    (∀ a ∈ branches, ¬a.Reads c) ∧ c ∈ rest ∧ b.contributors = #[index]
  /-- All characters have branches. -/
  covers : ∀ {c}, (∃ a ∈ branches, a.Reads c) ∨ c ∈ rest → ∃ b ∈ result, b.Reads c
  /-- The other branches are left as they are. -/
  final : ∀ {b}, b.isFinal = true → (b ∈ result ↔ b ∈ branches)

/-- What one branch is split into, and what of the set is left for the others. -/
structure Splits (index : Nat) (rest : CodePointSet) (b : Branch) (parts : List Branch)
    (left : CodePointSet) : Prop where
  separate : Separate parts
  old : ∀ {p c}, p ∈ parts → p.Reads c →
    b.Reads c ∧ (c ∈ rest ∧ p.contributors = b.contributors.push index ∨
      c ∉ rest ∧ p.contributors = b.contributors)
  covers : ∀ {c}, b.Reads c → ∃ p ∈ parts, p.Reads c
  final : ∀ {p}, p.isFinal = true → (p ∈ parts ↔ p = b)
  canonical : left.Canonical
  mem_left : ∀ {c}, c ∈ left ↔ c ∈ rest ∧ ¬b.Reads c

theorem Splits.spreads {parts : List Branch} {left : CodePointSet} {result : List Branch}
    (h : Separate (b :: branches)) (hb : Splits index rest b parts left)
    (hresult : Spreads index left branches result) :
    Spreads index rest (b :: branches) (parts ++ result) := by
  obtain ⟨-, hfirst, -⟩ := h.of_cons
  refine ⟨⟨fun p hp hfinal ↦ ?_, ?_⟩, fun {p c} hp hc ↦ ?_, fun {c} hc ↦ ?_, fun {p} hp ↦ ?_⟩
  · rcases List.mem_append.1 hp with hp | hp
    · exact hb.separate.canonical p hp hfinal
    · exact hresult.separate.canonical p hp hfinal
  · refine List.pairwise_append.2 ⟨hb.separate.disjoint, hresult.separate.disjoint,
      fun p hp q hq c hpc hqc ↦ ?_⟩
    have hbc := (hb.old hp hpc).1
    rcases hresult.old hq hqc with ⟨a, ha, hac, -⟩ | ⟨-, hleft, -⟩
    · exact hfirst c hbc a ha hac
    · exact (hb.mem_left.1 hleft).2 hbc
  · rcases List.mem_append.1 hp with hp | hp
    · obtain ⟨hbc, hcontributors⟩ := hb.old hp hc
      exact .inl ⟨b, List.mem_cons_self, hbc, hcontributors⟩
    · rcases hresult.old hp hc with ⟨a, ha, hac, hcontributors⟩ | ⟨hnone, hleft, hindex⟩
      · have hbc : ¬b.Reads c := fun hbc ↦ hfirst c hbc a ha hac
        rw [hb.mem_left, and_iff_left hbc] at hcontributors
        exact .inl ⟨a, List.mem_cons_of_mem _ ha, hac, hcontributors⟩
      · obtain ⟨hrest, hbc⟩ := hb.mem_left.1 hleft
        exact .inr ⟨List.forall_mem_cons.2 ⟨hbc, hnone⟩, hrest, hindex⟩
  · by_cases hbc : b.Reads c
    · obtain ⟨p, hp, hpc⟩ := hb.covers hbc
      exact ⟨p, List.mem_append_left _ hp, hpc⟩
    · have hc : (∃ a ∈ branches, a.Reads c) ∨ c ∈ left := by
        rcases hc with ⟨a, ha, hac⟩ | hc
        · rcases List.mem_cons.1 ha with rfl | ha
          · exact absurd hac hbc
          · exact .inl ⟨a, ha, hac⟩
        · exact .inr (hb.mem_left.2 ⟨hc, hbc⟩)
      obtain ⟨p, hp, hpc⟩ := hresult.covers hc
      exact ⟨p, List.mem_append_right _ hp, hpc⟩
  · rw [List.mem_append, List.mem_cons, hb.final hp, hresult.final hp]

theorem splits_whole (hb : b.isFinal = false → b.on.Canonical) (hrest : rest.Canonical)
    (h : b.isFinal = true ∨ b.on.intersects rest = false) : Splits index rest b [b] rest := by
  have hout : ∀ {c}, b.Reads c → c ∉ rest := by
    rintro c ⟨hfinal, hc⟩
    rcases h with h | h
    · rw [h] at hfinal
      cases hfinal
    · exact CodePointSet.not_mem_of_not_intersects (hb hfinal) hrest h hc
  refine ⟨⟨fun p hp ↦ ?_, List.pairwise_singleton _ _⟩, fun {p c} hp hc ↦ ?_,
    fun {c} hc ↦ ⟨b, List.mem_singleton_self b, hc⟩, fun {p} _ ↦ List.mem_singleton, hrest,
    fun {c} ↦ ⟨fun hc ↦ ⟨hc, fun hbc ↦ hout hbc hc⟩, And.left⟩⟩
  · exact List.mem_singleton.1 hp ▸ hb
  · obtain rfl := List.mem_singleton.1 hp
    exact ⟨hc, .inr ⟨hout hc, rfl⟩⟩

theorem mem_subtract_common (hfinal : b.isFinal = false) (hb : b.on.Canonical)
    (hrest : rest.Canonical) : (rest.subtract (b.on.intersect rest)).Canonical ∧
      ∀ {c}, c ∈ rest.subtract (b.on.intersect rest) ↔ c ∈ rest ∧ ¬b.Reads c := by
  have hcommon := hb.intersect hrest
  refine ⟨hrest.subtract hcommon, fun {c} ↦ ?_⟩
  rw [CodePointSet.mem_subtract hrest hcommon, CodePointSet.mem_intersect hb hrest, Reads]
  simp only [hfinal, true_and]
  tauto

theorem splits_covered (hfinal : b.isFinal = false) (hb : b.on.Canonical) (hrest : rest.Canonical)
    (h : b.on.intersect rest = b.on) :
    Splits index rest b [{ b with contributors := b.contributors.push index }]
      (rest.subtract (b.on.intersect rest)) := by
  obtain ⟨hcanonical, hmem⟩ := mem_subtract_common hfinal hb hrest
  refine ⟨⟨fun p hp _ ↦ ?_, List.pairwise_singleton _ _⟩, fun {p c} hp hc ↦ ?_,
    fun {c} hc ↦ ⟨_, List.mem_singleton_self _, hc⟩, fun {p} hp ↦ ?_, hcanonical, hmem⟩
  · exact List.mem_singleton.1 hp ▸ hb
  · obtain rfl := List.mem_singleton.1 hp
    have hc : b.Reads c := hc
    have hcommon : c ∈ b.on.intersect rest := by rw [h]; exact hc.2
    exact ⟨hc, .inl ⟨((CodePointSet.mem_intersect hb hrest).1 hcommon).2, rfl⟩⟩
  · constructor
    · intro hmem
      rw [List.mem_singleton.1 hmem, hfinal] at hp
      cases hp
    · rintro rfl
      rw [hfinal] at hp
      cases hp

theorem splits_cut (hfinal : b.isFinal = false) (hb : b.on.Canonical) (hrest : rest.Canonical) :
    Splits index rest b
      [{ b with on := b.on.subtract (b.on.intersect rest) },
        { on := b.on.intersect rest, contributors := b.contributors.push index }]
      (rest.subtract (b.on.intersect rest)) := by
  obtain ⟨hcanonical, hmem⟩ := mem_subtract_common hfinal hb hrest
  have hcommon := hb.intersect hrest
  have hin : ∀ {c}, c ∈ b.on.intersect rest ↔ c ∈ b.on ∧ c ∈ rest :=
    CodePointSet.mem_intersect hb hrest
  have hout : ∀ {c}, c ∈ b.on.subtract (b.on.intersect rest) ↔ c ∈ b.on ∧ c ∉ rest := by
    intro c
    rw [CodePointSet.mem_subtract hb hcommon, hin]
    tauto
  have hpair : ∀ {p x y : Branch}, p ∈ [x, y] ↔ p = x ∨ p = y := by simp
  refine ⟨⟨fun p hp _ ↦ ?_, ?_⟩, fun {p c} hp hc ↦ ?_, fun {c} hc ↦ ?_, fun {p} hp ↦ ?_,
    hcanonical, hmem⟩
  · rcases hpair.1 hp with rfl | rfl
    · exact hb.subtract hcommon
    · exact hcommon
  · rw [List.pairwise_pair]
    exact fun c hc hc' ↦ (hout.1 hc.2).2 (hin.1 hc'.2).2
  · rcases hpair.1 hp with rfl | rfl
    · obtain ⟨hbc, hc⟩ := hout.1 hc.2
      exact ⟨⟨hfinal, hbc⟩, .inr ⟨hc, rfl⟩⟩
    · obtain ⟨hbc, hc⟩ := hin.1 hc.2
      exact ⟨⟨hfinal, hbc⟩, .inl ⟨hc, rfl⟩⟩
  · by_cases hcr : c ∈ rest
    · exact ⟨_, hpair.2 (.inr rfl), rfl, hin.2 ⟨hc.2, hcr⟩⟩
    · exact ⟨_, hpair.2 (.inl rfl), hc.1, hout.2 ⟨hc.2, hcr⟩⟩
  · constructor
    · intro hmem
      rcases hpair.1 hmem with rfl | rfl
      · rw [hfinal] at hp
        cases hp
      · cases hp
    · rintro rfl
      rw [hfinal] at hp
      cases hp

/-- **Spreading a set over branches is exact.** -/
theorem spreads_spread (h : Separate branches) (hrest : rest.Canonical) :
    Spreads index rest branches (spread index rest branches) := by
  have hempty : ∀ {rest : CodePointSet} {branches : List Branch}, Separate branches →
      rest.isEmpty = true → Spreads index rest branches branches := by
    refine fun h hrest ↦ ⟨h, fun {b c} hb hc ↦ .inl ⟨b, hb, hc, .inr ⟨?_, rfl⟩⟩,
      fun {c} hc ↦ hc.resolve_right ?_, fun _ ↦ Iff.rfl⟩ <;>
    exact CodePointSet.not_mem_of_isEmpty hrest
  induction branches generalizing rest with
  | nil =>
    rw [spread]
    split
    · next hrest => exact hempty h hrest
    · refine ⟨⟨fun b hb _ ↦ List.mem_singleton.1 hb ▸ hrest, List.pairwise_singleton _ _⟩,
        fun {b c} hb hc ↦ .inr ⟨nofun, ?_⟩, fun {c} hc ↦ ?_, fun {b} hb ↦ ?_⟩
      · obtain rfl := List.mem_singleton.1 hb
        exact ⟨hc.2, rfl⟩
      · rcases hc with ⟨a, ha, -⟩ | hc
        · cases ha
        · exact ⟨_, List.mem_singleton_self _, rfl, hc⟩
      · refine iff_of_false (fun hmem ↦ ?_) List.not_mem_nil
        rw [List.mem_singleton.1 hmem] at hb
        cases hb
  | cons b branches ih =>
    obtain ⟨hb, -, hbranches⟩ := h.of_cons
    rw [spread]
    split
    · next hrest => exact hempty h hrest
    · split
      · next hout =>
        rw [Bool.or_eq_true, Bool.not_eq_true'] at hout
        exact (splits_whole hb hrest hout).spreads h (ih hbranches hrest)
      · next hin =>
        rw [Bool.or_eq_true, not_or] at hin
        have hfinal := Bool.eq_false_iff.2 hin.1
        have hleft := (mem_subtract_common hfinal (hb hfinal) hrest).1
        dsimp only
        split
        · next heq =>
          exact (splits_covered hfinal (hb hfinal) hrest heq).spreads h (ih hbranches hleft)
        · exact (splits_cut hfinal (hb hfinal) hrest).spreads h (ih hbranches hleft)

/-- What a branch lists that reads is the new successor, or it has been listed before with a branch
that reads. -/
theorem of_mem_spread {i : Nat} (hb : b ∈ spread index rest branches) (hfinal : b.isFinal = false)
    (hi : i ∈ b.contributors) :
    i = index ∨ ∃ a ∈ branches, a.isFinal = false ∧ i ∈ a.contributors := by
  induction branches generalizing rest with
  | nil =>
    rw [spread] at hb
    split at hb
    · cases hb
    · obtain rfl := List.mem_singleton.1 hb
      exact .inl (Array.mem_singleton.1 hi)
  | cons a branches ih =>
    have hlater : ∀ {rest : CodePointSet}, b ∈ spread index rest branches →
        i = index ∨ ∃ a' ∈ a :: branches, a'.isFinal = false ∧ i ∈ a'.contributors := fun hb ↦
      (ih hb).imp_right fun ⟨a', hmem, ha'⟩ ↦ ⟨a', List.mem_cons_of_mem _ hmem, ha'⟩
    have hpush : a.isFinal = false → i ∈ a.contributors.push index →
        i = index ∨ ∃ a' ∈ a :: branches, a'.isFinal = false ∧ i ∈ a'.contributors := fun ha hi ↦
      (Array.mem_push.1 hi).symm.imp_right fun hi ↦ ⟨a, List.mem_cons_self, ha, hi⟩
    rw [spread] at hb
    split at hb
    · exact .inr ⟨b, hb, hfinal, hi⟩
    · split at hb
      · rcases List.mem_cons.1 hb with rfl | hb
        · exact .inr ⟨b, List.mem_cons_self, hfinal, hi⟩
        · exact hlater hb
      · next hin =>
        rw [Bool.or_eq_true, not_or] at hin
        have ha := Bool.eq_false_iff.2 hin.1
        dsimp only at hb
        split at hb
        · rcases List.mem_cons.1 hb with rfl | hb
          · exact hpush ha hi
          · exact hlater hb
        · rcases List.mem_cons.1 hb with rfl | hb
          · exact .inr ⟨a, List.mem_cons_self, ha, hi⟩
          · rcases List.mem_cons.1 hb with rfl | hb
            · exact hpush ha hi
            · exact hlater hb

end Branch

/-! ## The branches of successors -/

namespace Successor

/-- The characters that a successor leads on by. -/
def chars (s : Successor) (t : Tree) : CodePointSet :=
  ((t.node s.target).kind.chars?).getD .empty

def reads (s : Successor) (t : Tree) (c : CodePoint) : Bool :=
  !s.isFinal t && decide (c ∈ s.chars t)

/-- The places of the successors that pass a test. -/
def places (p : Successor → Bool) (successors : List Successor) : List Nat :=
  (List.range successors.length).filter fun i ↦ p (successors.getD i default)

theorem places_concat {p : Successor → Bool} {successors : List Successor} {s : Successor} :
    places p (successors ++ [s]) =
      places p successors ++ if p s = true then [successors.length] else [] := by
  have hold : ∀ i ∈ List.range successors.length,
      p ((successors ++ [s]).getD i default) = p (successors.getD i default) := by
    intro i hi
    rw [List.getD_append _ _ _ _ (List.mem_range.1 hi)]
  have hlast : (successors ++ [s]).getD successors.length default = s := by simp
  rw [places, List.length_append, List.length_singleton, List.range_succ, List.filter_append,
    List.filter_congr hold, places]
  congr 1
  rw [List.filter_cons, hlast, List.filter_nil]

theorem mem_places {p : Successor → Bool} {successors : List Successor} {i : Nat} :
    i ∈ places p successors ↔ ∃ s, successors[i]? = some s ∧ p s = true := by
  rw [places, List.mem_filter, List.mem_range]
  constructor
  · rintro ⟨hi, hp⟩
    rw [List.getD_eq_getElem _ _ hi] at hp
    exact ⟨_, List.getElem?_eq_getElem hi, hp⟩
  · rintro ⟨s, hs, hp⟩
    obtain ⟨hi, rfl⟩ := List.getElem?_eq_some_iff.1 hs
    rw [List.getD_eq_getElem _ _ hi]
    exact ⟨hi, hp⟩

theorem pairwise_places {p : Successor → Bool} {successors : List Successor} :
    (places p successors).Pairwise (· < ·) :=
  List.pairwise_lt_range.filter _

/-- The places of the successors that read a character. -/
def readers (t : Tree) (successors : List Successor) (c : CodePoint) : List Nat :=
  (List.range successors.length).filter fun i ↦ (successors.getD i default).reads t c

theorem readers_concat {t : Tree} {successors : List Successor} {s : Successor} {c : CodePoint} :
    readers t (successors ++ [s]) c =
      readers t successors c ++ if s.reads t c = true then [successors.length] else [] :=
  places_concat (p := fun s ↦ s.reads t c)

theorem mem_readers {t : Tree} {successors : List Successor} {c : CodePoint} {i : Nat} :
    i ∈ readers t successors c ↔ ∃ s, successors[i]? = some s ∧ s.reads t c = true :=
  mem_places (p := fun s ↦ s.reads t c)

end Successor

namespace Branch

variable {t : Tree}

/-- The branch of a successor that finds a match. -/
def ofFinal (t : Tree) (index : Nat) : Branch :=
  { on := t.encoding.fullSet, contributors := #[index], isFinal := true }

structure Sorts (t : Tree) (successors : List Successor) (branches : List Branch) : Prop where
  separate : Separate branches
  contributors : ∀ {b c}, b ∈ branches → b.Reads c →
    b.contributors.toList = Successor.readers t successors c
  covers : ∀ {c}, Successor.readers t successors c ≠ [] → ∃ b ∈ branches, b.Reads c
  final : ∀ {b}, b.isFinal = true → (b ∈ branches ↔
    ∃ i s, successors[i]? = some s ∧ s.isFinal t = true ∧ b = ofFinal t i)
  reading : ∀ {b i}, b ∈ branches → b.isFinal = false → i ∈ b.contributors →
    ∃ s, successors[i]? = some s ∧ s.isFinal t = false

variable {successors : List Successor} {branches : List Branch} {s : Successor}

theorem Sorts.empty : Sorts t [] [] where
  separate := ⟨nofun, .nil⟩
  contributors := nofun
  covers hc := absurd rfl hc
  final _ := iff_of_false List.not_mem_nil (by simp)
  reading := nofun

theorem Sorts.reading_concat (h : Sorts t successors branches) {i : Nat} (hb : b ∈ branches)
    (hfinal : b.isFinal = false) (hi : i ∈ b.contributors) :
    ∃ s', (successors ++ [s])[i]? = some s' ∧ s'.isFinal t = false := by
  obtain ⟨s', hs', hfinal'⟩ := h.reading hb hfinal hi
  have hlt := (List.getElem?_eq_some_iff.1 hs').1
  exact ⟨s', by rw [List.getElem?_append_left hlt, hs'], hfinal'⟩

theorem exists_final_concat : (∃ i s', (successors ++ [s])[i]? = some s' ∧ s'.isFinal t = true ∧
      b = ofFinal t i) ↔
    (∃ i s', successors[i]? = some s' ∧ s'.isFinal t = true ∧ b = ofFinal t i) ∨
      s.isFinal t = true ∧ b = ofFinal t successors.length := by
  constructor
  · rintro ⟨i, s', hs', hfinal, rfl⟩
    by_cases hi : i < successors.length
    · rw [List.getElem?_append_left hi] at hs'
      exact .inl ⟨i, s', hs', hfinal, rfl⟩
    · have hlt := (List.getElem?_eq_some_iff.1 hs').1
      rw [List.length_append, List.length_singleton] at hlt
      obtain rfl : i = successors.length := by omega
      rw [List.getElem?_concat_length] at hs'
      exact .inr ⟨Option.some.inj hs' ▸ hfinal, rfl⟩
  · rintro (⟨i, s', hs', hfinal, rfl⟩ | ⟨hfinal, rfl⟩)
    · have hi := (List.getElem?_eq_some_iff.1 hs').1
      exact ⟨i, s', by rw [List.getElem?_append_left hi, hs'], hfinal, rfl⟩
    · exact ⟨_, s, List.getElem?_concat_length, hfinal, rfl⟩

theorem Sorts.add_final (h : Sorts t successors branches) (hs : s.isFinal t = true) :
    Sorts t (successors ++ [s]) (branches ++ [ofFinal t successors.length]) := by
  have hreaders : ∀ c, Successor.readers t (successors ++ [s]) c =
      Successor.readers t successors c := by
    intro c
    rw [Successor.readers_concat, Successor.reads, hs]
    simp
  have hmem : ∀ {b : Branch}, b ∈ branches ++ [ofFinal t successors.length] ↔
      b ∈ branches ∨ b = ofFinal t successors.length := by simp
  have hnot : ∀ c, ¬(ofFinal t successors.length).Reads c := fun c hc ↦ Bool.noConfusion hc.1
  constructor
  case separate =>
    refine ⟨fun b hb hfinal ↦ ?_, ?_⟩
    · rcases hmem.1 hb with hb | rfl
      · exact h.separate.canonical b hb hfinal
      · cases hfinal
    · refine List.pairwise_append.2 ⟨h.separate.disjoint, List.pairwise_singleton _ _,
        fun a _ b hb c _ hbc ↦ ?_⟩
      exact hnot c (List.mem_singleton.1 hb ▸ hbc)
  case contributors =>
    intro b c hb hc
    rw [hreaders]
    rcases hmem.1 hb with hb | rfl
    · exact h.contributors hb hc
    · exact absurd hc (hnot c)
  case covers =>
    intro c hc
    rw [hreaders] at hc
    obtain ⟨b, hb, hbc⟩ := h.covers hc
    exact ⟨b, hmem.2 (.inl hb), hbc⟩
  case final =>
    intro b hb
    rw [hmem, h.final hb, exists_final_concat, and_iff_right hs]
  case reading =>
    intro b i hb hfinal hi
    rcases hmem.1 hb with hb | rfl
    · exact h.reading_concat hb hfinal hi
    · cases hfinal

theorem Sorts.add_reads (h : Sorts t successors branches) (hs : s.isFinal t = false)
    (hchars : (s.chars t).Canonical) :
    Sorts t (successors ++ [s]) (spread successors.length (s.chars t) branches) := by
  have hspreads := @spreads_spread successors.length _ _ h.separate hchars
  have hreaders : ∀ c, Successor.readers t (successors ++ [s]) c =
      Successor.readers t successors c ++ if c ∈ s.chars t then [successors.length] else [] := by
    intro c
    rw [Successor.readers_concat, Successor.reads, hs]
    simp
  constructor
  case separate => exact hspreads.separate
  case contributors =>
    intro b c hb hc
    rw [hreaders]
    -- a branch that the successor has been added to, one left as it was, or what is left of it
    rcases hspreads.old hb hc with ⟨a, ha, hac, ⟨hmem, hcontributors⟩ | ⟨hmem, hcontributors⟩⟩ |
      ⟨hnone, hmem, hcontributors⟩
    · rw [if_pos hmem, hcontributors, Array.toList_push, h.contributors ha hac]
    · rw [if_neg hmem, hcontributors, List.append_nil, h.contributors ha hac]
    · have hnil : Successor.readers t successors c = [] := by
        by_contra hne
        obtain ⟨a, ha, hac⟩ := h.covers hne
        exact hnone a ha hac
      rw [if_pos hmem, hcontributors, hnil]
      rfl
  case covers =>
    intro c hc
    refine hspreads.covers ?_
    rw [hreaders] at hc
    by_cases hmem : c ∈ s.chars t
    · exact .inr hmem
    · rw [if_neg hmem, List.append_nil] at hc
      exact .inl (h.covers hc)
  case final =>
    intro b hb
    rw [hspreads.final hb, h.final hb, exists_final_concat, hs]
    exact (or_iff_left fun hfound ↦ Bool.false_ne_true hfound.1).symm
  case reading =>
    intro b i hb hfinal hi
    rcases of_mem_spread hb hfinal hi with rfl | ⟨a, ha, hafinal, hia⟩
    · exact ⟨s, List.getElem?_concat_length, hs⟩
    · exact h.reading_concat ha hafinal hia

theorem Sorts.add (h : Sorts t successors branches)
    (hchars : s.isFinal t = false → (s.chars t).Canonical) :
    Sorts t (successors ++ [s]) (Branch.add t branches s successors.length) := by
  unfold Branch.add
  split
  · next hfinal => exact h.add_final hfinal
  · next hfinal =>
    have hreads := Bool.eq_false_iff.2 hfinal
    exact h.add_reads hreads (hchars hreads)

/-- What holds of no branches, and is kept as each successor is added, holds of all branches. -/
theorem foldl_add_induction {P : List Successor → List Branch → Prop} (l : List Successor)
    (h : P successors branches)
    (hadd : ∀ {before branches}, ∀ s ∈ l, P before branches →
      P (before ++ [s]) (Branch.add t branches s before.length)) :
    P (successors ++ l) (l.foldl (fun (branches, index) s ↦
      (Branch.add t branches s index, index + 1)) (branches, successors.length)).1 := by
  induction l generalizing successors branches with
  | nil => rwa [List.append_nil]
  | cons s l ih =>
    have hall := ih (hadd s List.mem_cons_self h) fun s hs ↦ hadd s (List.mem_cons_of_mem _ hs)
    rw [List.append_assoc, List.length_append] at hall
    exact hall

theorem isProgress_of_isFinal (hs : s.isFinal t = true) : s.isProgress t = false := by
  unfold Successor.isFinal Tree.isFinal at hs
  unfold Successor.isProgress Tree.lookBehindOf
  split at hs
  · next hkind => rw [hkind]; rfl
  · next hkind => rw [hkind]; rfl
  · next hkind => rw [hkind]; rfl
  · cases hs

theorem leadsOn_iff {successors : Array Successor} {b : Branch} : leadsOn t successors b = true ↔
    ∃ i ∈ b.contributors.toList, (successors.getD i default).isProgress t = false := by
  rw [leadsOn, ← Array.any_toList, List.any_eq_true]
  simp only [Bool.not_eq_true']

/-- What the branches of a step are. -/
structure Exact (t : Tree) (successors : Array Successor) (branches : List Branch) : Prop where
  separate : Separate branches
  /-- A branch lists the successors that read its characters. -/
  contributors : ∀ {b c}, b ∈ branches → b.Reads c →
    b.contributors.toList = Successor.readers t successors.toList c
  /-- A character has a branch if it leads on. -/
  reads_iff : ∀ {c}, (∃ b ∈ branches, b.Reads c) ↔
    ∃ s ∈ successors, s.reads t c = true ∧ s.isProgress t = false
  /-- Each way to find a match has a branch. -/
  final : ∀ {b}, b.isFinal = true → (b ∈ branches ↔
    ∃ i s, successors[i]? = some s ∧ s.isFinal t = true ∧ b = ofFinal t i)
  /-- The other branches lead on. -/
  leadsOn : ∀ {b}, b ∈ branches → b.isFinal = false → ∃ i ∈ b.contributors, ∃ s,
    successors[i]? = some s ∧ s.isFinal t = false ∧ s.isProgress t = false
  /-- They list successors that read. -/
  reading : ∀ {b i}, b ∈ branches → b.isFinal = false → i ∈ b.contributors →
    ∃ s, successors[i]? = some s ∧ s.isFinal t = false

/-- **The branches of a step are exact.** -/
theorem exact_ofSuccessors {successors : Array Successor}
    (hchars : ∀ s ∈ successors, s.isFinal t = false → (s.chars t).Canonical) :
    Exact t successors (ofSuccessors t successors) := by
  have hsorts := foldl_add_induction (t := t) (P := Sorts t) successors.toList .empty
    fun s hs h ↦ h.add (hchars s (Array.mem_toList_iff.1 hs))
  rw [List.nil_append, List.length_nil] at hsorts
  unfold ofSuccessors
  rw [← Array.foldl_toList]
  dsimp only
  generalize (successors.toList.foldl _ _ : List Branch × Nat).1 = branches at hsorts ⊢
  have hget : ∀ {i : Nat} {s : Successor}, successors[i]? = some s →
      successors.getD i default = s := by
    intro i s hs
    rw [Array.getD_eq_getD_getElem?, hs, Option.getD_some]
  constructor
  case separate =>
    exact ⟨fun b hb ↦ hsorts.separate.canonical b (List.mem_filter.1 hb).1,
      hsorts.separate.disjoint.filter _⟩
  case contributors => exact fun hb ↦ hsorts.contributors (List.mem_filter.1 hb).1
  case reads_iff =>
    intro c
    constructor
    · rintro ⟨b, hb, hc⟩
      obtain ⟨hb, hleads⟩ := List.mem_filter.1 hb
      obtain ⟨i, hi, hprogress⟩ := leadsOn_iff.1 hleads
      rw [hsorts.contributors hb hc, Successor.mem_readers] at hi
      obtain ⟨s, hs, hreads⟩ := hi
      rw [Array.getElem?_toList] at hs
      rw [hget hs] at hprogress
      exact ⟨s, Array.mem_of_getElem? hs, hreads, hprogress⟩
    · rintro ⟨s, hs, hreads, hprogress⟩
      obtain ⟨i, hi⟩ := Array.mem_iff_getElem?.1 hs
      have hmem : i ∈ Successor.readers t successors.toList c :=
        Successor.mem_readers.2 ⟨s, by rw [Array.getElem?_toList, hi], hreads⟩
      obtain ⟨b, hb, hc⟩ := hsorts.covers (List.ne_nil_of_mem hmem)
      refine ⟨b, List.mem_filter.2 ⟨hb, leadsOn_iff.2 ⟨i, ?_, ?_⟩⟩, hc⟩
      · rw [hsorts.contributors hb hc]
        exact hmem
      · rw [hget hi]
        exact hprogress
  case final =>
    intro b hfinal
    rw [List.mem_filter, hsorts.final hfinal]
    simp only [Array.getElem?_toList]
    constructor
    · exact And.left
    · rintro ⟨i, s, hs, hsfinal, rfl⟩
      refine ⟨⟨i, s, hs, hsfinal, rfl⟩, leadsOn_iff.2 ⟨i, List.mem_singleton_self i, ?_⟩⟩
      rw [hget hs]
      exact isProgress_of_isFinal hsfinal
  case leadsOn =>
    intro b hb hfinal
    obtain ⟨hb, hleads⟩ := List.mem_filter.1 hb
    obtain ⟨i, hi, hprogress⟩ := leadsOn_iff.1 hleads
    obtain ⟨s, hs, hread⟩ := hsorts.reading hb hfinal (Array.mem_toList_iff.1 hi)
    rw [Array.getElem?_toList] at hs
    rw [hget hs] at hprogress
    exact ⟨i, Array.mem_toList_iff.1 hi, s, hs, hread, hprogress⟩
  case reading =>
    intro b i hb hfinal hi
    obtain ⟨s, hs, hread⟩ := hsorts.reading (List.mem_filter.1 hb).1 hfinal hi
    rw [Array.getElem?_toList] at hs
    exact ⟨s, hs, hread⟩

/-! ## No branch is empty -/

/-- The branches that read have characters to read. -/
def Filled (branches : List Branch) : Prop :=
  ∀ b ∈ branches, b.isFinal = false → ∃ c, c ∈ b.on

/-- A set with no members is not spread, and of a branch neither part is empty when it is cut. -/
theorem Filled.spread {rest : CodePointSet} {index : Nat} (h : Filled branches)
    (hseparate : Separate branches) (hrest : rest.Canonical) :
    Filled (Branch.spread index rest branches) := by
  have hmember : ∀ {s : CodePointSet}, s.Canonical → ¬s.isEmpty = true → ∃ c, c ∈ s := by
    intro s hs hne
    by_contra hnone
    rw [hs.eq_empty_iff.2 fun c hc ↦ hnone ⟨c, hc⟩] at hne
    exact hne rfl
  induction branches generalizing rest with
  | nil =>
    rw [Branch.spread]
    split
    · exact h
    · next hne =>
      intro b hb _
      rw [List.mem_singleton.1 hb]
      exact hmember hrest hne
  | cons b branches ih =>
    obtain ⟨hb, hbranches⟩ := List.forall_mem_cons.1 h
    obtain ⟨hcanonical, -, hseparate⟩ := hseparate.of_cons
    rw [Branch.spread]
    split
    · exact h
    · split
      · exact List.forall_mem_cons.2 ⟨hb, ih hbranches hseparate hrest⟩
      · next hin =>
        rw [Bool.or_eq_true, not_or, Bool.not_eq_true', Bool.not_eq_false] at hin
        have hfinal := Bool.eq_false_iff.2 hin.1
        have hon := hcanonical hfinal
        have hlater := ih hbranches hseparate (mem_subtract_common hfinal hon hrest).1
        dsimp only
        split
        · exact List.forall_mem_cons.2 ⟨fun _ ↦ hb hfinal, hlater⟩
        · next hne =>
          obtain ⟨c, hc, hcrest⟩ := CodePointSet.exists_mem_of_intersect_ne hon hrest hne
          obtain ⟨d, hd, hdrest⟩ := (CodePointSet.intersects_iff hon hrest).1 hin.2
          have hcommon := hon.intersect hrest
          have houtside : c ∈ b.on.subtract (b.on.intersect rest) :=
            (CodePointSet.mem_subtract hon hcommon).2
              ⟨hc, fun hmem ↦ hcrest ((CodePointSet.mem_intersect hon hrest).1 hmem).2⟩
          have hinside : d ∈ b.on.intersect rest :=
            (CodePointSet.mem_intersect hon hrest).2 ⟨hd, hdrest⟩
          exact List.forall_mem_cons.2 ⟨fun _ ↦ ⟨c, houtside⟩,
            List.forall_mem_cons.2 ⟨fun _ ↦ ⟨d, hinside⟩, hlater⟩⟩

theorem Filled.add (h : Filled branches) (hsorts : Sorts t successors branches)
    (hchars : s.isFinal t = false → (s.chars t).Canonical) :
    Filled (Branch.add t branches s successors.length) := by
  unfold Branch.add
  split
  · refine List.forall_mem_append.2 ⟨h, fun b hb hfinal ↦ ?_⟩
    rw [List.mem_singleton.1 hb] at hfinal
    cases hfinal
  · next hfinal => exact h.spread hsorts.separate (hchars (Bool.eq_false_iff.2 hfinal))

/-- **No branch of a step is empty.** -/
theorem filled_ofSuccessors {successors : Array Successor}
    (hchars : ∀ s ∈ successors, s.isFinal t = false → (s.chars t).Canonical) :
    Filled (ofSuccessors t successors) := by
  have hall := foldl_add_induction (t := t) (P := fun before branches ↦
      Sorts t before branches ∧ Filled branches) successors.toList
    ⟨.empty, List.forall_mem_nil _⟩ fun s hs h ↦
      have hchars := hchars s (Array.mem_toList_iff.1 hs)
      ⟨h.1.add hchars, h.2.add h.1 hchars⟩
  unfold ofSuccessors
  rw [← Array.foldl_toList]
  exact fun b hb ↦ hall.2 b (List.mem_filter.1 hb).1

/-! ## Where branches lead -/

theorem mem_target {successors : Array Successor} {x : Nat} :
    x ∈ (target t successors b).members ↔
      ∃ i ∈ b.contributors, x ∈ markersOf t (successors.getD i default) := by
  rw [target, Tree.markers, MarkerSet.ofList, IndexSet.mem_ofList, List.mem_flatMap]
  simp only [Array.mem_toList_iff]

end Branch

end PatternAutomata
