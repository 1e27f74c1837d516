/-!
# Finite sets of indices

Markers, slots, loops and capture groups are all known by small numbers, and a set of them is
always listed in ascending order. A set is therefore its ascending list, and the order is part of
the type: two sets with the same members are the same set, which is what lets a set serve as a key.
-/

namespace PatternAutomata

/-- A finite set of indices, as its strictly ascending list. -/
structure IndexSet where
  /-- The members, in ascending order. -/
  toList : List Nat
  /-- No member is listed behind a greater or an equal one. -/
  ascending : toList.Pairwise (· < ·)
deriving DecidableEq

namespace IndexSet

instance : Membership Nat IndexSet where
  mem s i := i ∈ s.toList

@[simp] theorem mem_toList {s : IndexSet} {i : Nat} : i ∈ s.toList ↔ i ∈ s := Iff.rfl

instance : Hashable IndexSet where
  hash s := hash s.toList

def empty : IndexSet := ⟨[], .nil⟩

instance : EmptyCollection IndexSet := ⟨empty⟩

instance : Inhabited IndexSet := ⟨empty⟩

@[simp] theorem not_mem_empty (i : Nat) : i ∉ (∅ : IndexSet) := List.not_mem_nil

def single (i : Nat) : IndexSet := ⟨[i], List.pairwise_singleton _ _⟩

@[simp] theorem mem_single {i j : Nat} : j ∈ single i ↔ j = i := List.mem_singleton

/-! ## Questions -/

def isEmpty (s : IndexSet) : Bool := s.toList.isEmpty

def size (s : IndexSet) : Nat := s.toList.length

/-- Whether `i` is a member; the search stops at the first member that is not below `i`. -/
def contains (s : IndexSet) (i : Nat) : Bool := (s.toList.dropWhile (· < i)).head? == some i

theorem head?_dropWhile_lt {l : List Nat} (h : l.Pairwise (· < ·)) (i : Nat) :
    (l.dropWhile (· < i)).head? = some i ↔ i ∈ l := by
  induction h with
  | nil => simp
  | @cons a l ha _ ih =>
    by_cases hai : a < i
    · rw [List.dropWhile_cons_of_pos (by simpa using hai), ih, List.mem_cons]
      exact ⟨Or.inr, fun h ↦ h.resolve_left (Nat.ne_of_gt hai)⟩
    · rw [List.dropWhile_cons_of_neg (by simpa using hai), List.head?_cons, List.mem_cons,
        Option.some_inj, eq_comm]
      refine ⟨Or.inl, fun h ↦ h.resolve_right fun hi ↦ hai (ha i hi)⟩

@[simp] theorem contains_iff {s : IndexSet} {i : Nat} : s.contains i = true ↔ i ∈ s := by
  rw [contains, beq_iff_eq, head?_dropWhile_lt s.ascending, mem_toList]

instance (s : IndexSet) (i : Nat) : Decidable (i ∈ s) := decidable_of_iff _ contains_iff

/-- Whether two ascending lists have an element in common. -/
def listsMeet : List Nat → List Nat → Bool
  | [], _ => false
  | _, [] => false
  | a :: as, b :: bs =>
    if a < b then listsMeet as (b :: bs) else if b < a then listsMeet (a :: as) bs else true
termination_by as bs => as.length + bs.length

def isDisjoint (s t : IndexSet) : Bool := !listsMeet s.toList t.toList

theorem listsMeet_iff {as bs : List Nat} (ha : as.Pairwise (· < ·)) (hb : bs.Pairwise (· < ·)) :
    listsMeet as bs = true ↔ ∃ i ∈ as, i ∈ bs := by
  fun_induction listsMeet as bs with
  | case1 bs => simp
  | case2 as _ => simp
  | case3 a as b bs hlt ih =>
    -- the first element is below all of the other list
    have hout : a ∉ b :: bs := fun hmem ↦ by
      rcases List.mem_cons.1 hmem with rfl | hmem
      · exact Nat.lt_irrefl _ hlt
      · exact Nat.lt_asymm hlt (List.rel_of_pairwise_cons hb hmem)
    rw [ih (List.pairwise_cons.1 ha).2 hb]
    exact ⟨fun ⟨i, hi, hmem⟩ ↦ ⟨i, List.mem_cons_of_mem _ hi, hmem⟩, fun ⟨i, hi, hmem⟩ ↦
      ⟨i, (List.mem_cons.1 hi).resolve_left fun heq ↦ hout (heq ▸ hmem), hmem⟩⟩
  | case4 a as b bs _ hlt ih =>
    have hout : b ∉ a :: as := fun hmem ↦ by
      rcases List.mem_cons.1 hmem with rfl | hmem
      · exact Nat.lt_irrefl _ hlt
      · exact Nat.lt_asymm hlt (List.rel_of_pairwise_cons ha hmem)
    rw [ih ha (List.pairwise_cons.1 hb).2]
    exact ⟨fun ⟨i, hi, hmem⟩ ↦ ⟨i, hi, List.mem_cons_of_mem _ hmem⟩, fun ⟨i, hi, hmem⟩ ↦
      ⟨i, hi, (List.mem_cons.1 hmem).resolve_left fun heq ↦ hout (heq ▸ hi)⟩⟩
  | case5 a as b bs hab hba =>
    obtain rfl : a = b := Nat.le_antisymm (Nat.not_lt.1 hba) (Nat.not_lt.1 hab)
    exact iff_of_true rfl ⟨a, List.mem_cons_self, List.mem_cons_self⟩

theorem isDisjoint_eq_false_iff {s t : IndexSet} :
    s.isDisjoint t = false ↔ ∃ i ∈ s, i ∈ t := by
  rw [isDisjoint, Bool.not_eq_false', listsMeet_iff s.ascending t.ascending]
  rfl

/-! ## Changes -/

/-- Merges two ascending lists, listing common elements once. -/
def mergeLists : List Nat → List Nat → List Nat
  | [], bs => bs
  | as, [] => as
  | a :: as, b :: bs =>
    if a < b then a :: mergeLists as (b :: bs)
    else if b < a then b :: mergeLists (a :: as) bs
    else a :: mergeLists as bs
termination_by as bs => as.length + bs.length

theorem mem_mergeLists {i : Nat} {as bs : List Nat} :
    i ∈ mergeLists as bs ↔ i ∈ as ∨ i ∈ bs := by
  fun_induction mergeLists as bs with
  | case1 bs => simp
  | case2 as _ => simp
  | case3 a as b bs _ ih => simp only [List.mem_cons, ih]; grind
  | case4 a as b bs _ _ ih => simp only [List.mem_cons, ih]; grind
  | case5 a as b bs _ _ ih => simp only [List.mem_cons, ih]; grind

theorem pairwise_mergeLists {as bs : List Nat} (ha : as.Pairwise (· < ·))
    (hb : bs.Pairwise (· < ·)) : (mergeLists as bs).Pairwise (· < ·) := by
  fun_induction mergeLists as bs with
  | case1 bs => exact hb
  | case2 as _ => exact ha
  | case3 a as b bs hlt ih =>
    have ⟨ha₁, ha₂⟩ := List.pairwise_cons.1 ha
    have ⟨hb₁, _⟩ := List.pairwise_cons.1 hb
    refine List.pairwise_cons.2 ⟨fun i hi ↦ ?_, ih ha₂ hb⟩
    rcases mem_mergeLists.1 hi with hi | hi
    · exact ha₁ i hi
    · rcases List.mem_cons.1 hi with rfl | hi
      · exact hlt
      · exact Nat.lt_trans hlt (hb₁ i hi)
  | case4 a as b bs _ hlt ih =>
    have ⟨ha₁, _⟩ := List.pairwise_cons.1 ha
    have ⟨hb₁, hb₂⟩ := List.pairwise_cons.1 hb
    refine List.pairwise_cons.2 ⟨fun i hi ↦ ?_, ih ha hb₂⟩
    rcases mem_mergeLists.1 hi with hi | hi
    · rcases List.mem_cons.1 hi with rfl | hi
      · exact hlt
      · exact Nat.lt_trans hlt (ha₁ i hi)
    · exact hb₁ i hi
  | case5 a as b bs hab hba ih =>
    have ⟨ha₁, ha₂⟩ := List.pairwise_cons.1 ha
    have ⟨hb₁, hb₂⟩ := List.pairwise_cons.1 hb
    obtain rfl : a = b := Nat.le_antisymm (Nat.not_lt.1 hba) (Nat.not_lt.1 hab)
    refine List.pairwise_cons.2 ⟨fun i hi ↦ ?_, ih ha₂ hb₂⟩
    rcases mem_mergeLists.1 hi with hi | hi
    · exact ha₁ i hi
    · exact hb₁ i hi

def union (s t : IndexSet) : IndexSet :=
  ⟨mergeLists s.toList t.toList, pairwise_mergeLists s.ascending t.ascending⟩

instance : Union IndexSet := ⟨union⟩

@[simp] theorem mem_union {s t : IndexSet} {i : Nat} : i ∈ s ∪ t ↔ i ∈ s ∨ i ∈ t :=
  mem_mergeLists

def insert (s : IndexSet) (i : Nat) : IndexSet := s ∪ single i

@[simp] theorem mem_insert {s : IndexSet} {i j : Nat} : j ∈ s.insert i ↔ j ∈ s ∨ j = i := by
  rw [insert, mem_union, mem_single]

/-- The set of the elements of a list, which may be in any order and repeated. -/
def ofList (l : List Nat) : IndexSet := l.foldr (fun i s ↦ s.insert i) ∅

@[simp] theorem mem_ofList {i : Nat} {l : List Nat} : i ∈ ofList l ↔ i ∈ l := by
  induction l with
  | nil => exact iff_of_false (not_mem_empty i) List.not_mem_nil
  | cons j l ih => rw [ofList, List.foldr_cons, mem_insert, ← ofList, ih, List.mem_cons, or_comm]

def filter (s : IndexSet) (p : Nat → Bool) : IndexSet := ⟨s.toList.filter p, s.ascending.filter p⟩

@[simp] theorem mem_filter {s : IndexSet} {p : Nat → Bool} {i : Nat} :
    i ∈ s.filter p ↔ i ∈ s ∧ p i = true := List.mem_filter

def erase (s : IndexSet) (i : Nat) : IndexSet := s.filter (· != i)

def diff (s t : IndexSet) : IndexSet := s.filter fun i ↦ !t.contains i

instance : SDiff IndexSet := ⟨diff⟩

/-- The members, written one after another. -/
def join (s : IndexSet) (separator : String) : String :=
  separator.intercalate (s.toList.map toString)

end IndexSet

end PatternAutomata
