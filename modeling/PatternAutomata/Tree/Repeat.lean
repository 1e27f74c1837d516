import PatternAutomata.Tree.Arena

/-!
# Unrolled quantifiers

A quantifier takes an atom that has no place yet and places it in a sequence, once or several
times. Only the quantifiers without an upper bound become loops. A bound is unrolled:

* `x{m,n}` is `x` placed `m` times, followed by `n - m` optional ones, each within the one before;
* `x{m,}` is `x` placed `m - 1` times, followed by `x+`, or just `x*` if `m` is zero;
* `x{0}` places nothing, and the atom is left over.

The first use is the atom itself and every further use is a copy of it. As counts may be huge, the
nodes that unrolling can add are reckoned beforehand and compared with the bound on the tree.
-/

namespace PatternAutomata

namespace Arena

open MonadWatch

variable {m : Type → Type} [Monad m] [MonadWatch m]

/-- Places the two alternatives of a choice between going on and leaving, preferred one first. -/
def linkChoiceM (a : Arena) (group body exit : Nat) (isLazy : Bool) : m Arena :=
  if isLazy then do
    let a ← see (a.link group exit)
    see (a.link group body)
  else do
    let a ← see (a.link group body)
    see (a.link group exit)

def linkChoice (a : Arena) (group body exit : Nat) (isLazy : Bool) : Arena :=
  Id.run (a.linkChoiceM group body exit isLazy)

theorem linkChoice_eq (a : Arena) (group body exit : Nat) (isLazy : Bool) :
    a.linkChoice group body exit isLazy =
      if isLazy then (a.link group exit).link group body
      else (a.link group body).link group exit := rfl

/-- Adds a group and two sequences, which it is to choose between; the group is the first node
added. -/
def addChoiceM (a : Arena) (g : Group) : m Arena := do
  let a ← see (a.add (.group g))
  let a ← see (a.add .sequence)
  see (a.add .sequence)

def addChoice (a : Arena) (g : Group) : Arena := Id.run (a.addChoiceM g)

theorem addChoice_eq (a : Arena) (g : Group) :
    a.addChoice g = ((a.add (.group g)).add .sequence).add .sequence := rfl

/-- Adds a choice between an atom and nothing; the group is the first node added. -/
def addAroundM (a : Arena) (g : Group) (isLazy : Bool) (atom : Nat) : m Arena := do
  let group := a.size
  let a ← addChoiceM a g
  let a ← see (a.link (group + 1) atom)
  linkChoiceM a group (group + 1) (group + 2) isLazy

def addAround (a : Arena) (g : Group) (isLazy : Bool) (atom : Nat) : Arena :=
  Id.run (a.addAroundM g isLazy atom)

theorem addAround_eq (a : Arena) (g : Group) (isLazy : Bool) (atom : Nat) :
    a.addAround g isLazy atom = ((a.addChoice g).link (a.size + 1) atom).linkChoice a.size
      (a.size + 1) (a.size + 2) isLazy := rfl

def addLoop (a : Arena) (kind : LoopKind) (isLazy : Bool) (atom : Nat) : Arena :=
  a.addAround { loop := some kind } isLazy atom

/-- Adds a group that an atom may be left out by. -/
def addOptional (a : Arena) (isLazy : Bool) (atom : Nat) : Arena := a.addAround {} isLazy atom

/-! ## Repeated use of an atom -/

/-- The atom itself for its first use, and a new copy of it for all others. -/
def useAtomM (a : Arena) (atom : Nat) (isUsed : Bool) : m (Nat × Arena) :=
  if isUsed then do
    let c ← a.copyM atom
    return (a.size, c)
  else return (atom, a)

def useAtom (a : Arena) (atom : Nat) (isUsed : Bool) : Nat × Arena :=
  Id.run (a.useAtomM atom isUsed)

@[specialize]
def placeTimesM (sequence atom : Nat) : Nat → Bool → Arena → m Arena
  | 0, _, a => return a
  | n + 1, isUsed, a => do
    let (next, a) ← a.useAtomM atom isUsed
    let a ← see (a.link sequence next)
    placeTimesM sequence atom n true a

def placeTimes (sequence atom n : Nat) (isUsed : Bool) (a : Arena) : Arena :=
  Id.run (placeTimesM sequence atom n isUsed a)

theorem placeTimes_zero (sequence atom : Nat) (isUsed : Bool) (a : Arena) :
    placeTimes sequence atom 0 isUsed a = a := rfl

theorem placeTimes_succ (sequence atom n : Nat) (isUsed : Bool) (a : Arena) :
    placeTimes sequence atom (n + 1) isUsed a = placeTimes sequence atom n true
      ((a.useAtom atom isUsed).2.link sequence (a.useAtom atom isUsed).1) := rfl

/-- Places an atom up to `n` times in a sequence: an optional group around an atom that is itself
followed by up to `n - 1` more. -/
@[specialize]
def placeOptionalM (atom : Nat) (isLazy : Bool) : Nat → Nat → Bool → Arena → m Arena
  | 0, _, _, a => return a
  | n + 1, sequence, isUsed, a => do
    let group := a.size
    let body := group + 1
    let a ← a.addChoiceM {}
    let a ← a.linkChoiceM group body (group + 2) isLazy
    let a ← see (a.link sequence group)
    let (next, a) ← a.useAtomM atom isUsed
    let a ← see (a.link body next)
    placeOptionalM atom isLazy n body true a

def placeOptional (atom : Nat) (isLazy : Bool) (n sequence : Nat) (isUsed : Bool) (a : Arena) :
    Arena :=
  Id.run (placeOptionalM atom isLazy n sequence isUsed a)

theorem placeOptional_succ (atom : Nat) (isLazy : Bool) (n sequence : Nat) (isUsed : Bool)
    (a : Arena) : placeOptional atom isLazy (n + 1) sequence isUsed a =
      let b := ((a.addChoice {}).linkChoice a.size (a.size + 1) (a.size + 2) isLazy).link sequence
        a.size
      placeOptional atom isLazy n (a.size + 1) true
        ((b.useAtom atom isUsed).2.link (a.size + 1) (b.useAtom atom isUsed).1) := rfl

/-- Whether a number of uses of an atom stay within a bound on the tree, even if each is wrapped
in a group with two sequences. -/
def hasRoom (a : Arena) (limit atom uses : Nat) : Bool :=
  a.size ≤ limit && (a.subtree atom).size + 3 ≤ (limit - a.size) / uses

/-- Places an atom at least `least` times, and at most `greatest` times if there is such a number,
unless there is no room for that. -/
def placeCountedM (a : Arena) (limit sequence atom least : Nat) (greatest : Option Nat)
    (isLazy : Bool) : m (Option Arena) :=
  match greatest with
  | some 0 => return some a
  | some greatest =>
    if a.hasRoom limit atom greatest then do
      let a ← placeTimesM sequence atom least false a
      let a ← placeOptionalM atom isLazy (greatest - least) sequence (0 < least) a
      return some a
    else return none
  | none =>
    if a.hasRoom limit atom (least + 1) then do
      let a ← placeTimesM sequence atom (least - 1) false a
      let (next, a) ← a.useAtomM atom (1 < least)
      let loop := a.size
      let a ← a.addAroundM { loop := some (if least = 0 then .star else .plus) } isLazy next
      let a ← see (a.link sequence loop)
      return some a
    else return none

def placeCounted (a : Arena) (limit sequence atom least : Nat) (greatest : Option Nat)
    (isLazy : Bool) : Option Arena :=
  Id.run (a.placeCountedM limit sequence atom least greatest isLazy)

section placeCounted

variable {a c : Arena} {limit sequence atom least : Nat} {greatest : Option Nat} {isLazy : Bool}

theorem placeCounted_some (greatest : Nat) :
    a.placeCounted limit sequence atom least (some (greatest + 1)) isLazy =
      if a.hasRoom limit atom (greatest + 1) then
        some (placeOptional atom isLazy (greatest + 1 - least) sequence (0 < least)
          (placeTimes sequence atom least false a))
      else none := rfl

theorem placeCounted_none :
    a.placeCounted limit sequence atom least none isLazy =
      let use := (placeTimes sequence atom (least - 1) false a).useAtom atom (1 < least)
      if a.hasRoom limit atom (least + 1) then
        some ((use.2.addLoop (if least = 0 then .star else .plus) isLazy use.1).link sequence
          use.2.size)
      else none := rfl

theorem placeCounted_cases
    (h : a.placeCounted limit sequence atom least greatest isLazy = some c) :
    greatest = some 0 ∧ c = a ∨
    (∃ n, n ≠ 0 ∧ greatest = some n ∧ a.hasRoom limit atom n = true ∧
      c = placeOptional atom isLazy (n - least) sequence (0 < least)
        (placeTimes sequence atom least false a)) ∨
    greatest = none ∧ a.hasRoom limit atom (least + 1) = true ∧
      let use := (placeTimes sequence atom (least - 1) false a).useAtom atom (1 < least)
      c = (use.2.addLoop (if least = 0 then .star else .plus) isLazy use.1).link sequence
        use.2.size := by
  match greatest with
  | some 0 => exact .inl ⟨rfl, (Option.some.inj h).symm⟩
  | some (greatest + 1) =>
    rw [placeCounted_some, Option.ite_none_right_eq_some] at h
    exact .inr (.inl ⟨_, Nat.succ_ne_zero _, rfl, h.1, (Option.some.inj h.2).symm⟩)
  | none =>
    rw [placeCounted_none, Option.ite_none_right_eq_some] at h
    exact .inr (.inr ⟨rfl, h.1, (Option.some.inj h.2).symm⟩)

end placeCounted

/-- Places an atom in a sequence as its quantifier says. -/
def placeM (a : Arena) (limit sequence atom : Nat) (q : Quantifier) : m (Option Arena) := do
  let next := a.size
  match q with
  | .once => return some (← see (a.link sequence atom))
  | .star isLazy =>
    let a ← a.addAroundM { loop := some .star } isLazy atom
    return some (← see (a.link sequence next))
  | .plus isLazy =>
    let a ← a.addAroundM { loop := some .plus } isLazy atom
    return some (← see (a.link sequence next))
  | .optional isLazy =>
    let a ← a.addAroundM {} isLazy atom
    return some (← see (a.link sequence next))
  | .counted least greatest isLazy => a.placeCountedM limit sequence atom least greatest isLazy

def place (a : Arena) (limit sequence atom : Nat) (q : Quantifier) : Option Arena :=
  Id.run (a.placeM limit sequence atom q)

theorem place_eq (a : Arena) (limit sequence atom : Nat) (q : Quantifier) :
    a.place limit sequence atom q =
      match q with
      | .once => some (a.link sequence atom)
      | .star isLazy => some ((a.addLoop .star isLazy atom).link sequence a.size)
      | .plus isLazy => some ((a.addLoop .plus isLazy atom).link sequence a.size)
      | .optional isLazy => some ((a.addOptional isLazy atom).link sequence a.size)
      | .counted least greatest isLazy =>
        a.placeCounted limit sequence atom least greatest isLazy := by
  cases q <;> rfl

end Arena

end PatternAutomata
