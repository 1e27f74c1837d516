import PatternAutomata.Bytes

/-!
# Bounds on growth

States and transitions are numbered from zero in the order in which they are made, and each kind
has a largest number. An automaton that would need a larger one is given up: the pattern is too
complex. Nothing is wrong with the pattern otherwise, so the failure carries the bound itself.
-/

namespace PatternAutomata

/-- The failure of an automaton that outgrows a bound. -/
structure Explosion where
  /-- What grew too large. -/
  subsystem : Bytes
  /-- The largest number that could be given out. -/
  threshold : Int
deriving DecidableEq, Repr

/-- The message that reports the failure. As numbers start at zero, one more element than the
largest number is the most there can be. -/
def Explosion.message (e : Explosion) : Bytes :=
  e.subsystem ++
    .ofString (" (more than " ++ toString (e.threshold + 1) ++ " elements)")

/-- A bound on the numbers of one kind of element. -/
structure Bound where
  /-- What is bounded. -/
  subsystem : Bytes
  /-- The largest number that may be given out; below zero for none at all. -/
  max : Int
deriving DecidableEq, Repr

/-- Gives out the number `n`, if the bound lets it. -/
def Bound.grant (b : Bound) (n : Nat) : Except Explosion Nat :=
  if b.max < n then throw ⟨b.subsystem, b.max⟩ else return n

/-- A bound together with how often a number has been asked for. -/
structure Counter where
  /-- The bound on the numbers. -/
  bound : Bound
  /-- How many numbers have been asked for. -/
  count : Nat := 0
deriving DecidableEq, Repr

/-- Asks for the next number. The request counts also when it is refused. -/
def Counter.next (c : Counter) : Except Explosion Nat × Counter :=
  (c.bound.grant c.count, { c with count := c.count + 1 })

end PatternAutomata
