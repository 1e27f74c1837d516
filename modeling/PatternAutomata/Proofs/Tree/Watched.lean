import PatternAutomata.Pattern.Parse
import PatternAutomata.Proofs.Tree.Sizes

/-!
# Reading a pattern under watch

Reading a pattern makes one arena after another, of which only the last is left, and none if the
pattern has a fault. A reader that is watched tells of every arena that there is on the way, and of
every call that places a counted quantifier. Here this is written down, and `Does` says that what
comes of a program under watch is what comes of it with nobody watching, and that the arena it is
left with is the last and the largest.
-/

namespace PatternAutomata

/-- A call that unrolls a counted quantifier. -/
structure Call where
  /-- The arenas that were made in the course of it, first ones first. -/
  arenas : List Arena
  /-- The arena that it ended with, or why it was refused. -/
  outcome : Except ReadError Arena

/-- A call that goes on stays within a bound, and one that is refused has made nothing. -/
def Call.Within (limit : Nat) (c : Call) : Prop :=
  match c.outcome with
  | .ok after => after.size ≤ limit
  | .error e => e = .treeExplosion limit ∧ c.arenas = []

/-- Something that has been done under watch. -/
structure Watched (α : Type) where
  /-- What has come of it. -/
  outcome : α
  /-- The arenas that there were on the way, first ones first. -/
  arenas : List Arena := []
  /-- The calls on the way that unroll a counted quantifier. -/
  calls : List Call := []

namespace Watched

instance : Monad Watched where
  pure x := { outcome := x }
  bind f g :=
    let next := g f.outcome
    { outcome := next.outcome
      arenas := f.arenas ++ next.arenas
      calls := f.calls ++ next.calls }

/-- Every call is noted but those that have nothing to place. -/
instance : MonadWatch Watched where
  see a := { outcome := a, arenas := [a] }
  placing q f := if q.IsUnrolled then { f with calls := f.calls ++ [⟨f.arenas, f.outcome⟩] } else f

open MonadWatch

section

variable {α β : Type} (f : Watched α) (g : α → Watched β)

theorem outcome_bind : (f >>= g).outcome = (g f.outcome).outcome := rfl

theorem arenas_bind : (f >>= g).arenas = f.arenas ++ (g f.outcome).arenas := rfl

theorem calls_bind : (f >>= g).calls = f.calls ++ (g f.outcome).calls := rfl

end

theorem placing_of_isUnrolled {q : Quantifier} (hq : q.IsUnrolled)
    (f : Watched (Except ReadError Arena)) :
    placing q f = { f with calls := f.calls ++ [⟨f.arenas, f.outcome⟩] } :=
  if_pos hq

/-! ## What is done under watch -/

/-- From an arena `a` something comes out as `outcome` and leaves an arena `b`, by way of arenas no
larger than that and of calls within the bound. -/
structure Does {α : Type} (limit : Nat) (a : Arena) (f : Watched α) (outcome : α) (b : Arena) :
    Prop where
  outcome_eq : f.outcome = outcome
  size_le : a.size ≤ b.size
  noted : b ∈ a :: f.arenas
  largest : ∀ c ∈ f.arenas, c.size ≤ b.size
  within : ∀ c ∈ f.calls, c.Within limit

variable {α β : Type} {limit : Nat} {f : Watched α} {g : α → Watched β} {x : α} {y : β}
  {a b c : Arena}

theorem does_pure (x : α) : Does limit a (pure x) x a where
  outcome_eq := rfl
  size_le := Nat.le_refl _
  noted := List.mem_cons_self
  largest _ h := (List.not_mem_nil h).elim
  within _ h := (List.not_mem_nil h).elim

theorem does_see (h : a.size ≤ b.size) : Does limit a (see b) b b where
  outcome_eq := rfl
  size_le := h
  noted := List.mem_cons_of_mem _ (List.mem_singleton_self b)
  largest _ hc := Nat.le_of_eq (congrArg Arena.size (List.mem_singleton.1 hc))
  within _ h := (List.not_mem_nil h).elim

theorem Does.bind (hf : Does limit a f x b) (hg : Does limit b (g x) y c) :
    Does limit a (f >>= g) y c := by
  obtain ⟨rfl, hsize, hnoted, hlargest, hwithin⟩ := hf
  refine ⟨hg.outcome_eq, Nat.le_trans hsize hg.size_le, ?_, fun d hd ↦ ?_, fun d hd ↦ ?_⟩
  · rw [arenas_bind, ← List.cons_append]
    rcases List.mem_cons.1 hg.noted with rfl | hmem
    · exact List.mem_append_left _ hnoted
    · exact List.mem_append_right _ hmem
  · rcases List.mem_append.1 (arenas_bind f g ▸ hd) with hd | hd
    · exact Nat.le_trans (hlargest d hd) hg.size_le
    · exact hg.largest d hd
  · rcases List.mem_append.1 (calls_bind f g ▸ hd) with hd | hd
    · exact hwithin d hd
    · exact hg.within d hd

theorem Does.bind_pure (hf : Does limit a f x b) (k : α → β) :
    Does limit a (f >>= fun y ↦ Pure.pure (k y)) (k x) b :=
  hf.bind (does_pure (k x))

theorem Does.placing {f : Watched (Except ReadError Arena)} {r : Except ReadError Arena}
    {q : Quantifier} (hf : Does limit a f r b)
    (hcall : q.IsUnrolled → Call.Within limit ⟨f.arenas, r⟩) :
    Does limit a (placing q f) r b := by
  by_cases hq : q.IsUnrolled
  · obtain ⟨rfl, hsize, hnoted, hlargest, hwithin⟩ := hf
    rw [placing_of_isUnrolled hq]
    refine ⟨rfl, hsize, hnoted, hlargest, fun d hd ↦ ?_⟩
    rcases List.mem_append.1 hd with hd | hd
    · exact hwithin d hd
    · rw [List.mem_singleton.1 hd]
      exact hcall hq
  · rwa [show MonadWatch.placing q f = f from if_neg hq]

/-! ### Arenas -/

theorem does_add (kind : NodeKind) : Does limit a (see (a.add kind)) (a.add kind) (a.add kind) :=
  does_see (by simp)

theorem does_link (parent child : Nat) :
    Does limit a (see (a.link parent child)) (a.link parent child) (a.link parent child) :=
  does_see (by simp)

theorem does_addLookBehind (body : Nat) :
    Does limit a (a.addLookBehindM body) (a.addLookBehind body) (a.addLookBehind body) :=
  (does_add _).bind (does_link _ _)

theorem does_copyAll (fuel : Nat) (pending : List (Nat × Option Nat)) :
    Does limit a (Arena.copyAllM fuel pending a) (Arena.copyAll fuel pending a)
      (Arena.copyAll fuel pending a) := by
  induction fuel generalizing pending a with
  | zero => exact does_pure a
  | succ fuel ih =>
    cases pending with
    | nil => exact does_pure a
    | cons next pending =>
      obtain ⟨id, into⟩ := next
      refine (does_see (by simp)).bind ?_
      cases into with
      | none => exact (does_pure _).bind (ih _)
      | some parent => exact (does_link _ _).bind (ih _)

/-! ### Quantifiers -/

theorem does_linkChoice (group body exit : Nat) (isLazy : Bool) :
    Does limit a (a.linkChoiceM group body exit isLazy) (a.linkChoice group body exit isLazy)
      (a.linkChoice group body exit isLazy) := by
  cases isLazy with
  | false => exact (does_link _ _).bind (does_link _ _)
  | true => exact (does_link _ _).bind (does_link _ _)

theorem does_addChoice (g : Group) :
    Does limit a (a.addChoiceM g) (a.addChoice g) (a.addChoice g) :=
  (does_add _).bind ((does_add _).bind (does_add _))

theorem does_addAround (g : Group) (isLazy : Bool) (atom : Nat) :
    Does limit a (a.addAroundM g isLazy atom) (a.addAround g isLazy atom)
      (a.addAround g isLazy atom) :=
  (does_addChoice _).bind ((does_link _ _).bind (does_linkChoice _ _ _ _))

theorem does_useAtom (atom : Nat) (isUsed : Bool) :
    Does limit a (a.useAtomM atom isUsed) (a.useAtom atom isUsed) (a.useAtom atom isUsed).2 := by
  cases isUsed with
  | false => exact does_pure _
  | true => exact (does_copyAll _ _).bind_pure (a.size, ·)

theorem does_placeTimes (sequence atom n : Nat) (isUsed : Bool) :
    Does limit a (Arena.placeTimesM sequence atom n isUsed a)
      (Arena.placeTimes sequence atom n isUsed a) (Arena.placeTimes sequence atom n isUsed a) := by
  induction n generalizing isUsed a with
  | zero => exact does_pure a
  | succ n ih => exact (does_useAtom _ _).bind ((does_link _ _).bind (ih _))

theorem does_placeOptional (atom : Nat) (isLazy : Bool) (n sequence : Nat) (isUsed : Bool) :
    Does limit a (Arena.placeOptionalM atom isLazy n sequence isUsed a)
      (Arena.placeOptional atom isLazy n sequence isUsed a)
      (Arena.placeOptional atom isLazy n sequence isUsed a) := by
  induction n generalizing sequence isUsed a with
  | zero => exact does_pure a
  | succ n ih =>
    exact (does_addChoice _).bind ((does_linkChoice _ _ _ _).bind ((does_link _ _).bind
      ((does_useAtom _ _).bind ((does_link _ _).bind (ih _ _)))))

/-- A counted quantifier either makes the arena that it ends with, or is refused and makes none. -/
theorem does_placeCounted (sequence atom least : Nat) (greatest : Option Nat) (isLazy : Bool) :
    let f : Watched (Option Arena) := a.placeCountedM limit sequence atom least greatest isLazy
    let r := a.placeCounted limit sequence atom least greatest isLazy
    Does limit a f r (r.getD a) ∧ (r = none → f.arenas = []) := by
  match greatest with
  | some 0 => exact ⟨does_pure _, nofun⟩
  | some (greatest + 1) =>
    by_cases hroom : a.hasRoom limit atom (greatest + 1) = true
    · simp only [Arena.placeCounted_some, Arena.placeCountedM, if_pos hroom]
      exact ⟨(does_placeTimes _ _ _ _).bind ((does_placeOptional _ _ _ _ _).bind_pure some), nofun⟩
    · simp only [Arena.placeCounted_some, Arena.placeCountedM, if_neg hroom]
      exact ⟨does_pure _, fun _ ↦ rfl⟩
  | none =>
    by_cases hroom : a.hasRoom limit atom (least + 1) = true
    · rw [Arena.placeCounted_none, Arena.placeCountedM, if_pos hroom, if_pos hroom]
      exact ⟨(does_placeTimes _ _ _ _).bind ((does_useAtom _ _).bind
        ((does_addAround _ _ _).bind ((does_link _ _).bind_pure some))), nofun⟩
    · rw [Arena.placeCounted_none, Arena.placeCountedM, if_neg hroom, if_neg hroom]
      exact ⟨does_pure _, fun _ ↦ rfl⟩

theorem does_placeAtom (limit sequence atom : Nat) (q : Quantifier) :
    let f : Watched (Option Arena) := a.placeM limit sequence atom q
    let r := a.place limit sequence atom q
    Does limit a f r (r.getD a) ∧ (r = none → f.arenas = []) := by
  cases q with
  | once => exact ⟨(does_link _ _).bind_pure some, nofun⟩
  | star isLazy | plus isLazy | optional isLazy =>
    exact ⟨(does_addAround _ _ _).bind ((does_link _ _).bind_pure some), nofun⟩
  | counted least greatest isLazy => exact does_placeCounted _ _ _ _ _

end Watched

end PatternAutomata
