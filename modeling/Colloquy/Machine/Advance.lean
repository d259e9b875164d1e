/-!
# Why runs end

The bytes of code ahead of each call on a call stack, innermost first, are its load.  A step makes
the load of the innermost call smaller, perhaps with a new call on top of it, or takes calls off the
stack.  There are no jumps, and the number of calls is bounded, so this cannot go on for ever: a
call stack that is deep enough cannot get deeper, and below it every load shrinks.

Main statement: `Load.wellFounded`.
-/

namespace Colloquy

/-- The bytes of code ahead of each call, where at most `limit` calls can be entered. -/
structure Load (limit : Nat) where
  ahead : List Nat

namespace Load

/-- What a step does to a load. -/
inductive Advance (limit : Nat) : List Nat → List Nat → Prop where
  /-- The innermost call moves on. -/
  | move {n k : Nat} {rest : List Nat} (h : k < n) : Advance limit (k :: rest) (n :: rest)
  /-- The innermost call moves on and waits for a new one. -/
  | enter {n k new : Nat} {rest : List Nat} (h : k < n) (room : rest.length + 1 < limit) :
      Advance limit (new :: k :: rest) (n :: rest)
  /-- Calls are over. -/
  | leave {n : Nat} {rest after : List Nat} (h : after <:+ rest) : Advance limit after (n :: rest)

variable {limit : Nat}

/-- What is below an accessible load is accessible. -/
theorem Advance.acc_suffix {rest after : List Nat} (h : after <:+ rest)
    (acc : Acc (Advance limit) rest) : Acc (Advance limit) after := by
  cases rest with
  | nil => rwa [List.suffix_nil.1 h]
  | cons n rest =>
    rcases List.suffix_cons_iff.1 h with rfl | h
    · exact acc
    · exact acc.inv (.leave h)

/-- **A call on top of an accessible load keeps it accessible**, however much code is ahead of it:
by induction on the room that is left above it, then on its code. -/
theorem Advance.acc_cons (room : Nat) : ∀ {rest : List Nat}, limit - rest.length ≤ room →
    Acc (Advance limit) rest → ∀ n : Nat, Acc (Advance limit) (n :: rest) := by
  induction room with
  | zero =>
    intro rest hroom acc n
    induction n using Nat.strongRecOn with
    | ind n ih =>
      constructor
      intro after h
      cases h with
      | move h => exact ih _ h
      | enter h room => omega
      | leave h => exact acc_suffix h acc
  | succ room ihRoom =>
    intro rest hroom acc n
    induction n using Nat.strongRecOn with
    | ind n ih =>
      constructor
      intro after h
      cases h with
      | move h => exact ih _ h
      | enter h _ => exact ihRoom (by simp only [List.length_cons]; omega) (ih _ h) _
      | leave h => exact acc_suffix h acc

theorem Advance.wellFounded : WellFounded (Advance limit) := by
  refine ⟨fun load => ?_⟩
  induction load with
  | nil => exact ⟨_, fun _ h => by cases h⟩
  | cons n rest ih => exact acc_cons _ (Nat.le_refl _) ih n

instance wellFounded : WellFoundedRelation (Load limit) where
  rel a b := Advance limit a.ahead b.ahead
  wf := InvImage.wf ahead Advance.wellFounded

end Load

end Colloquy
