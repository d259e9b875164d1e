import Colloquy.Machine.Advance
import Colloquy.Machine.Step

/-!
# Running to the end

`Machine.run` repeats steps until the outermost call is over or something fails.  It always ends,
because every step that goes on advances the load of the call stack (`Machine.step_advances`).
-/

namespace Colloquy

open Load (Advance)

namespace State

/-- A value for the innermost call changes nothing but the call's operands. -/
theorem calls_of_resume {s after : State} {v : Value} (h : s.resume v = .running after) :
    ∃ c rest, s.calls.calls = c :: rest
      ∧ after.calls.calls = { c with stack := v :: c.stack } :: rest := by
  obtain ⟨memory, ⟨calls, depth, hd⟩⟩ := s
  cases calls with
  | nil => simp [resume] at h
  | cons c rest =>
    simp only [resume, Progress.running.injEq] at h
    subst h
    exact ⟨c, rest, rfl, rfl⟩

theorem not_running_of_fail {s after : State} {cause : Cause} :
    s.fail cause ≠ .running after := by
  simp [fail]

end State

namespace Machine

variable {machine : Machine} {s after : State} {past c : Call} {below : List Call} {v : Value}

theorem calls_of_logCalls {p : Progress} (h : machine.logCalls p = .running after) :
    ∃ before, p = .running before ∧ after.calls = before.calls := by
  unfold logCalls at h
  split at h
  · refine ⟨_, rfl, ?_⟩
    split at h <;>
    · simp only [Progress.running.injEq] at h
      subst h
      rfl
  · exact ⟨after, h, rfl⟩

/-- A new call stands on top of the others, and there was room for it. -/
theorem calls_of_enter {callee : Callee} (h : machine.enter s callee = .running after) :
    s.calls.depth < machine.maxDepth ∧ ∃ new, after.calls.calls = new :: s.calls.calls := by
  obtain ⟨⟨frames, store, serial, transcript, logging, log⟩, calls⟩ := s
  unfold enter at h
  split at h
  · rename_i room
    cases callee <;>
    · simp only [Progress.running.injEq] at h
      subst h
      exact ⟨room, _, rfl⟩
  · exact absurd h State.not_running_of_fail

/-- The end of a call leaves the calls below it. -/
theorem calls_of_finish (hs : s.calls.calls = past :: below) (h : finish s v = .running after) :
    ∃ c rest, below = c :: rest ∧ after.calls.calls = { c with stack := v :: c.stack } :: rest := by
  obtain ⟨memory, ⟨calls, depth, hd⟩⟩ := s
  subst hs
  exact State.calls_of_resume h

/-- A return fails, or ends the calls up to that of the home, the innermost one at least. -/
theorem escape_cases (machine : Machine) (s : State) (c : Call) (v : Value) :
    (∃ cause, machine.escape s c v = s.fail cause)
      ∨ ∃ n, machine.escape s c v = State.resume
          ⟨s.memory.leaveReturning (s.calls.calls.take (n + 1)), s.calls.drop (n + 1)⟩ v := by
  unfold escape
  split
  · exact .inl ⟨_, rfl⟩
  split
  · exact .inl ⟨_, rfl⟩
  rename_i upTo
  split at upTo
  · simp only [CallStack.upTo?, Option.map_eq_some_iff] at upTo
    obtain ⟨n, -, rfl⟩ := upTo
    exact .inr ⟨n, rfl⟩
  · cases upTo

/-- A return leaves what is below the method's call. -/
theorem calls_of_escape (hs : s.calls.calls = past :: below)
    (h : machine.escape s c v = .running after) :
    ∃ d rest, d :: rest <:+ below
      ∧ after.calls.calls = { d with stack := v :: d.stack } :: rest := by
  rcases machine.escape_cases s c v with ⟨cause, failed⟩ | ⟨n, returned⟩
  · rw [failed] at h
    exact absurd h State.not_running_of_fail
  · rw [returned] at h
    obtain ⟨d, rest, left, calls⟩ := State.calls_of_resume h
    rw [CallStack.calls_drop, hs, List.drop_succ_cons] at left
    exact ⟨d, rest, left ▸ List.drop_suffix n below, calls⟩

/-- **Every step that goes on advances.** -/
theorem step_advances (h : machine.step s = .running after) :
    Advance machine.maxDepth after.pending s.pending := by
  obtain ⟨memory, ⟨calls, depth, hd⟩⟩ := s
  cases calls with
  | nil => exact absurd h State.not_running_of_fail
  | cons c rest =>
    simp only [step] at h
    split at h
    · exact absurd h State.not_running_of_fail
    · split at h
      · obtain ⟨d, below, rfl, calls⟩ := calls_of_finish rfl h
        rw [State.pending, calls]
        exact .leave (List.suffix_refl _)
      · exact absurd h State.not_running_of_fail
    · rename_i instruction next decoded
      have ahead : c.code.block.bytecode.size - next < c.remaining := by
        have := Instruction.decodeAt_bounds decoded
        simp only [Call.remaining]
        omega
      split at h
      · obtain ⟨before, hb, calls⟩ := calls_of_logCalls h
        rw [State.pending, calls, ← Progress.running.inj hb]
        exact .move ahead
      · obtain ⟨before, hb, calls⟩ := calls_of_logCalls h
        obtain ⟨room, new, hnew⟩ := calls_of_enter hb
        rw [State.pending, calls, hnew]
        refine .enter ahead ?_
        simp only [hd, List.length_cons, List.length_map] at room ⊢
        exact room
      · obtain ⟨d, below, rfl, calls⟩ := calls_of_finish rfl h
        rw [State.pending, calls]
        exact .leave (List.suffix_refl _)
      · obtain ⟨d, below, suffix, calls⟩ := calls_of_escape rfl h
        rw [State.pending, calls]
        exact .leave (suffix.map Call.remaining)
      · exact absurd h State.not_running_of_fail

/-- How a run ends. -/
inductive Outcome where
  | value (v : Value) (s : State)
  | failure (f : Failure) (s : State)

/-- Carries out instructions until the outermost call is over or something fails. -/
def run (machine : Machine) (s : State) : Outcome :=
  match _step : machine.step s with
  | .running after => machine.run after
  | .finished v after => .value v after
  | .failed f after => .failure f after
termination_by (⟨s.pending⟩ : Load machine.maxDepth)
decreasing_by exact step_advances _step

end Machine

end Colloquy
