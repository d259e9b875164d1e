import Colloquy.Proofs.CallSites
import Colloquy.Proofs.RoundTrip

/-!
# Listings and traces

A listing goes through the code of a block from its first byte, and a trace shows the instruction at
one offset.  Both show the same: a listing has, one after another, the lines for the offsets where
an instruction starts and then for the one where reading fails (`Block.offsets`).

A call stands at one of these offsets or at the end of its code, whatever the code is
(`Call.Aligned`): it starts at the first byte, there are no jumps, and where nothing can be read no
call goes on.  So a trace shows lines of listings, or the end.

Main statement: `traces_match_listings`.
-/

namespace Colloquy

open Instruction (Reads decodeAt decodeFrom)

/-! ## What a listing goes through -/

namespace Instruction

/-- The offsets where an instruction was read, and the one where reading has failed. -/
def Listing.offsets (l : Listing) : List Nat :=
  l.items.map (·.1) ++ l.error.toList.map fun _ => l.stop

section Offsets

variable {bytes : Bytes} {p o : Nat} {l : Listing}

/-- Where there is something to read, or something that cannot be read, the code has not ended. -/
theorem lt_size_of_decodeAt (h : decodeAt bytes p ≠ .ok none) : p < bytes.size :=
  Nat.lt_of_not_le fun ended => h (decodeAt_eq_none_iff.2 ended)

/-- **A listing goes through the offsets inside the code that reading comes to.** -/
theorem Lists.mem_offsets_iff (h : Lists bytes p l) :
    o ∈ l.offsets ↔ o < bytes.size ∧ ∃ is, Reads bytes p is o := by
  induction h with
  | @ended p read =>
    have past := decodeAt_eq_none_iff.1 read
    refine iff_of_false List.not_mem_nil ?_
    rintro ⟨inside, is, reads⟩
    cases reads with
    | nil => omega
    | cons first => exact absurd (first.symm.trans read) (by simp)
  | @failed p e read =>
    have inside : p < bytes.size := lt_size_of_decodeAt (by simp [read])
    refine List.mem_singleton.trans ⟨?_, ?_⟩
    · rintro rfl
      exact ⟨inside, [], .nil _⟩
    · rintro ⟨-, is, reads⟩
      cases reads with
      | nil => rfl
      | cons first => exact absurd (first.symm.trans read) (by simp)
  | @cons p next i l read rest ih =>
    have inside : p < bytes.size := lt_size_of_decodeAt (by simp [read])
    refine List.mem_cons.trans ⟨?_, ?_⟩
    · rintro (rfl | mem)
      · exact ⟨inside, [], .nil _⟩
      · obtain ⟨inside, is, reads⟩ := ih.1 mem
        exact ⟨inside, i :: is, .cons read reads⟩
    · rintro ⟨inside, is, reads⟩
      cases reads with
      | nil => exact .inl rfl
      | cons first later =>
        cases first.symm.trans read
        exact .inr (ih.2 ⟨inside, _, later⟩)

theorem Lists.pairwise_offsets (h : Lists bytes p l) : l.offsets.Pairwise (· < ·) := by
  induction h with
  | ended => exact .nil
  | failed => exact List.pairwise_singleton _ _
  | @cons p next i l read rest ih =>
    refine List.pairwise_cons.2 ⟨fun o mem => ?_, ih⟩
    obtain ⟨forward, inside⟩ := decodeAt_bounds read
    obtain ⟨-, is, reads⟩ := rest.mem_offsets_iff.1 mem
    exact Nat.lt_of_lt_of_le forward (reads.bounds inside).1

/-- **The offsets are those where a decoder has stood** that was asked again and again and had
something to report. -/
theorem Lists.offsets_getElem? (h : Lists bytes p l) (k : Nat) :
    l.offsets[k]? = (({ bytes, offset := p } : Decoder).asked k).next.1.map
      fun _ => (({ bytes, offset := p } : Decoder).asked k).offset := by
  induction h generalizing k with
  | ended read =>
    have still := Decoder.next_of_none read
    rw [Decoder.asked_of_next still, still]
    rfl
  | failed read =>
    obtain ⟨once, never⟩ := Decoder.next_of_error read
    cases k with
    | zero =>
      rw [Decoder.asked, once]
      rfl
    | succ k =>
      rw [Decoder.asked, once, Decoder.asked_of_next never, never]
      rfl
  | @cons p next i l read rest ih =>
    have first : ({ bytes, offset := p } : Decoder).next
        = (some (.ok i), { bytes, offset := next }) := by
      simp only [Decoder.next, read, Bool.false_eq_true, if_false]
    cases k with
    | zero =>
      rw [Decoder.asked, first]
      rfl
    | succ k =>
      rw [Decoder.asked, first]
      exact ih k

end Offsets

end Instruction

/-! ## Lines -/

namespace Block

variable {b : Block} {o next : Nat} {i : Instruction}

/-- The offsets that the listing goes through. -/
def offsets (b : Block) : List Nat := (decodeFrom b.bytecode 0).offsets

/-- The lines for the instructions at given offsets. -/
def lines (b : Block) (offsets : List Nat) : String :=
  String.join (offsets.map fun o => b.line o ++ "\n")

theorem lines_cons (b : Block) (o : Nat) (rest : List Nat) :
    b.lines (o :: rest) = b.line o ++ "\n" ++ b.lines rest := String.join_cons

theorem lines_append (b : Block) (before after : List Nat) :
    b.lines (before ++ after) = b.lines before ++ b.lines after := by
  rw [lines, List.map_append, String.join_append]
  rfl

/-- The text of a listing of the block's code, from any offset on. -/
def shown (b : Block) (l : Instruction.Listing) : String :=
  String.join (l.items.map fun x => margin x.1 ++ b.describe x.2 ++ "\n")
    ++ match l.error with
      | some e => margin l.stop ++ "<" ++ e.message ++ ">\n"
      | none => ""

theorem shown_eq {p : Nat} {l : Instruction.Listing} (h : Instruction.Lists b.bytecode p l) :
    b.shown l = b.lines l.offsets := by
  induction h with
  | ended => rfl
  | @failed p e read =>
    have line : b.line p = margin p ++ ("<" ++ e.message ++ ">") := by rw [Block.line, read]
    have shown : b.shown ⟨[], some e, p⟩ = "" ++ (margin p ++ "<" ++ e.message ++ ">\n") := rfl
    have offsets : (⟨[], some e, p⟩ : Instruction.Listing).offsets = [p] := rfl
    rw [offsets, lines_cons, line, shown]
    simp only [String.append_assoc, String.empty_append]
    rfl
  | @cons p next i l read rest ih =>
    have line : b.line p = margin p ++ b.describe i := by rw [Block.line, read]
    have shown : b.shown { l with items := (p, i) :: l.items }
        = margin p ++ b.describe i ++ "\n" ++ b.shown l := by
      simp only [Block.shown, List.map_cons, String.join_cons, String.append_assoc]
    rw [shown, ih, ← line, ← lines_cons]
    rfl

/-- **A listing has the lines for the offsets that it goes through**, one after another. -/
theorem listing_eq (b : Block) : b.listing = b.lines b.offsets :=
  shown_eq (Instruction.decodeFrom_lists b.bytecode 0)

/-- Past the code there is only its end. -/
theorem line_of_size_le (h : b.bytecode.size ≤ o) : b.line o = margin o ++ "<end>" := by
  rw [line, Instruction.decodeAt_eq_none_iff.2 h]

theorem mem_offsets_iff : o ∈ b.offsets ↔ o < b.bytecode.size ∧ ∃ is, Reads b.bytecode 0 is o :=
  (Instruction.decodeFrom_lists b.bytecode 0).mem_offsets_iff

/-- An offset that the listing goes through, or the end of the code. -/
def Boundary (b : Block) (o : Nat) : Prop := o ∈ b.offsets ∨ o = b.bytecode.size

theorem boundary_of_reads {is : List Instruction} (h : Reads b.bytecode 0 is o) : b.Boundary o := by
  obtain ⟨-, bound⟩ := h.bounds (Nat.zero_le _)
  exact (Nat.lt_or_eq_of_le bound).imp (fun inside => mem_offsets_iff.2 ⟨inside, is, h⟩) id

theorem boundary_zero (b : Block) : b.Boundary 0 := boundary_of_reads (.nil 0)

/-- What is read at a boundary starts an instruction. -/
theorem Boundary.mem (h : b.Boundary o)
    (read : decodeAt b.bytecode o = .ok (some (i, next))) : o ∈ b.offsets := by
  have inside : o < b.bytecode.size := Instruction.lt_size_of_decodeAt (by simp [read])
  exact h.resolve_right (Nat.ne_of_lt inside)

/-- **From a boundary an instruction leads to the next one.** -/
theorem Boundary.step (h : b.Boundary o)
    (read : decodeAt b.bytecode o = .ok (some (i, next))) : b.Boundary next := by
  obtain ⟨-, is, reads⟩ := mem_offsets_iff.1 (h.mem read)
  exact boundary_of_reads (reads.snoc read)

/-- The line for an offset: the listing has it in its place, or the code ends there. -/
inductive Shows (b : Block) (o : Nat) (line : String) : Prop where
  | listed {before after : List Nat} (offsets : b.offsets = before ++ o :: after)
      (listing : b.listing = b.lines before ++ (line ++ "\n") ++ b.lines after)
  | ended (offset : o = b.bytecode.size) (line : line = margin o ++ "<end>")

/-- **The line for a boundary** is one of the listing, or that of the end. -/
theorem Boundary.shows (h : b.Boundary o) : b.Shows o (b.line o) := by
  rcases h with mem | rfl
  · obtain ⟨before, after, offsets⟩ := List.append_of_mem mem
    refine .listed offsets ?_
    rw [listing_eq, offsets, lines_append, lines_cons, ← String.append_assoc]
  · exact .ended rfl (line_of_size_le (Nat.le_refl _))

end Block

/-! ## Where calls stand -/

/-- The call stands at a boundary of its code, and carries out an instruction that the listing goes
through. -/
structure Call.Aligned (c : Call) : Prop where
  ip : c.code.block.Boundary c.ip
  current : ∀ o, c.current = some o → o ∈ c.code.block.offsets

namespace Call

variable {c : Call} {i : Instruction} {next : Nat}

theorem aligned_new (frame : FrameId) (code : Code) : Aligned { frame, code } :=
  ⟨code.block.boundary_zero, fun _ h => by cases h⟩

/-- Operands do not matter. -/
theorem Aligned.restack (h : c.Aligned) (stack : List Value) : Aligned { c with stack } :=
  ⟨h.ip, h.current⟩

/-- **A call that moves on stays aligned.** -/
theorem Aligned.moved (h : c.Aligned)
    (read : decodeAt c.code.block.bytecode c.ip = .ok (some (i, next))) :
    (c.moved next).Aligned :=
  ⟨h.ip.step read, fun _ same => Option.some.inj same ▸ h.ip.mem read⟩

/-- The offset that a trace shows is a boundary. -/
theorem Aligned.boundary (h : c.Aligned) : c.code.block.Boundary (c.current.getD c.ip) := by
  cases current : c.current with
  | none => exact h.ip
  | some o => exact .inl (h.current o current)

/-- The line of a trace for the call, up to the instruction. -/
def whereabouts (m : Memory) (c : Call) : String :=
  let place := ((m.frames.get? c.frame).map (·.place)).getD {}
  "    at " ++ Text.padLeft (c.text m) 50 ++ Text.padRight ("(" ++ place.text ++ ")") 20
    ++ " executing "

theorem traceLine_eq (m : Memory) (c : Call) :
    c.traceLine m = c.whereabouts m ++ c.code.block.line (c.current.getD c.ip) ++ "\n" := rfl

end Call

/-- All calls in progress are aligned. -/
def State.Aligned (s : State) : Prop := ∀ c ∈ s.calls.calls, c.Aligned

/-- The calls are aligned after a step; if it has failed, the trace shows them. -/
def Progress.Aligned : Progress → Prop
  | .running s | .finished _ s => s.Aligned
  | .failed f s => s.Aligned ∧ f.trace = s.calls.trace s.memory

theorem State.Aligned.resume {s : State} (h : s.Aligned) (v : Value) : (s.resume v).Aligned := by
  obtain ⟨memory, ⟨calls, depth, hd⟩⟩ := s
  cases calls with
  | nil => exact h
  | cons c rest =>
    obtain ⟨first, later⟩ := List.forall_mem_cons.1 h
    exact List.forall_mem_cons.2 ⟨first.restack _, later⟩

namespace Machine

variable {machine : Machine} {s t : State} {m : Memory} {c : Call} {rest : List Call}

theorem enter_aligned (machine : Machine) (h : s.Aligned) (callee : Callee) :
    (machine.enter s callee).Aligned := by
  by_cases room : s.calls.depth < machine.maxDepth
  · rw [enter_eq room]
    exact List.forall_mem_cons.2 ⟨Call.aligned_new _ _, h⟩
  · rw [enter_eq_fail room]
    exact ⟨h, rfl⟩

theorem logCalls_aligned {p : Progress} (h : p.Aligned) : (machine.logCalls p).Aligned :=
  logCalls_keeps (P := (·.Aligned)) h fun _ _ _ _ before => before

theorem finish_aligned (h : ∀ d ∈ rest, d.Aligned) (v : Value) :
    (finish ⟨m, .of (c :: rest)⟩ v).Aligned :=
  State.Aligned.resume (s := ⟨m.leave c, CallStack.drop (.of (c :: rest)) 1⟩) h v

theorem escape_aligned (h : s.Aligned) (c : Call) (v : Value) :
    (machine.escape s c v).Aligned := by
  rcases machine.escape_cases s c v with ⟨_, failed⟩ | ⟨n, returned⟩
  · rw [failed]
    exact ⟨h, rfl⟩
  · rw [returned]
    exact State.Aligned.resume (fun d hd => h d (List.mem_of_mem_drop hd)) v

theorem carryOut_aligned (h : ∀ d ∈ c :: rest, d.Aligned) (effect : Effect) :
    (machine.carryOut c rest effect).Aligned := by
  obtain ⟨first, later⟩ := List.forall_mem_cons.1 h
  have restacked (stack : List Value) (m : Memory) :
      State.Aligned ⟨m, .of ({ c with stack } :: rest)⟩ :=
    List.forall_mem_cons.2 ⟨first.restack stack, later⟩
  cases effect with
  | next stack m => exact logCalls_aligned (p := .running ⟨m, _⟩) (restacked stack m)
  | enter stack callee m =>
    exact logCalls_aligned (enter_aligned machine (restacked stack m) callee)
  | finish stack v m => exact finish_aligned later v
  | escape stack v m => exact escape_aligned (restacked stack m) _ v
  | fault stack cause m => exact ⟨restacked stack m, rfl⟩

/-- **A step keeps calls aligned**, whether it fails or not. -/
theorem step_aligned (machine : Machine) (h : s.Aligned) : (machine.step s).Aligned := by
  have steps := machine.step_stepsTo s
  generalize machine.step s = p at steps ⊢
  cases steps with
  | idle | unread | valueless => exact ⟨h, rfl⟩
  | ends => exact finish_aligned (List.forall_mem_cons.1 h).2 _
  | executes read _ _ =>
    obtain ⟨first, later⟩ := List.forall_mem_cons.1 h
    exact carryOut_aligned (List.forall_mem_cons.2 ⟨first.moved read, later⟩) _

theorem aligned_of_step (h : s.Aligned) {p : Progress} (hs : machine.step s = p) : p.Aligned :=
  hs ▸ step_aligned machine h

/-! ## Runs -/

/-- The states that a machine comes by, whatever a host does with it.  Nothing goes on at first, and
again whenever calls are over or dropped; a host can have any code entered on any values, and let it
run as far as it likes; and what is in memory can change in any way. -/
inductive Reaches (machine : Machine) : State → Prop where
  | rest (m : Memory) : Reaches machine ⟨m, .empty⟩
  | change {s : State} (reached : Reaches machine s) (m : Memory) :
      Reaches machine { s with memory := m }
  | enter {s t : State} (reached : Reaches machine s) {callee : Callee}
      (entered : machine.enter s callee = .running t) : Reaches machine t
  | step {s t : State} (reached : Reaches machine s) (hs : machine.step s = .running t) :
      Reaches machine t
  | finish {s t : State} (reached : Reaches machine s) {v : Value}
      (hs : machine.step s = .finished v t) : Reaches machine t
  | fail {s t : State} (reached : Reaches machine s) {f : Failure}
      (hs : machine.step s = .failed f t) : Reaches machine t

/-- **All along every run, calls are aligned.** -/
theorem Reaches.aligned (reached : machine.Reaches s) : s.Aligned := by
  induction reached with
  | rest m => exact List.forall_mem_nil _
  | change _ m ih => exact ih
  | @enter s t _ callee entered ih =>
    have after := enter_aligned machine ih callee
    rw [entered] at after
    exact after
  | step _ hs ih => exact aligned_of_step ih hs
  | finish _ hs ih => exact aligned_of_step ih hs
  | fail _ hs ih => exact (aligned_of_step ih hs).1

/-- The states of sessions are among these. -/
theorem reaches_of_session {store : Store} {transcript : Transcript} {x : Session}
    (reached : Relation.ReflTransGen (Session.Move machine) (Session.start store transcript) x) :
    machine.Reaches x.state := by
  induction reached with
  | refl => exact .rest _
  | tail _ moved ih =>
    cases moved with
    | step hs => exact ih.step hs
    | finish hs => exact ih.finish hs
    | fail hs => exact ih.fail hs
    | abandon => exact .rest _
    | enter _ hs => exact (ih.change _).enter hs
    | plain | read | forget => exact ih
    | answer | string | array | object | write | census => exact ih.change _

/-- The trace shows the calls of a state that the machine comes by. -/
def Traces (machine : Machine) (f : Failure) : Prop :=
  ∃ t, machine.Reaches t ∧ f.trace = t.calls.trace t.memory

/-- The failure, if there is one, has such a trace. -/
def Outcome.Traced (machine : Machine) : Outcome → Prop
  | .value _ _ => True
  | .failure f _ => machine.Traces f

theorem Reaches.traces (reached : machine.Reaches s) (cause : Cause) :
    machine.Traces (s.failure cause) := ⟨s, reached, rfl⟩

theorem Reaches.traces_of_step (reached : machine.Reaches s) {f : Failure}
    (hs : machine.step s = .failed f t) : machine.Traces f :=
  ⟨t, reached.fail hs, (aligned_of_step reached.aligned hs).2⟩

theorem Reaches.traces_of_enter (reached : machine.Reaches s) {callee : Callee} {f : Failure}
    (full : machine.enter s callee = .failed f t) : machine.Traces f := by
  rcases Session.enter_cases machine s callee with ⟨s', entered⟩ | failed
  · cases entered.symm.trans full
  · cases failed.symm.trans full
    exact reached.traces _

theorem run_traced (reached : machine.Reaches s) : (machine.run s).Traced machine := by
  fun_induction machine.run s with
  | case1 s after hstep ih => exact ih (reached.step hstep)
  | case2 s v after hstep => trivial
  | case3 s f after hstep => exact reached.traces_of_step hstep

/-- A new call is entered and run, or there is no room for it. -/
theorem enter_traced (reached : machine.Reaches s) (callee : Callee) :
    (machine.outcome (machine.enter s callee)).Traced machine := by
  cases entered : machine.enter s callee with
  | running t => exact run_traced (reached.enter entered)
  | finished v t => trivial
  | failed f t => exact reached.traces_of_enter entered

theorem concluded_traced (machine : Machine) (reply : Reply) :
    (machine.concluded reply).Traced machine := by
  cases reply with
  | answer v m => trivial
  | fault cause m => exact (Reaches.rest m).traces cause
  | enter callee m =>
    have told : (machine.outcome (machine.enter ⟨m, .empty⟩ callee)).Traced machine :=
      enter_traced (.rest m) callee
    rw [concluded]
    cases ended : machine.outcome (machine.enter ⟨m, .empty⟩ callee) with
    | value v t => trivial
    | failure f t =>
      rw [ended] at told
      exact told

theorem perform_traced (machine : Machine) (s : State) (receiver : Value) (code : Code)
    (args : List Value) : (machine.perform s receiver code args).Traced machine := by
  rw [perform_eq]
  exact concluded_traced machine _

/-- **What a host call fails with shows the calls of a state of the machine.** -/
theorem handle_traced (reached : machine.Reaches s) (call : HostCall) :
    (machine.handle s call).Traced machine := by
  cases call with
  | perform receiver code args => exact perform_traced machine s receiver code args
  | send receiver selector args =>
    simp only [handle, send]
    split
    · exact perform_traced machine s _ _ _
    · exact reached.traces _
  | main =>
    simp only [handle, runMain]
    split
    · trivial
    · split
      · exact reached.traces _
      · exact perform_traced machine _ _ _ _

/-- A failure that comes up when the machine is in a given state: a step fails, or the host is told
of it. -/
inductive Reports (machine : Machine) (s : State) (f : Failure) : Prop where
  | step {t : State} (hs : machine.step s = .failed f t)
  | call {call : HostCall} {t : State} (told : machine.handle s call = .failure f t)
  | newInstance {className : String} {t : State}
      (told : machine.newInstance s className = .failure f t)
  | primitive {p : Primitive} {receiver : Value} {args : List Value} {t : State}
      (told : machine.performPrimitive s p receiver args = .failure f t)
  /-- The host makes the failure itself. -/
  | cause {cause : Cause} (made : f = s.failure cause)

theorem Reports.traces {f : Failure} (told : machine.Reports s f) (reached : machine.Reaches s) :
    machine.Traces f := by
  cases told with
  | step hs => exact reached.traces_of_step hs
  | @call call t told =>
    have traced := handle_traced reached call
    rw [told] at traced
    exact traced
  | @newInstance className t told =>
    unfold Machine.newInstance at told
    split at told
    · cases told
    · cases told
      exact reached.traces _
  | @primitive p receiver args t told =>
    obtain ⟨m, calls⟩ := s
    unfold performPrimitive at told
    dsimp only at told
    split at told
    · cases told
    · cases told
      exact (reached.change _).traces _
    · rename_i callee m' replied
      split at told <;> cases told
      exact (reached.change m').traces_of_enter ‹_›
  | cause made => exact made ▸ reached.traces _

end Machine

/-! ## Listings and traces agree -/

/-- **Listings and traces agree.**  Whatever the code of a block is: its listing goes through the
offsets, in order, where a decoder has stood that is asked again and again from the first byte
on and has an instruction or an error to report; it has, one after another, the lines that are shown
for these offsets by themselves; and from the end of the code on there is the line of the end.

Whatever code a machine runs, and however a host uses it, in a session or otherwise: every call
stands at one of these offsets or at the end of its code, and so it does once it has moved on to its
next instruction; the instruction that it carries out is at one of these offsets.  And in the trace
of every failure, the line of each call shows a line of the listing of its code, at the same offset,
or the end. -/
theorem traces_match_listings :
    (∀ b : Block,
      b.offsets.Pairwise (· < ·)
      ∧ (∀ k, b.offsets[k]? = (({ bytes := b.bytecode } : Decoder).asked k).next.1.map
          fun _ => (({ bytes := b.bytecode } : Decoder).asked k).offset)
      ∧ b.listing = b.lines b.offsets
      ∧ ∀ o, b.bytecode.size ≤ o → b.line o = Block.margin o ++ "<end>")
    ∧ ∀ machine : Machine,
      (∀ store transcript x,
        Relation.ReflTransGen (Session.Move machine) (Session.start store transcript) x →
        machine.Reaches x.state)
      ∧ ∀ s, machine.Reaches s →
        (∀ c ∈ s.calls.calls, c.Aligned
          ∧ ∀ i next, decodeAt c.code.block.bytecode c.ip = .ok (some (i, next)) →
            (c.moved next).Aligned)
        ∧ ∀ f, machine.Reports s f → ∃ t, machine.Reaches t
          ∧ f.trace = String.join (t.calls.calls.map (·.traceLine t.memory))
          ∧ ∀ c ∈ t.calls.calls, ∃ line,
            c.traceLine t.memory = c.whereabouts t.memory ++ line ++ "\n"
            ∧ c.code.block.Shows (c.current.getD c.ip) line := by
  refine ⟨fun b => ?_, fun machine => ⟨fun _ _ _ => Machine.reaches_of_session,
    fun s reached => ⟨fun c hc => ?_, fun f told => ?_⟩⟩⟩
  · have lists := Instruction.decodeFrom_lists b.bytecode 0
    exact ⟨lists.pairwise_offsets, lists.offsets_getElem?, b.listing_eq,
      fun o => Block.line_of_size_le⟩
  · have aligned := reached.aligned c hc
    exact ⟨aligned, fun i next => aligned.moved⟩
  · obtain ⟨t, reached, trace⟩ := told.traces reached
    refine ⟨t, reached, trace, fun c hc => ⟨_, c.traceLine_eq t.memory, ?_⟩⟩
    exact (reached.aligned c hc).boundary.shows

/-- Code whose second byte is no opcode. -/
def halfReadable : Code :=
  { block := { name := "half", qualified := "half", bytecode := #[0, 255] }, id := { method := 0 } }

/-- After its first instruction the call of `halfReadable` stands where reading fails, as the
listing shows; so the next step fails, and the trace shows the first instruction. -/
theorem traces_match_listings_half :
    ∃ (machine : Machine) (s : State) (c : Call) (f : Failure),
      machine.Reaches s ∧ s.calls.calls = [c] ∧ c.code = halfReadable ∧ c.ip = 1
      ∧ c.current = some 0 ∧ c.Aligned ∧ c.code.block.offsets = [0, 1]
      ∧ c.code.block.listing = "0000:  nil\n0001:  <unknown opcode 0xff at offset 1>\n"
      ∧ machine.Reports s f ∧ f.trace = c.whereabouts s.memory ++ "0000:  nil\n"
      ∧ ∃ t, machine.Reaches t ∧ f.trace = String.join (t.calls.calls.map (·.traceLine t.memory))
        ∧ ∀ c ∈ t.calls.calls, ∃ line,
          c.traceLine t.memory = c.whereabouts t.memory ++ line ++ "\n"
          ∧ c.code.block.Shows (c.current.getD c.ip) line := by
  let machine : Machine := { image := default }
  have first : decodeAt halfReadable.block.bytecode 0 = .ok (some (.pushNil, 1)) := by decide
  have second : decodeAt halfReadable.block.bytecode 1 = .error (.unknownOpcode 255 1) := by decide
  obtain ⟨m, frame, stack, reached⟩ : ∃ m frame stack,
      machine.Reaches ⟨m, .of [⟨frame, halfReadable, 1, some 0, stack⟩]⟩ := by
    have entered : machine.enter (Machine.start {} {}) (.method halfReadable .nil []) = _ :=
      Machine.enter_eq (show 0 < 10000 by decide) _
    exact ⟨_, _, _, ((Machine.Reaches.rest _).enter entered).step (Machine.step_next rfl first rfl)⟩
  let c : Call := ⟨frame, halfReadable, 1, some 0, stack⟩
  obtain ⟨f, failed, trace⟩ : ∃ f, machine.step ⟨m, .of [c]⟩ = .failed f ⟨m, .of [c]⟩
      ∧ f.trace = CallStack.trace (.of [c]) m :=
    ⟨_, by simp only [Machine.step, CallStack.of, c, second]; rfl, rfl⟩
  have offsets : halfReadable.block.offsets = [0, 1] := by
    have found : decodeFrom halfReadable.block.bytecode 0
        = ⟨[(0, .pushNil)], some (.unknownOpcode 255 1), 1⟩ := by cbv
    rw [Block.offsets, found]
    rfl
  have line : halfReadable.block.line 0 = "0000:  nil" := by decide +kernel
  obtain ⟨blocks, runs⟩ := traces_match_listings
  obtain ⟨-, -, listing, -⟩ := blocks halfReadable.block
  obtain ⟨calls, failures⟩ := (runs machine).2 _ reached
  have told : machine.Reports _ f := .step failed
  refine ⟨machine, _, c, f, reached, rfl, rfl, rfl, rfl, (calls c (List.mem_singleton_self c)).1,
    offsets, ?_, told, ?_, failures f told⟩
  · show halfReadable.block.listing = _
    rw [listing, offsets]
    decide +kernel
  · calc f.trace = c.traceLine m ++ "" := trace.trans String.join_cons
      _ = c.whereabouts m ++ (halfReadable.block.line 0 ++ "\n") := by
        rw [String.append_empty, c.traceLine_eq, String.append_assoc]
        rfl
      _ = c.whereabouts m ++ "0000:  nil\n" := by
        rw [line]
        rfl

end Colloquy
