import Colloquy.Proofs.Counted.Settling

/-!
# Closures never dangle

With counted pins, the frame of a closure stays for as long as the closure has a reference anywhere,
and so do the frames around it, up to the closure's home; and a frame goes as soon as its last pin
has been let go after its call.

Main statement: `Counted.closures_never_dangle`, which is about sessions whose frames go by counted
pins, about sessions whose frames go by a census, and about what the two have to do with each other.
-/

namespace Colloquy

namespace Counted

variable {machine : Machine} {x : Counted}

/-- A value that is held anywhere is in order. -/
theorem Sound.of_holds (h : x.Sound machine) {v : Value} (hv : x.session.Holds v) :
    v.Each (· ∈ x.closures) fun r => r < x.store.rows.size ∧ r ∉ x.gone := by
  induction hv with
  | host hv => exact h.values _ (.host hv)
  | operand hc hv => exact h.values _ (.operand hc hv)
  | slot here hv => exact h.values _ (.slot here hv)
  | self here => exact h.values _ (.self here)
  | left here hv => exact h.values _ (.left here hv)
  | @element v w r _ names hw ih =>
    have row : r < x.store.rows.size ∧ r ∉ x.gone := by
      cases v with
      | array r' | object _ r' =>
        cases names
        exact ih
      | _ => cases names
    exact h.values w (.element row.1 row.2 hw)
  | receiver _ ih => exact (Value.each_block.1 ih).2

/-- What is held has not been dropped, so it finds its frame and its home. -/
theorem Sound.rooted (h : x.Sound machine) : x.session.Rooted where
  closures c hc := by
    have there := (Value.each_block.1 (h.of_holds hc)).1
    obtain ⟨fr, here, home⟩ := h.upkeep.home c there
    exact ⟨(h.made c there).maker, (h.made c there).home, home ▸ h.upkeep.belongs _ fr here⟩
  calls call hc := by
    obtain ⟨fr, here, code⟩ := h.upkeep.code call.who (List.mem_map_of_mem hc)
    exact ⟨fr, here, code, h.upkeep.belongs _ fr here⟩

/-- A run of moves that take no census is one with counted pins, in which nothing is dropped. -/
theorem reached_of_uncounted {store : Store} {transcript : Transcript} {s : Session}
    (reached : Relation.ReflTransGen (Session.Uncounted machine)
      (Session.start store transcript) s) :
    Relation.ReflTransGen (Move machine) (start store transcript) ⟨s, s.history.closures, []⟩ := by
  induction reached with
  | refl => exact .refl
  | @tail s t _ hm ih =>
    have moved : ∃ made, t.history.closures = made ++ s.history.closures := by
      rcases hm.move.closes with same | ⟨c, -, -, new⟩
      · exact ⟨[], same⟩
      · exact ⟨[c], new⟩
    obtain ⟨made, new⟩ := moved
    have moved : Move machine ⟨s, s.history.closures, []⟩ ⟨t, made ++ s.history.closures, []⟩ :=
      .move hm new
    rw [← new] at moved
    exact ih.tail moved

/-- **Closures never dangle.**  Whatever has been loaded and run, and in whatever order closures,
arrays and objects are dropped after their last reference has gone: every closure that is held
anywhere is still there with its pin, finds the very frame that made it, and its home from there,
and so do the calls in progress.  A frame has exactly the pins of the closures that it made and that
have not been dropped, and of the frames that it is around.  Letting go comes to an end, always with
the frames that a census leaves, and as many as it counts.

The same closures find their frames where frames go by a census alone. -/
theorem closures_never_dangle {classes : List LoadClass} {log : Log} {store : Store}
    {transcript : Transcript} (loaded : Image.load classes = (log, .ok (machine.image, store))) :
    (∀ x, Relation.ReflTransGen (Move machine) (start store transcript) x →
      x.session.Rooted
        ∧ (∀ c, x.session.Holds (.block c) → c ∈ x.closures)
        ∧ (∀ f, x.frames.pinCount f
          = (x.closures.map (·.enclosing)).count f + x.frames.enclosed f)
        ∧ (∃ y, Relation.ReflTransGen (LetsGo machine.image) x y ∧ y.Settled machine.image)
        ∧ ∀ y, Relation.ReflTransGen (LetsGo machine.image) x y → y.Settled machine.image →
          (∀ f, y.frames.get? f
            = (machine.census x.session.state x.session.host).1.memory.frames.get? f)
          ∧ y.frames.live = (machine.census x.session.state x.session.host).2)
    ∧ ∀ x, Relation.ReflTransGen (Session.Move machine) (Session.start store transcript) x →
      x.Rooted := by
  refine ⟨fun x reached => ?_, fun x reached => Session.rooted_of_reached loaded reached⟩
  have sound : x.Sound machine := .of_reached loaded reached
  refine ⟨sound.rooted, fun c hc => (Value.each_block.1 (sound.of_holds hc)).1, fun f => ?_,
    exists_settled machine.image x, fun y goes settled => sound.census_of_settled goes settled⟩
  have accounts := sound.upkeep.orderly.accounts f
  rw [Arena.gripped_eq, List.count_nil] at accounts
  exact accounts.symm

/-- A machine that has carried out one block instruction: the frame that made the closure is pinned
by it. -/
theorem closures_never_dangle_once :
    ∃ (machine : Machine) (store : Store) (x : Counted) (c : Closure Value),
      Relation.ReflTransGen (Move machine) (start store {}) x ∧ x.session.Holds (.block c)
      ∧ x.session.state.memory.frames.Belongs c.enclosing c.home
      ∧ 0 < x.frames.pinCount c.enclosing := by
  obtain ⟨log, image, store, loaded⟩ := Session.bareClasses_load
  have first : Session.Move { image } (Session.start store {})
      ⟨Machine.start store {}, [.nil], {}⟩ := .plain (.inl trivial)
  obtain ⟨R, hx⟩ := (Session.coherent_start loaded {}).move first
  have room : (Machine.start store {}).calls.depth < ({ image } : Machine).maxDepth :=
    show 0 < 10000 by decide
  have plain : ∀ v ∈ (Callee.method Session.closureMaker .nil []).values,
      (Machine.start store {}).memory.frames.Sound (Session.Made {} 0) R v := by
    rintro v (_ | ⟨_, ⟨⟩⟩)
    trivial
  obtain ⟨id, m, entered, -, made⟩ := Machine.enter_created hx plain room
  have second : Session.Move { image } ⟨Machine.start store {}, [.nil], {}⟩ _ :=
    .enter (.method Session.closureMaker List.mem_cons_self (List.forall_mem_nil _)) entered
  have decoded : Instruction.decodeAt Session.closureMaker.block.bytecode 0
      = .ok (some (.block 0, 3)) := by
    decide
  have here : m.frame id = .ok (Frame.ofMethod .nil Session.closureMaker .nil [] none id) := by
    simp only [Memory.frame, made.get?]
    rfl
  have makes : State.closure? ⟨m, CallStack.push (Machine.start store {}).calls
        { frame := id, code := Session.closureMaker }⟩ = (m.closure id 0).toOption := by
    simp only [State.closure?, CallStack.calls_push, decoded]
    rfl
  obtain ⟨c, hc⟩ : ∃ c, m.closure id 0 = .ok c :=
    ⟨_, Checked.bind_eq_ok.2 ⟨_, here, Checked.bind_eq_ok.2 ⟨_, here, rfl⟩⟩⟩
  rw [hc] at makes
  obtain ⟨-, -, s, stepped, -, call, hcall, onTop⟩ := Session.step_of_closure? { image } makes
  -- the second move begins a call, and the third one changes its operands
  have enters : Session.Uncounted { image } ⟨Machine.start store {}, [.nil], {}⟩ _ :=
    ⟨second, fun same =>
      absurd (congrArg (fun s : State => s.calls.calls) same) (List.cons_ne_nil _ _)⟩
  have other : s.calls.calls ≠ [{ frame := id, code := Session.closureMaker }] := fun calls => by
    rw [calls] at hcall
    cases List.mem_singleton.1 hcall
    cases onTop
  have uncounted := ((Relation.ReflTransGen.single ⟨first, fun _ => rfl⟩).tail enters).tail
    ⟨.step stepped, fun same => absurd (congrArg (fun s : State => s.calls.calls) same) other⟩
  have reached := reached_of_uncounted uncounted
  obtain ⟨rooted, kept, pins, -⟩ := (closures_never_dangle loaded).1 _ reached
  refine ⟨{ image }, store, _, c, reached, .operand hcall onTop,
    (rooted.closures c (.operand hcall onTop)).2.2, ?_⟩
  rw [pins]
  exact Nat.add_pos_left
    (List.count_pos_iff.2 (List.mem_map_of_mem (kept c (.operand hcall onTop)))) _

end Counted

end Colloquy
