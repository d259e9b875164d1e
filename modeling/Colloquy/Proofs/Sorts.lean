import Colloquy.Proofs.Disciplines

/-!
# Rows of arrays and rows of objects

Arrays and objects share one store.  A row is made either for the elements of an array or for the
fields of an object, and all values that name it ever after are of that sort: values are copied, but
never change, and new ones name new rows.  `kinds` lists what the rows of a store were made for.

Main statement: no array that is held has the row of an object that is held
(`Session.rows_apart`).
-/

namespace Colloquy

variable {kinds kinds' : List RowKind}

/-- The rows that the value names are of its sort. -/
def Value.Sorted (kinds : List RowKind) : Value → Prop
  | .array r => kinds[r]? = some .elements
  | .object _ r => kinds[r]? = some .fields
  | .block ⟨_, _, _, _, receiver⟩ => receiver.Sorted kinds
  | _ => True

namespace Value

variable {v : Value}

theorem sorted_block {c : Closure Value} :
    (Value.block c).Sorted kinds ↔ c.receiver.Sorted kinds := by
  cases c
  rfl

theorem Simple.sorted (h : v.Simple) : v.Sorted kinds := by
  cases v with
  | array r | object c r | block c | cls c => exact h.elim
  | _ => trivial

theorem kind_mono (more : kinds <+: kinds') {r : Ref} {kind : RowKind}
    (h : kinds[r]? = some kind) : kinds'[r]? = some kind := by
  obtain ⟨there, rfl⟩ := List.getElem?_eq_some_iff.1 h
  exact List.prefix_iff_getElem?.1 more r there

/-- What was made before more rows were made. -/
theorem Sorted.mono (more : kinds <+: kinds') : ∀ {v : Value}, v.Sorted kinds → v.Sorted kinds'
  | .array _, h | .object _ _, h => kind_mono more h
  | .block ⟨_, _, _, _, receiver⟩, h => mono (v := receiver) more h
  | .nil, _ | .bool _, _ | .int _, _ | .float _, _ | .char _, _ | .string _ _, _ | .cls _, _ =>
    trivial

end Value

/-- Values are in order if the rows that they name are of their sorts. -/
def sorting : Discipline (List RowKind) where
  Fits kinds v := v.Sorted kinds
  Live _ _ := True
  size := List.length
  grow kinds kind := kinds ++ [kind]
  simple := Value.Simple.sorted
  cls := trivial
  receiver := Value.sorted_block.1
  array _ := trivial
  object _ := trivial
  mono _ := Value.Sorted.mono (List.prefix_append _ _)
  size_grow _ _ := List.length_append
  live_grow _ := .inl trivial
  newArray _ := List.getElem?_concat_length
  newObject _ _ := List.getElem?_concat_length

namespace Session

variable {machine : Machine} {x x' : Session}

/-- Everything is sorted in every session. -/
theorem sorted_of_reached {classes : List LoadClass} {log : Log} {store : Store}
    {transcript : Transcript} (loaded : Image.load classes = (log, .ok (machine.image, store)))
    (reached : Relation.ReflTransGen (Move machine) (start store transcript) x) :
    ∃ kinds, x.InOrder sorting machine kinds := by
  induction reached with
  | refl =>
    obtain ⟨cls, object, rfl⟩ := load_eq loaded
    have empty : sorting.InMemory [] { frames := { birth := 1 }, transcript } := by
      refine ⟨rfl, fun r _ v hv => ?_, fun f fr here => ?_⟩
      · simp [Store.row] at hv
      · cases here
    have nils : ∀ v ∈ Array.replicate cls.numFields Value.nil, v.Sorted [] := fun v hv => by
      rw [Array.eq_of_mem_replicate hv]
      trivial
    have memory : sorting.InMemory _
        (start ⟨#[Array.replicate cls.numFields .nil]⟩ transcript).state.memory :=
      empty.add nils .fields rfl rfl
    refine ⟨[.fields], ⟨memory, List.forall_mem_nil _⟩, ?_, List.forall_mem_nil _⟩
    rw [object]
    exact rfl
  | tail before hm ih =>
    obtain ⟨kinds, ordered⟩ := ih
    have attended := attended_of_reached before
    obtain ⟨kinds', -, after⟩ := hm.inOrder ordered (Arena.Attended.tidy attended)
      fun c _ receiver => Value.sorted_block.2 receiver
    exact ⟨kinds', after⟩

/-- **Arrays and objects have rows of their own**, whatever has been loaded and run. -/
theorem rows_apart {classes : List LoadClass} {log : Log} {store : Store}
    {transcript : Transcript} (loaded : Image.load classes = (log, .ok (machine.image, store)))
    (reached : Relation.ReflTransGen (Move machine) (start store transcript) x) {r q : Ref}
    {cls : Class} (array : x.Holds (.array r))
    (object : x.Holds (.object cls q) ∨ machine.image.transcript = .object cls q) : r ≠ q := by
  rintro rfl
  obtain ⟨kinds, ordered⟩ := sorted_of_reached loaded reached
  have elements : kinds[r]? = some .elements := array.fits ordered
  have fields : kinds[r]? = some .fields := by
    rcases object with object | object
    · exact object.fits ordered
    · have shown := ordered.transcript
      rw [object] at shown
      exact shown
  cases elements.symm.trans fields

end Session

end Colloquy
