import Colloquy.Proofs.Sorts

/-!
# Arrays

An array is a row of the store, and whatever names the row shares what is in it: all that `at:put:`
changes is one place of one row.  Indices count from one (`Store.element?`).

Main statement: reading, storing, the size and making arrays fit together, and a failure changes
nothing (`Primitive.arrays_obey_laws`).
-/

namespace Colloquy

/-! ## Elements -/

namespace Store

/-- The element of a row that a one-based index names. -/
def element? (s : Store) (r : Ref) (k : Int32) : Option Value :=
  if 1 ≤ k.toInt then (s.row r)[k.toInt.toNat - 1]? else none

variable {s : Store} {r r' : Ref} {j k : Int32} {v : Value}

theorem exists_element (inside : 1 ≤ k.toInt ∧ k.toInt ≤ (s.row r).size) :
    ∃ w, s.element? r k = some w := by
  rw [element?, if_pos inside.1]
  exact ⟨_, Array.getElem?_eq_getElem (by omega)⟩

/-- What is put into a place is there. -/
theorem element?_set_self (inside : 1 ≤ k.toInt ∧ k.toInt ≤ (s.row r).size) :
    (s.set r (k.toInt.toNat - 1) v).element? r k = some v := by
  rw [element?, if_pos inside.1, row_set_self]
  exact Array.getElem?_setIfInBounds_self_of_lt (by omega)

/-- Putting a value into a place changes no other one. -/
theorem element?_set_of_ne (inside : 1 ≤ k.toInt) (other : ¬ (r' = r ∧ j = k)) :
    (s.set r (k.toInt.toNat - 1) v).element? r' j = s.element? r' j := by
  unfold element?
  split
  · by_cases same : r' = r
    · subst same
      have apart : j.toInt ≠ k.toInt := fun h => other ⟨rfl, Int32.toInt_inj.1 h⟩
      rw [row_set_self, Array.getElem?_setIfInBounds_ne (by omega)]
    · rw [row_set_of_ne (Ne.symm same)]
  · rfl

/-- The size of a row stays the same. -/
theorem size_row_set (s : Store) (r : Ref) (place : Nat) (v : Value) (r' : Ref) :
    ((s.set r place v).row r').size = (s.row r').size := by
  by_cases same : r = r'
  · rw [same, row_set_self, Array.size_setIfInBounds]
  · rw [row_set_of_ne same]

/-- The elements of a new row of equal values. -/
theorem element?_add_replicate {n : Nat} (inside : 1 ≤ k.toInt ∧ k.toInt ≤ n) :
    (s.add (Array.replicate n v)).1.element? (s.add (Array.replicate n v)).2 k = some v := by
  rw [element?, if_pos inside.1, row_add_self, Array.getElem?_replicate, if_pos (by omega)]

end Store

namespace Value

variable {b w : Value} {r : Ref}

/-- An array is identical to what names the same row, and to nothing else. -/
theorem identical_array : b.identical (.array r) = true ↔ b = .array r := by
  cases b <;> simp [identical]

/-- A row that is none of those of the values. -/
theorem identical_array_of_ne (other : ∀ r', w = .array r' → r ≠ r') :
    (Value.array r).identical w = false := by
  cases w with
  | array r' => exact decide_eq_false (other r' rfl)
  | _ => rfl

end Value

namespace Primitive

variable {i : Image} {m : Memory} {r : Ref} {k : Int32} {b v w : Value}

/-! ## Reading and storing -/

theorem offset_inside {size : Nat} (inside : 1 ≤ k.toInt ∧ k.toInt ≤ size) :
    offset k size = .ok (k.toInt.toNat - 1) := if_pos inside

theorem offset_outside {size : Nat} (outside : ¬ (1 ≤ k.toInt ∧ k.toInt ≤ size)) :
    offset k size = .error (.indexOutOfBounds k.toInt size) := if_neg outside

theorem apply_arrayAt (there : m.store.element? r k = some w) :
    arrayAt.apply i m (.array r) [.int k] = .answer w m := by
  unfold Store.element? at there
  split at there
  · rename_i first
    obtain ⟨within, rfl⟩ := Array.getElem?_eq_some_iff.1 there
    show answer m (offset k _ >>= _) = _
    rw [offset_inside ⟨first, by omega⟩]
    exact congrArg (Reply.answer · m) (Array.getD_eq_getD_getElem?.trans (by rw [there]; rfl))
  · cases there

theorem apply_arrayAt_outside
    (outside : ¬ (1 ≤ k.toInt ∧ k.toInt ≤ (m.store.row r).size)) :
    arrayAt.apply i m (.array r) [.int k]
      = .fault (.indexOutOfBounds k.toInt (m.store.row r).size) m := by
  show answer m (offset k _ >>= _) = _
  rw [offset_outside outside]
  rfl

/-- What `at:` answers is an element of the row that the receiver names. -/
theorem apply_arrayAt_iff :
    arrayAt.apply i m b [.int k] = .answer w m
      ↔ ∃ r, b = .array r ∧ m.store.element? r k = some w := by
  refine ⟨fun answers => ?_, fun ⟨r, of, there⟩ => of ▸ apply_arrayAt there⟩
  cases b with
  | array r =>
    by_cases inside : 1 ≤ k.toInt ∧ k.toInt ≤ (m.store.row r).size
    · obtain ⟨w', there⟩ := Store.exists_element inside
      rw [apply_arrayAt there] at answers
      cases answers
      exact ⟨r, rfl, there⟩
    · rw [apply_arrayAt_outside inside] at answers
      cases answers
  | _ => cases answers

theorem apply_arrayAtPut (inside : 1 ≤ k.toInt ∧ k.toInt ≤ (m.store.row r).size) :
    arrayAtPut.apply i m (.array r) [.int k, v]
      = .answer v { m with store := m.store.set r (k.toInt.toNat - 1) v } := by
  show putAnswer m (offset k _ >>= _) = _
  rw [offset_inside inside]
  rfl

theorem apply_arrayAtPut_outside
    (outside : ¬ (1 ≤ k.toInt ∧ k.toInt ≤ (m.store.row r).size)) :
    arrayAtPut.apply i m (.array r) [.int k, v]
      = .fault (.indexOutOfBounds k.toInt (m.store.row r).size) m := by
  show putAnswer m (offset k _ >>= _) = _
  rw [offset_outside outside]
  rfl

theorem apply_arrayAt_other (other : ∀ n, b ≠ .int n) :
    arrayAt.apply i m (.array r) [b] = .fault (.wrongType "Integer" (i.className b)) m := by
  show answer m (expectInt i b >>= _) = _
  rw [expectInt_other other]
  rfl

theorem apply_arrayAtPut_other (other : ∀ n, b ≠ .int n) :
    arrayAtPut.apply i m (.array r) [b, v] = .fault (.wrongType "Integer" (i.className b)) m := by
  show putAnswer m (expectInt i b >>= _) = _
  rw [expectInt_other other]
  rfl

/-! ## Making arrays -/

theorem ofNat_toNat_toInt (positive : 0 ≤ k.toInt) : Int32.ofNat k.toInt.toNat = k := by
  have := k.toInt_lt
  rw [← Int32.toInt_inj, Int32.toInt_ofNat_of_lt (by omega)]
  omega

theorem apply_arrayNew (allowed : 0 ≤ k.toInt ∧ k.toInt ≤ 2 ^ 24) :
    arrayNew.apply i m b [.int k]
      = .answer (m.newArray (Array.replicate k.toInt.toNat .nil)).2
        (m.newArray (Array.replicate k.toInt.toNat .nil)).1 := by
  have size : arraySizeArg i [.int k] = .ok k.toInt.toNat := by
    show (if k.toInt < 0 then _ else if k.toInt > maxArraySize then _ else _) = _
    rw [if_neg (by omega), if_neg (by simp [maxArraySize]; omega)]
    rfl
  unfold apply
  rw [size]
  rfl

theorem apply_arrayNew_refused (refused : ¬ (0 ≤ k.toInt ∧ k.toInt ≤ 2 ^ 24)) :
    ∃ cause, arrayNew.apply i m b [.int k] = .fault cause m ∧ cause.kind = .indexOutOfRange := by
  have size : ∃ cause, arraySizeArg i [.int k] = .error cause ∧ cause.kind = .indexOutOfRange := by
    by_cases negative : k.toInt < 0
    · exact ⟨_, if_pos negative, rfl⟩
    · refine ⟨.oversized k.toInt, ?_, rfl⟩
      show (if k.toInt < 0 then _ else if k.toInt > maxArraySize then _ else _) = _
      rw [if_neg negative, if_pos (by simp [maxArraySize]; omega)]
      rfl
  obtain ⟨cause, size, kind⟩ := size
  refine ⟨cause, ?_, kind⟩
  unfold apply
  rw [size]
  rfl

end Primitive

/-- An array that is held has been made. -/
theorem Session.row_made {machine : Machine} {classes : List LoadClass} {log : Log} {store : Store}
    {transcript : Transcript} {x : Session}
    (loaded : Image.load classes = (log, .ok (machine.image, store)))
    (reached : Relation.ReflTransGen (Move machine) (start store transcript) x) {r : Ref}
    (held : x.Holds (.array r)) : r < x.state.memory.store.rows.size := by
  obtain ⟨kinds, ordered⟩ := sorted_of_reached loaded reached
  have elements : kinds[r]? = some .elements := held.fits ordered
  rw [← ordered.state.memory.size]
  exact (List.getElem?_eq_some_iff.1 elements).1

namespace Primitive

/-- **Arrays keep what is put into them.**  In any memory, take an array, an integer and a value.

* If the integer names an element, `at:` answers one and `at:put:` the value.  Then `at:` answers
  the value there through whatever is identical to the array; at any other place and in any other
  array it answers what it would have answered before, the sizes are what they were, and nothing
  else has changed.
* If it names none, both fail, and if the index is no integer, they fail too; then nothing has
  changed.
* `new:` makes an array if and only if the size is neither negative nor over `2 ^ 24`: one of as
  many `nil`s, identical to no row that was there, and so to no array that anything holds. -/
theorem arrays_obey_laws (i : Image) (m : Memory) (r : Ref) (k : Int32) (v : Value) :
    (1 ≤ k.toInt ∧ k.toInt ≤ (m.store.row r).size →
      (∃ w, arrayAt.apply i m (.array r) [.int k] = .answer w m)
      ∧ ∃ s m', m' = { m with store := s }
        ∧ arrayAtPut.apply i m (.array r) [.int k, v] = .answer v m'
        ∧ (∀ b : Value, b.identical (.array r) = true →
          arrayAt.apply i m' b [.int k] = .answer v m'
          ∧ arraySize.apply i m' b [] = .answer (.int (Int32.ofNat (m.store.row r).size)) m')
        ∧ (∀ (b : Value) (j : Int32), ¬ (b.identical (.array r) = true ∧ j = k) → ∀ w,
          arrayAt.apply i m' b [.int j] = .answer w m' ↔ arrayAt.apply i m b [.int j] = .answer w m)
        ∧ (∀ r' ≠ r, s.row r' = m.store.row r')
        ∧ (s.row r).size = (m.store.row r).size)
    ∧ (¬ (1 ≤ k.toInt ∧ k.toInt ≤ (m.store.row r).size) → ∃ cause, cause.kind = .indexOutOfRange
      ∧ arrayAt.apply i m (.array r) [.int k] = .fault cause m
      ∧ arrayAtPut.apply i m (.array r) [.int k, v] = .fault cause m)
    ∧ (∀ b : Value, (∀ n, b ≠ .int n) → ∃ cause, cause.kind = .typeError
      ∧ arrayAt.apply i m (.array r) [b] = .fault cause m
      ∧ arrayAtPut.apply i m (.array r) [b, v] = .fault cause m)
    ∧ (∀ b : Value, ¬ (0 ≤ k.toInt ∧ k.toInt ≤ 2 ^ 24) → ∃ cause, cause.kind = .indexOutOfRange
      ∧ arrayNew.apply i m b [.int k] = .fault cause m)
    ∧ (∀ b : Value, 0 ≤ k.toInt ∧ k.toInt ≤ 2 ^ 24 → ∃ a s m', m' = { m with store := s }
      ∧ arrayNew.apply i m b [.int k] = .answer a m'
      ∧ arraySize.apply i m' a [] = .answer (.int k) m'
      ∧ (∀ j : Int32, 1 ≤ j.toInt ∧ j.toInt ≤ k.toInt →
        arrayAt.apply i m' a [.int j] = .answer .nil m')
      ∧ (∀ r' < m.store.rows.size, a.identical (.array r') = false ∧ s.row r' = m.store.row r')
      ∧ ∀ (machine : Machine) (classes : List LoadClass) (log : Log) (store : Store)
        (transcript : Transcript) (x : Session),
        Image.load classes = (log, .ok (machine.image, store)) →
        Relation.ReflTransGen (Session.Move machine) (Session.start store transcript) x →
        x.state.memory.store = m.store → ∀ w, x.Holds w → a.identical w = false) := by
  refine ⟨fun inside => ⟨?_, ?_⟩, fun outside => ?_, fun b other => ?_, fun b refused => ?_,
    fun b allowed => ?_⟩
  · obtain ⟨w, there⟩ := Store.exists_element inside
    exact ⟨w, apply_arrayAt there⟩
  · refine ⟨m.store.set r (k.toInt.toNat - 1) v, _, rfl, apply_arrayAtPut inside,
      fun b same => ?_, fun b j other w => ?_, fun r' other => ?_, Store.size_row_set ..⟩
    · rw [Value.identical_array.1 same]
      refine ⟨apply_arrayAt (Store.element?_set_self inside), ?_⟩
      exact congrArg (fun n => Reply.answer (.int (Int32.ofNat n)) _) (Store.size_row_set ..)
    · rw [apply_arrayAt_iff, apply_arrayAt_iff]
      refine exists_congr fun r' => and_congr_right fun of => ?_
      subst of
      dsimp only
      rw [Store.element?_set_of_ne inside.1 fun h => other ⟨?_, h.2⟩]
      rw [h.1]
      exact Value.identical_array.2 rfl
    · exact Store.row_set_of_ne other.symm _ _
  · exact ⟨_, rfl, apply_arrayAt_outside outside, apply_arrayAtPut_outside outside⟩
  · exact ⟨_, rfl, apply_arrayAt_other other, apply_arrayAtPut_other other⟩
  · obtain ⟨cause, failed, kind⟩ := apply_arrayNew_refused (i := i) (m := m) (b := b) refused
    exact ⟨cause, kind, failed⟩
  · refine ⟨_, (m.store.add (Array.replicate k.toInt.toNat .nil)).1, _, rfl,
      apply_arrayNew allowed, ?_, fun j inside => ?_, fun r' there => ⟨?_, ?_⟩,
      fun machine classes log store transcript x loaded reached same w held => ?_⟩
    · refine congrArg (fun n => Reply.answer (.int n) _) ?_
      calc Int32.ofNat ((m.store.add (Array.replicate k.toInt.toNat .nil)).1.row
            (m.store.add (Array.replicate k.toInt.toNat .nil)).2).size
          = Int32.ofNat k.toInt.toNat := by rw [Store.row_add_self, Array.size_replicate]
        _ = k := ofNat_toNat_toInt allowed.1
    · exact apply_arrayAt (Store.element?_add_replicate (by omega))
    · exact decide_eq_false (Nat.ne_of_gt there)
    · exact Store.row_add_of_ne (Nat.ne_of_lt there)
    · refine Value.identical_array_of_ne fun r' of => Nat.ne_of_gt ?_
      rw [← same]
      exact Session.row_made loaded reached (of ▸ held)

end Primitive

end Colloquy
