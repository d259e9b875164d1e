import Mathlib.Data.List.Induction
import Colloquy.Proofs.Compile.Emission

/-!
# Literal pools as numberings

A pool is filled by inserting strings one after another (`LiteralPool.ofList`).  Its entries and
its index never disagree (`LiteralPool.Valid`), and an insertion adds at most one entry behind the
others (`LiteralPool.Inserts`), so the numbers that were given out stay what they are.

Main statement: whatever is inserted, the pool numbers the first 65536 different strings in the
order in which they came, and each of them for good (`LiteralPool.insertions_number_exactly`).
-/

namespace Colloquy

/-- One more string is a different one, or has come before. -/
theorem eraseDups_concat (ss : List String) (s : String) :
    (ss ++ [s]).eraseDups = ss.eraseDups ++ if s ∈ ss then [] else [s] := by
  rw [List.eraseDups_append]
  by_cases h : s ∈ ss <;> simp [List.removeAll, h, List.eraseDups_cons]

namespace LiteralPool

/-! ## Inserting many strings -/

/-- The pool after strings were inserted in order, whether or not there was room for them. -/
def insertAll (pool : LiteralPool) (ss : List String) : LiteralPool :=
  ss.foldl (fun pool s => (pool.insert s).2) pool

/-- A new pool after strings were inserted in order. -/
def ofList (ss : List String) : LiteralPool := insertAll {} ss

/-- The strings whose insertion succeeds, in order. -/
def accepted (pool : LiteralPool) : List String → List String
  | [] => []
  | s :: rest =>
    if (pool.insert s).1.isOk then s :: (pool.insert s).2.accepted rest
    else (pool.insert s).2.accepted rest

variable {pool : LiteralPool} {s : String} {i : UInt16}

theorem insertAll_append (pool : LiteralPool) (ss ts : List String) :
    pool.insertAll (ss ++ ts) = (pool.insertAll ss).insertAll ts := List.foldl_append

theorem ofList_concat (ss : List String) (s : String) :
    ofList (ss ++ [s]) = ((ofList ss).insert s).2 := insertAll_append {} ss [s]

theorem accepted_concat (pool : LiteralPool) (ss : List String) (s : String) :
    pool.accepted (ss ++ [s])
      = pool.accepted ss ++ if ((pool.insertAll ss).insert s).1.isOk then [s] else [] := by
  induction ss generalizing pool with
  | nil => rfl
  | cons t rest ih =>
    have later := ih (pool.insert t).2
    rw [List.cons_append, accepted, accepted, later]
    split <;> rfl

theorem valid_ofList (ss : List String) : (ofList ss).Valid := by
  induction ss using List.reverseRecOn with
  | nil => exact valid_empty
  | append_singleton ss s ih =>
    rw [ofList_concat]
    exact (ih.inserts s).valid ih

theorem prefix_insertAll (pool : LiteralPool) (ss : List String) :
    pool.entries.toList <+: (pool.insertAll ss).entries.toList := by
  induction ss generalizing pool with
  | nil => exact List.prefix_refl _
  | cons s rest ih => exact (pool.prefix_insert s).trans (ih _)

/-! ## Entries -/

/-- **The entries are the strings whose insertion has succeeded**, each once and in the order in
which they first did. -/
theorem entries_eq_accepted (ss : List String) :
    (ofList ss).entries.toList = (accepted {} ss).eraseDups := by
  induction ss using List.reverseRecOn with
  | nil => rfl
  | append_singleton ss s ih =>
    have there : s ∈ accepted {} ss ↔ s ∈ (ofList ss).entries := by
      rw [← Array.mem_toList_iff, ih, List.mem_eraseDups]
    have inserts := (valid_ofList ss).inserts s
    rw [ofList_concat, accepted_concat]
    rw [show insertAll {} ss = ofList ss from rfl]
    generalize (ofList ss).insert s = after at inserts ⊢
    cases inserts with
    | known here =>
      show (ofList ss).entries.toList = (accepted {} ss ++ [s]).eraseDups
      rw [eraseDups_concat, if_pos (there.2 (Array.mem_of_getElem? here)), List.append_nil, ih]
    | @new i after absent number entries =>
      show after.entries.toList = (accepted {} ss ++ [s]).eraseDups
      rw [eraseDups_concat, if_neg (mt there.1 absent), entries, Array.toList_push, ih]
    | full absent size =>
      show (ofList ss).entries.toList = (accepted {} ss ++ []).eraseDups
      rw [List.append_nil, ih]

/-- **The entries are the different strings in the order in which they first came**, as many as
there are numbers. -/
theorem entries_eq_take (ss : List String) :
    (ofList ss).entries.toList = ss.eraseDups.take 65536 := by
  induction ss using List.reverseRecOn with
  | nil => rfl
  | append_singleton ss s ih =>
    have count := congrArg List.length ih
    rw [Array.length_toList, List.length_take] at count
    have inserts := (valid_ofList ss).inserts s
    rw [ofList_concat, eraseDups_concat]
    generalize (ofList ss).insert s = after at inserts ⊢
    cases inserts with
    | known here =>
      have there : s ∈ (ofList ss).entries.toList :=
        Array.mem_toList_iff.2 (Array.mem_of_getElem? here)
      rw [ih] at there
      rw [if_pos (List.mem_eraseDups.1 (List.mem_of_mem_take there)), List.append_nil]
      exact ih
    | @new i after absent number entries =>
      -- there was room for all that has come so far, so that the new string is a different one
      have few : ss.eraseDups.length < 65536 := by
        have := i.toNat_lt
        omega
      rw [List.take_of_length_le (Nat.le_of_lt few)] at ih
      have different : s ∉ ss := by
        rwa [← List.mem_eraseDups, ← ih, Array.mem_toList_iff]
      rw [if_neg different, List.take_of_length_le (by simpa using Nat.succ_le_of_lt few),
        ← ih, entries, Array.toList_push]
    | full absent size =>
      rw [List.take_append_of_le_length (by omega)]
      exact ih

/-! ## Numbers -/

/-- A string that stands under a number is found under it, and inserted without a change. -/
theorem insert_of_entry (valid : pool.Valid) (here : pool.entries[i.toNat]? = some s) :
    pool.lookup s = some i ∧ pool.insert s = (.ok i, pool) := by
  have found := (valid.index s i).2 here
  refine ⟨found, ?_⟩
  obtain ⟨entries, index⟩ := pool
  simp only [insert, show index[s]? = some i from found]

/-- A number that a string has, it keeps: the string is found under it, and inserted without a
change, whatever came in between. -/
theorem insert_of_lookup {ss : List String} (found : (ofList ss).lookup s = some i)
    (later : List String) : (ofList (ss ++ later)).lookup s = some i
      ∧ (ofList (ss ++ later)).insert s = (.ok i, ofList (ss ++ later)) := by
  obtain ⟨more, whole⟩ := prefix_insertAll (ofList ss) later
  have here := ((valid_ofList ss).index s i).1 found
  refine insert_of_entry (valid_ofList _) ?_
  rw [← Array.getElem?_toList] at here ⊢
  rw [show ofList (ss ++ later) = (ofList ss).insertAll later from insertAll_append {} ss later,
    ← whole, List.getElem?_append_left (List.getElem?_eq_some_iff.1 here).1, here]

/-- A string that is there is inserted without a change. -/
theorem insert_of_mem (valid : pool.Valid) (there : s ∈ pool.entries) :
    ∃ i, pool.insert s = (.ok i, pool) := by
  have inserts := valid.inserts s
  generalize pool.insert s = after at inserts ⊢
  cases inserts with
  | known => exact ⟨_, rfl⟩
  | new absent | full absent => exact absurd there absent

/-- A new string is refused by a full pool only, and else gets the next number. -/
theorem insert_of_not_mem (valid : pool.Valid) (absent : s ∉ pool.entries) :
    ((∃ e, (pool.insert s).1 = .error e) ↔ pool.size = 65536)
    ∧ (pool.size = 65536 → pool.insert s = (.error (.tooManyLiterals s), pool))
    ∧ (pool.size ≠ 65536 → ∃ i after, pool.insert s = (.ok i, after) ∧ i.toNat = pool.size
      ∧ after.entries = pool.entries.push s) := by
  have inserts := valid.inserts s
  generalize pool.insert s = after at inserts ⊢
  cases inserts with
  | known here => exact absurd (Array.mem_of_getElem? here) absent
  | @new i after _ number entries =>
    have room : pool.size ≠ 65536 := by
      have := i.toNat_lt
      rw [size, ← number]
      omega
    refine ⟨⟨fun failed => ?_, fun full => absurd full room⟩, fun full => absurd full room,
      fun _ => ⟨i, after, rfl, number, entries⟩⟩
    obtain ⟨e, failed⟩ := failed
    cases failed
  | full _ full =>
    exact ⟨⟨fun _ => full, fun _ => ⟨_, rfl⟩⟩, fun _ => rfl, fun room => absurd full room⟩

/-- **A literal pool is an exact and stable numbering.**  Insert any strings into a new pool.  No
entry stands twice, and the entries are the strings whose insertion has succeeded, in the order in
which each first did; these are the first 65536 different strings.  A string has a number just if
the string stands under the number.  What an insertion answers is the string's number from then on,
and a number that a string has is found, and answered, whatever is inserted later.  A string that is
there is inserted without a change, even if the pool is full; a new one is refused just if there are
65536 entries, without a change too, and else gets the next number. -/
theorem insertions_number_exactly (ss : List String) :
    (ofList ss).entries.toList.Nodup
    ∧ (ofList ss).entries.toList = (accepted {} ss).eraseDups
    ∧ (ofList ss).entries.toList = ss.eraseDups.take 65536
    ∧ (∀ s i, (ofList ss).lookup s = some i ↔ (ofList ss).get? i = some s)
    ∧ (∀ s i, ((ofList ss).insert s).1 = .ok i → (ofList (ss ++ [s])).lookup s = some i)
    ∧ (∀ s i, (ofList ss).lookup s = some i → ∀ later : List String,
        (ofList (ss ++ later)).lookup s = some i
        ∧ (ofList (ss ++ later)).insert s = (.ok i, ofList (ss ++ later)))
    ∧ (∀ s ∈ (ofList ss).entries, ∃ i, (ofList ss).insert s = (.ok i, ofList ss))
    ∧ ∀ s ∉ (ofList ss).entries,
      ((∃ e, ((ofList ss).insert s).1 = .error e) ↔ (ofList ss).size = 65536)
      ∧ ((ofList ss).size = 65536 →
        (ofList ss).insert s = (.error (.tooManyLiterals s), ofList ss))
      ∧ ((ofList ss).size ≠ 65536 → ∃ i after, (ofList ss).insert s = (.ok i, after)
        ∧ i.toNat = (ofList ss).size ∧ after.entries = (ofList ss).entries.push s) := by
  have valid := valid_ofList ss
  refine ⟨valid.nodup, entries_eq_accepted ss, entries_eq_take ss, valid.index,
    fun s i answered => ?_, fun s i found => insert_of_lookup found, fun s => insert_of_mem valid,
    fun s => insert_of_not_mem valid⟩
  obtain ⟨valid', -, here⟩ := insert_eq_ok valid (Prod.ext answered rfl)
  rw [ofList_concat]
  exact (valid'.index s i).2 here

end LiteralPool

end Colloquy
