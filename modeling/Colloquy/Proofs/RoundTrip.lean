import Mathlib.Order.Basic
import Mathlib.Tactic.ByContra
import Colloquy.Instruction.Decoder
import Colloquy.Proofs.Compile.Reading

/-!
# Bytes and instructions

Writing and reading undo each other.  Instructions that were written come back, whatever bytes
follow them, with the halves of source positions cut to sixteen bits.  Bytes that were read come
back without any change, whatever they are: every operand of an instruction has one form only.

Reading comes to an end on all bytes.  `Reads` and what stands at the last offset say all about it
(`decodeFrom_reads`): a decoder that is asked again and again goes through the instructions, reports
the error if there is one, and has nothing more to say.

Main statements: `Instruction.written_is_read_back`, `Instruction.read_is_written_back`.
-/

namespace Colloquy

/-! ## Opcodes and positions -/

theorem Opcode.ofCode?_eq_some_iff {b : UInt8} {o : Opcode} : ofCode? b = some o ↔ b = o.code := by
  constructor
  · intro h
    unfold ofCode? at h
    split at h <;> cases h <;> rfl
  · rintro rfl
    exact ofCode?_code o

theorem Opcode.code_lt (o : Opcode) : o.code.toNat < 21 := by cases o <;> decide

/-- The bytes from 21 on stand for nothing. -/
theorem Opcode.ofCode?_eq_none_iff {b : UInt8} : ofCode? b = none ↔ 21 ≤ b.toNat := by
  constructor
  · intro h
    by_contra small
    have known : ∀ n < 21, ofCode? (UInt8.ofNat n) ≠ none := by decide
    exact known b.toNat (by omega) (by rwa [UInt8.ofNat_toNat])
  · intro h
    cases found : ofCode? b with
    | none => rfl
    | some o =>
      rw [ofCode?_eq_some_iff.1 found] at h
      exact absurd o.code_lt (Nat.not_lt.2 h)

namespace Position

/-- The halves of a word fit. -/
theorem saturate_unpack (w : UInt32) : (unpack w).saturate = unpack w := by
  have line : (w >>> 16).toNat ≤ 65535 := by
    have := w.toNat_lt
    rw [UInt32.toNat_shiftRight, Nat.shiftRight_eq_div_pow, show UInt32.toNat 16 % 32 = 16 from rfl]
    omega
  have column : (w &&& halfMax).toNat ≤ 65535 := by
    rw [UInt32.toNat_and]
    exact Nat.and_le_right
  simp only [saturate, unpack, Position.mk.injEq]
  exact ⟨if_pos (UInt32.le_iff_toNat_le.2 line), if_pos (UInt32.le_iff_toNat_le.2 column)⟩

theorem pack_unpack (w : UInt32) : (unpack w).pack = w := by
  have hw := w.toNat_lt
  have line : ((w >>> 16) <<< 16).toNat = (w.toNat / 65536) <<< 16 := by
    rw [UInt32.toNat_shiftLeft, UInt32.toNat_shiftRight, Nat.shiftRight_eq_div_pow,
      Nat.shiftLeft_eq, Nat.shiftLeft_eq, show UInt32.toNat 16 % 32 = 16 from rfl]
    omega
  have column : (w &&& halfMax).toNat = w.toNat % 65536 := by
    rw [UInt32.toNat_and]
    exact Nat.and_two_pow_sub_one_eq_mod _ 16
  rw [pack, saturate_unpack]
  apply UInt32.toNat_inj.1
  show ((w >>> 16) <<< 16 ||| (w &&& halfMax)).toNat = w.toNat
  rw [UInt32.toNat_or, line, column, Nat.or_comm, or_shiftLeft (by omega), Nat.shiftLeft_eq]
  omega

end Position

namespace Instruction

/-! ## One instruction -/

section Operands

variable {bytes : Bytes} {k : Nat}

/-- The bytes of a short that was read. -/
theorem shortBytes_shortAt {a b : UInt8} (h₀ : bytes[k]? = some a) (h₁ : bytes[k + 1]? = some b) :
    shortBytes (shortAt bytes k) = [a, b] := by
  have ha := a.toNat_lt
  have hb := b.toNat_lt
  have whole : (shortAt bytes k).toNat = a.toNat + b.toNat * 256 := by
    simp only [shortAt, Array.getD_eq_getD_getElem?, h₀, h₁, Option.getD_some]
    simp only [UInt16.toNat_or, UInt8.toNat_toUInt16, UInt16.toNat_shiftLeft, UInt16.reduceToNat,
      Nat.reduceMod]
    rw [Nat.mod_eq_of_lt (by rw [Nat.shiftLeft_eq]; omega), or_shiftLeft (by omega),
      Nat.shiftLeft_eq]
  simp only [shortBytes, List.cons.injEq, and_true]
  constructor <;> apply UInt8.toNat_inj.1
  · rw [UInt16.toNat_toUInt8, whole]
    omega
  · rw [UInt16.toNat_toUInt8, UInt16.toNat_shiftRight, whole, Nat.shiftRight_eq_div_pow,
      show UInt16.toNat 8 % 16 = 8 from rfl]
    omega

/-- The bytes of a word that was read. -/
theorem wordBytes_wordAt {a b c d : UInt8} (h₀ : bytes[k]? = some a) (h₁ : bytes[k + 1]? = some b)
    (h₂ : bytes[k + 2]? = some c) (h₃ : bytes[k + 3]? = some d) :
    wordBytes (wordAt bytes k) = [a, b, c, d] := by
  have ha := a.toNat_lt
  have hb := b.toNat_lt
  have hc := c.toNat_lt
  have hd := d.toNat_lt
  have whole : (wordAt bytes k).toNat
      = a.toNat + b.toNat * 256 + c.toNat * 65536 + d.toNat * 16777216 := by
    simp only [wordAt, Array.getD_eq_getD_getElem?, h₀, h₁, h₂, h₃, Option.getD_some]
    simp only [UInt32.toNat_or, UInt8.toNat_toUInt32, UInt32.toNat_shiftLeft, UInt32.reduceToNat,
      Nat.reduceMod]
    rw [Nat.mod_eq_of_lt (a := b.toNat <<< 8) (by rw [Nat.shiftLeft_eq]; omega),
      Nat.mod_eq_of_lt (a := c.toNat <<< 16) (by rw [Nat.shiftLeft_eq]; omega),
      Nat.mod_eq_of_lt (a := d.toNat <<< 24) (by rw [Nat.shiftLeft_eq]; omega),
      or_shiftLeft (a := a.toNat) (by omega),
      or_shiftLeft (i := 16) (by simp only [Nat.shiftLeft_eq]; omega),
      or_shiftLeft (by simp only [Nat.shiftLeft_eq]; omega)]
    simp only [Nat.shiftLeft_eq]
  have part (n : UInt32) (j : Nat) (h : n.toNat % 32 = j) :
      (wordAt bytes k >>> n).toUInt8.toNat = (wordAt bytes k).toNat / 2 ^ j % 256 := by
    rw [UInt32.toNat_toUInt8, UInt32.toNat_shiftRight, Nat.shiftRight_eq_div_pow, h]
  simp only [wordBytes, List.cons.injEq, and_true]
  refine ⟨?_, ?_, ?_, ?_⟩ <;> apply UInt8.toNat_inj.1
  · rw [UInt32.toNat_toUInt8, whole]
    omega
  · rw [part 8 8 rfl, whole]
    omega
  · rw [part 16 16 rfl, whole]
    omega
  · rw [part 24 24 rfl, whole]
    omega

/-- A short that was read, and the bytes after it. -/
theorem drop_eq_short (h : k + 2 ≤ bytes.size) :
    bytes.toList.drop k = shortBytes (shortAt bytes k) ++ bytes.toList.drop (k + 2) := by
  have h₀ : k < bytes.size := by omega
  have h₁ : k + 1 < bytes.size := by omega
  rw [shortBytes_shortAt (Array.getElem?_eq_getElem h₀) (Array.getElem?_eq_getElem h₁),
    List.drop_eq_getElem_cons h₀, List.drop_eq_getElem_cons h₁]
  rfl

/-- A word that was read, and the bytes after it. -/
theorem drop_eq_word (h : k + 4 ≤ bytes.size) :
    bytes.toList.drop k = wordBytes (wordAt bytes k) ++ bytes.toList.drop (k + 4) := by
  have h₀ : k < bytes.size := by omega
  have h₁ : k + 1 < bytes.size := by omega
  have h₂ : k + 2 < bytes.size := by omega
  have h₃ : k + 3 < bytes.size := by omega
  rw [wordBytes_wordAt (Array.getElem?_eq_getElem h₀) (Array.getElem?_eq_getElem h₁)
      (Array.getElem?_eq_getElem h₂) (Array.getElem?_eq_getElem h₃),
    List.drop_eq_getElem_cons h₀, List.drop_eq_getElem_cons h₁, List.drop_eq_getElem_cons h₂,
    List.drop_eq_getElem_cons h₃]
  rfl

/-- **Operands that were read are written back**, whatever instruction they belong to. -/
theorem drop_eq_operandBytes (o : Opcode) (h : k + o.operandSize ≤ bytes.size) :
    bytes.toList.drop k
      = (read bytes k o).operandBytes ++ bytes.toList.drop (k + o.operandSize) := by
  have shorts (h : k + 4 ≤ bytes.size) : bytes.toList.drop k
      = shortBytes (shortAt bytes k) ++ shortBytes (shortAt bytes (k + 2))
        ++ bytes.toList.drop (k + 4) := by
    rw [List.append_assoc, ← drop_eq_short (k := k + 2) (by omega), ← drop_eq_short (by omega)]
  cases o with
  | pushChar => exact drop_eq_short h
  | pushArray => exact drop_eq_short h
  | pushLiteral => exact drop_eq_short h
  | pushGlobal => exact drop_eq_short h
  | pushField => exact drop_eq_short h
  | storeField => exact drop_eq_short h
  | block => exact drop_eq_short h
  | pushInt =>
    simp only [read, operandBytes, UInt32.toUInt32_toInt32]
    exact drop_eq_word h
  | pushFloat => exact drop_eq_word h
  | pushLocal => exact shorts h
  | storeLocal => exact shorts h
  | send => exact shorts h
  | sendSuper => exact shorts h
  | debug =>
    have h : k + 6 ≤ bytes.size := h
    simp only [read, operandBytes, Position.pack_unpack, List.append_assoc]
    rw [show k + Opcode.debug.operandSize = k + 2 + 4 from rfl, ← drop_eq_word (by omega),
      ← drop_eq_short (by omega)]
  | _ => rfl

end Operands

/-! ## What stands at an offset -/

section Decode

variable {bytes : Bytes} {p q : Nat} {i : Instruction} {e : DecodeError}

theorem decodeAt_eq_none_iff : decodeAt bytes p = .ok none ↔ bytes.size ≤ p := by
  rw [← Array.getElem?_eq_none_iff]
  unfold decodeAt
  split
  · simp_all
  · split
    · simp_all
    · split <;> simp_all

theorem decodeAt_eq_some_iff : decodeAt bytes p = .ok (some (i, q))
    ↔ ∃ o : Opcode, bytes[p]? = some o.code ∧ p + o.size ≤ bytes.size
      ∧ i = read bytes (p + 1) o ∧ q = p + o.size := by
  constructor
  · intro h
    unfold decodeAt at h
    split at h
    · cases h
    · rename_i byte here
      split at h
      · cases h
      · rename_i o known
        split at h
        · cases h
          exact ⟨o, Opcode.ofCode?_eq_some_iff.1 known ▸ here, ‹_›, rfl, rfl⟩
        · cases h
  · rintro ⟨o, here, room, rfl, rfl⟩
    simp only [decodeAt, here, Opcode.ofCode?_code, if_pos room]

/-- **When nothing can be read:** the byte is no opcode, or operands are missing. -/
theorem decodeAt_eq_error_iff : decodeAt bytes p = .error e
    ↔ ∃ byte, bytes[p]? = some byte
      ∧ (21 ≤ byte.toNat ∧ e = .unknownOpcode byte p
        ∨ ∃ o : Opcode, byte = o.code ∧ bytes.size < p + o.size ∧ e = .truncated o p) := by
  constructor
  · intro h
    unfold decodeAt at h
    split at h
    · cases h
    · rename_i byte here
      refine ⟨byte, here, ?_⟩
      split at h
      · rename_i unknown
        cases h
        exact .inl ⟨Opcode.ofCode?_eq_none_iff.1 unknown, rfl⟩
      · rename_i o known
        split at h
        · cases h
        · rename_i missing
          cases h
          exact .inr ⟨o, Opcode.ofCode?_eq_some_iff.1 known, Nat.not_le.1 missing, rfl⟩
  · rintro ⟨byte, here, ⟨unknown, rfl⟩ | ⟨o, rfl, missing, rfl⟩⟩
    · simp only [decodeAt, here, Opcode.ofCode?_eq_none_iff.2 unknown]
    · simp only [decodeAt, here, Opcode.ofCode?_code, if_neg (Nat.not_le.2 missing)]

/-- **An instruction that was read is written back.** -/
theorem drop_eq_encode (h : decodeAt bytes p = .ok (some (i, q))) :
    bytes.toList.drop p = i.encode ++ bytes.toList.drop q := by
  obtain ⟨o, here, room, rfl, rfl⟩ := decodeAt_eq_some_iff.1 h
  obtain ⟨inside, code⟩ := Array.getElem?_eq_some_iff.1 here
  have opcode : (read bytes (p + 1) o).opcode = o := by cases o <;> rfl
  rw [List.drop_eq_getElem_cons inside, encode, opcode, List.cons_append, Array.getElem_toList,
    code, drop_eq_operandBytes o (by rw [Nat.add_assoc]; exact room), Nat.add_assoc]
  rfl

/-- Instructions that were read one after another are written back. -/
theorem Reads.drop_eq {is : List Instruction} (h : Reads bytes p is q) :
    bytes.toList.drop p = is.flatMap encode ++ bytes.toList.drop q := by
  induction h with
  | nil p => rfl
  | cons first rest ih =>
    rw [drop_eq_encode first, ih, List.flatMap_cons, List.append_assoc]

/-- Reading does not go back, and not past the end. -/
theorem Reads.bounds {is : List Instruction} (h : Reads bytes p is q) (inside : p ≤ bytes.size) :
    p ≤ q ∧ q ≤ bytes.size := by
  induction h with
  | nil p => exact ⟨Nat.le_refl p, inside⟩
  | cons first rest ih =>
    obtain ⟨forward, room⟩ := decodeAt_bounds first
    obtain ⟨further, bound⟩ := ih room
    exact ⟨Nat.le_trans (Nat.le_of_lt forward) further, bound⟩

/-- What stands where reading has come to its end. -/
def Listing.ending (l : Listing) : Except DecodeError (Option (Instruction × Nat)) :=
  match l.error with
  | none => .ok none
  | some e => .error e

/-- What a decoder that goes through the listing reports. -/
def Listing.results (l : Listing) : List (Except DecodeError Instruction) :=
  l.items.map (.ok ·.2) ++ l.error.toList.map .error

/-- **A listing is what is read one after another, up to an offset where nothing can be read.** -/
theorem decodeFrom_reads (bytes : Bytes) (p : Nat) :
    Reads bytes p ((decodeFrom bytes p).items.map (·.2)) (decodeFrom bytes p).stop
      ∧ decodeAt bytes (decodeFrom bytes p).stop = (decodeFrom bytes p).ending := by
  have lists := decodeFrom_lists bytes p
  generalize decodeFrom bytes p = found at lists ⊢
  induction lists with
  | ended read => exact ⟨.nil _, read⟩
  | failed read => exact ⟨.nil _, read⟩
  | cons read _ ih => exact ⟨.cons read ih.1, ih.2⟩

end Decode

end Instruction

/-! ## Asking again and again -/

namespace Decoder

open Instruction (Reads decodeAt)

/-- The decoder after it has been asked `n` times. -/
def asked (d : Decoder) : Nat → Decoder
  | 0 => d
  | n + 1 => d.next.2.asked n

variable {bytes : Bytes} {p q : Nat} {is : List Instruction}

theorem asked_add (d : Decoder) (m n : Nat) : d.asked (m + n) = (d.asked m).asked n := by
  induction m generalizing d with
  | zero => rw [Nat.zero_add, asked]
  | succ m ih => rw [Nat.succ_add, asked, ih, asked]

/-- A decoder to which nothing is left reports nothing, for ever. -/
theorem asked_of_next {d : Decoder} (h : d.next = (none, d)) (n : Nat) : d.asked n = d := by
  induction n with
  | zero => rfl
  | succ n ih => rw [asked, h, ih]

/-- The decoder goes through what can be read. -/
theorem asked_of_reads (h : Reads bytes p is q) :
    ({ bytes, offset := p } : Decoder).asked is.length = { bytes, offset := q } := by
  induction h with
  | nil p => rfl
  | cons first rest ih =>
    simp only [List.length_cons, asked, next, first, Bool.false_eq_true, if_false]
    exact ih

/-- The decoder reports what can be read. -/
theorem next_of_reads (h : Reads bytes p is q) {k : Nat} (hk : k < is.length) :
    (({ bytes, offset := p } : Decoder).asked k).next.1 = some (.ok is[k]) := by
  induction h generalizing k with
  | nil p => cases hk
  | cons first rest ih =>
    cases k with
    | zero => simp only [asked, next, first, Bool.false_eq_true, if_false, List.getElem_cons_zero]
    | succ k =>
      simp only [asked, next, first, Bool.false_eq_true, if_false, List.getElem_cons_succ]
      exact ih (Nat.lt_of_succ_lt_succ hk)

/-- At the end there is nothing to report. -/
theorem next_of_none (h : decodeAt bytes q = .ok none) :
    ({ bytes, offset := q } : Decoder).next = (none, { bytes, offset := q }) := by
  simp only [next, h, Bool.false_eq_true, if_false]

/-- Once all is read, the decoder stays at the end. -/
theorem asked_of_reads_all (h : Reads bytes p is bytes.size) {k : Nat} (hk : is.length ≤ k) :
    ({ bytes, offset := p } : Decoder).asked k = { bytes, offset := bytes.size } := by
  obtain ⟨j, rfl⟩ := Nat.exists_eq_add_of_le hk
  have ended := Instruction.decodeAt_eq_none_iff.2 (Nat.le_refl bytes.size)
  rw [asked_add, asked_of_reads h, asked_of_next (next_of_none ended)]

/-- What cannot be read is reported once, and then nothing. -/
theorem next_of_error {e : DecodeError} (h : decodeAt bytes q = .error e) :
    ({ bytes, offset := q } : Decoder).next
        = (some (.error e), { bytes, offset := q, failed := true })
      ∧ ({ bytes, offset := q, failed := true } : Decoder).next
        = (none, { bytes, offset := q, failed := true }) := by
  simp only [next, h, Bool.false_eq_true, if_false, if_true, and_self]

/-- **Asked again and again, a decoder goes through a listing and stays at its end.** -/
theorem asked_listing (bytes : Bytes) (p k : Nat) :
    (({ bytes, offset := p } : Decoder).asked k).next.1
        = (Instruction.decodeFrom bytes p).results[k]?
      ∧ ((Instruction.decodeFrom bytes p).items.length ≤ k →
        (({ bytes, offset := p } : Decoder).asked k).offset
          = (Instruction.decodeFrom bytes p).stop) := by
  obtain ⟨reads, ending⟩ := Instruction.decodeFrom_reads bytes p
  generalize Instruction.decodeFrom bytes p = found at reads ending ⊢
  have through := asked_of_reads reads
  rw [List.length_map] at through
  by_cases early : k < found.items.length
  · refine ⟨?_, fun late => absurd early (Nat.not_lt.2 late)⟩
    rw [next_of_reads reads (by rwa [List.length_map]), Instruction.Listing.results,
      List.getElem?_append_left (by rwa [List.length_map])]
    simp [early]
  · obtain ⟨j, rfl⟩ := Nat.exists_eq_add_of_le (Nat.not_lt.1 early)
    have reported : found.results[found.items.length + j]?
        = (found.error.toList.map Except.error)[j]? := by
      rw [Instruction.Listing.results, List.getElem?_append_right (by rw [List.length_map]; omega),
        List.length_map, Nat.add_sub_cancel_left]
    rw [asked_add, through, reported]
    unfold Instruction.Listing.ending at ending
    split at ending
    · rename_i fine
      rw [asked_of_next (next_of_none ending), next_of_none ending, fine]
      exact ⟨rfl, fun _ => rfl⟩
    · rename_i e failed
      obtain ⟨once, never⟩ := next_of_error ending
      rw [failed]
      cases j with
      | zero =>
        rw [asked, once]
        exact ⟨rfl, fun _ => rfl⟩
      | succ j =>
        rw [asked, once, asked_of_next never, never]
        exact ⟨rfl, fun _ => rfl⟩

end Decoder

namespace Instruction

/-! ## Both ways -/

/-- The offset at which an instruction starts when all are written one after another. -/
def startOf (is : List Instruction) (k : Nat) : Nat := (encodeAll (is.take k).toArray).size

theorem size_encodeAll (is : List Instruction) :
    (encodeAll is.toArray).size = (is.flatMap encode).length := by
  rw [← Array.length_toList, toList_encodeAll]

/-- All instructions are read, whatever follows them. -/
theorem reads_written (is : List Instruction) (more : Bytes) :
    Reads (encodeAll is.toArray ++ more) 0 (is.map stored) (encodeAll is.toArray).size := by
  have written : (encodeAll is.toArray ++ more).toList
      = [] ++ (is.flatMap encode ++ more.toList) := by
    rw [Array.toList_append, toList_encodeAll, List.nil_append]
  simpa [size_encodeAll] using reads_of_toList [] written

/-- Each instruction is read where it starts. -/
theorem decodeAt_startOf (is : List Instruction) (more : Bytes) {k : Nat} (hk : k < is.length) :
    decodeAt (encodeAll is.toArray ++ more) (startOf is k)
      = .ok (some (is[k].stored, startOf is (k + 1))) := by
  have cut : is = is.take k ++ is[k] :: is.drop (k + 1) := by
    rw [← List.drop_eq_getElem_cons hk, List.take_append_drop]
  have split : (encodeAll is.toArray ++ more).toList = (is.take k).flatMap encode
      ++ (is[k].encode ++ ((is.drop (k + 1)).flatMap encode ++ more.toList)) :=
    calc (encodeAll is.toArray ++ more).toList = is.flatMap encode ++ more.toList := by
          rw [Array.toList_append, toList_encodeAll]
      _ = (is.take k ++ is[k] :: is.drop (k + 1)).flatMap encode ++ more.toList :=
          congrArg (fun is => is.flatMap encode ++ more.toList) cut
      _ = _ := by simp only [List.flatMap_append, List.flatMap_cons, List.append_assoc]
  have next : startOf is (k + 1) = ((is.take k).flatMap encode).length + is[k].opcode.size := by
    rw [startOf, size_encodeAll, List.take_succ_eq_append_getElem hk, List.flatMap_append,
      List.length_append, List.flatMap_singleton, length_encode]
  rw [next, startOf, size_encodeAll]
  exact decodeAt_encode is[k] split

/-- **What was written is read back.**  Each instruction takes as many bytes as its size says.  A
decoder that starts at the first byte reports all instructions, in order and without an error, and
stops at the last byte; and each of them is found at the offset where it starts, up to the start of
the next one.  The instructions are as they were, with lines and columns cut to `65535`.  Bytes that
follow do not matter. -/
theorem written_is_read_back (is : List Instruction) (more : Bytes) :
    (∀ bytes i, (emit bytes i).size = bytes.size + i.size)
    ∧ (∀ k, (({ bytes := encodeAll is.toArray } : Decoder).asked k).next.1
      = (is.map fun i => Except.ok i.stored)[k]?)
    ∧ (∀ k, is.length ≤ k → (({ bytes := encodeAll is.toArray } : Decoder).asked k).offset
      = (encodeAll is.toArray).size)
    ∧ (∀ k (hk : k < is.length), decodeAt (encodeAll is.toArray) (startOf is k)
      = .ok (some (is[k].stored, startOf is (k + 1))))
    ∧ (∀ k (hk : k < is.length),
      (({ bytes := encodeAll is.toArray ++ more } : Decoder).asked k).next.1
        = some (.ok is[k].stored)
      ∧ decodeAt (encodeAll is.toArray ++ more) (startOf is k)
        = .ok (some (is[k].stored, startOf is (k + 1))))
    ∧ (({ bytes := encodeAll is.toArray ++ more } : Decoder).asked is.length).offset
      = (encodeAll is.toArray).size := by
  have reported (more : Bytes) {k : Nat} (hk : k < is.length) :
      (({ bytes := encodeAll is.toArray ++ more } : Decoder).asked k).next.1
        = some (.ok is[k].stored) := by
    rw [Decoder.next_of_reads (reads_written is more) (by rwa [List.length_map]), List.getElem_map]
  have through : ({ bytes := encodeAll is.toArray ++ more } : Decoder).asked is.length
      = { bytes := encodeAll is.toArray ++ more, offset := (encodeAll is.toArray).size } := by
    simpa using Decoder.asked_of_reads (reads_written is more)
  have alone : encodeAll is.toArray ++ #[] = encodeAll is.toArray := Array.append_empty
  have ended {k : Nat} (hk : is.length ≤ k) :
      ({ bytes := encodeAll is.toArray } : Decoder).asked k
        = { bytes := encodeAll is.toArray, offset := (encodeAll is.toArray).size } :=
    Decoder.asked_of_reads_all (reads_encodeAll is.toArray) (by rwa [List.length_map])
  refine ⟨fun bytes i => ?_, fun k => ?_, fun k hk => by rw [ended hk], fun k hk => ?_,
    fun k hk => ⟨reported more hk, decodeAt_startOf is more hk⟩, by rw [through]⟩
  · rw [← Array.length_toList, toList_emit, List.length_append, Array.length_toList, length_encode]
    rfl
  · by_cases hk : k < is.length
    · have := reported #[] hk
      rw [alone] at this
      simp [this, hk]
    · rw [ended (Nat.not_lt.1 hk),
        Decoder.next_of_none (decodeAt_eq_none_iff.2 (Nat.le_refl _)), List.getElem?_eq_none]
      rw [List.length_map]
      exact Nat.not_lt.1 hk
  · have := decodeAt_startOf is #[] hk
    rwa [alone] at this

/-- **What was read is written back**, whatever the bytes are.  A decoder that is asked again and
again reports instructions, then at most one error, and then nothing more; it stays where it has
come to.  The instructions that it reported, written again, are the bytes from where it started to
where it stays.  That is the end of the bytes if there was no error.  Otherwise it is the start of
what could not be read: the byte there is 21 or more, or it is an opcode whose operands reach past
the end, and the error says which. -/
theorem read_is_written_back (bytes : Bytes) {start : Nat} (inside : start ≤ bytes.size) :
    (∀ k, (({ bytes, offset := start } : Decoder).asked k).next.1
      = (decodeFrom bytes start).results[k]?)
    ∧ (∀ k, (decodeFrom bytes start).items.length ≤ k →
      (({ bytes, offset := start } : Decoder).asked k).offset = (decodeFrom bytes start).stop)
    ∧ encodeAll ((decodeFrom bytes start).items.map (·.2)).toArray
      = bytes.extract start (decodeFrom bytes start).stop
    ∧ ((decodeFrom bytes start).error = none → (decodeFrom bytes start).stop = bytes.size)
    ∧ ∀ e, (decodeFrom bytes start).error = some e →
      ∃ byte, bytes[(decodeFrom bytes start).stop]? = some byte
        ∧ (e = .unknownOpcode byte (decodeFrom bytes start).stop ↔ 21 ≤ byte.toNat)
        ∧ (∀ o : Opcode, e = .truncated o (decodeFrom bytes start).stop
          ↔ byte = o.code ∧ bytes.size < (decodeFrom bytes start).stop + o.size)
        ∧ (21 ≤ byte.toNat
          ∨ ∃ o : Opcode, byte = o.code ∧ bytes.size < (decodeFrom bytes start).stop + o.size) := by
  obtain ⟨reads, ending⟩ := decodeFrom_reads bytes start
  refine ⟨fun k => (Decoder.asked_listing bytes start k).1,
    fun k => (Decoder.asked_listing bytes start k).2, ?_⟩
  generalize decodeFrom bytes start = found at reads ending ⊢
  obtain ⟨forward, bound⟩ := reads.bounds inside
  refine ⟨?_, fun fine => ?_, fun e failed => ?_⟩
  · apply Array.toList_inj.1
    have length := congrArg List.length reads.drop_eq
    simp only [List.length_drop, List.length_append, Array.length_toList] at length
    rw [toList_encodeAll, Array.toList_extract, List.extract_eq_take_drop, reads.drop_eq,
      List.take_left' (by omega)]
  · rw [Listing.ending, fine] at ending
    exact Nat.le_antisymm bound (decodeAt_eq_none_iff.1 ending)
  · rw [Listing.ending, failed] at ending
    obtain ⟨byte, here, ⟨unknown, rfl⟩ | ⟨o, rfl, missing, rfl⟩⟩ := decodeAt_eq_error_iff.1 ending
    · have unlike (o : Opcode) : byte ≠ o.code := fun same =>
        absurd o.code_lt (Nat.not_lt.2 (same ▸ unknown))
      refine ⟨byte, here, iff_of_true rfl unknown, fun o => ?_, .inl unknown⟩
      exact iff_of_false nofun fun reaches => unlike o reaches.1
    · have small := Nat.not_le.2 o.code_lt
      refine ⟨o.code, here, iff_of_false nofun small, fun o' => ?_, .inr ⟨o, rfl, missing⟩⟩
      constructor
      · intro same
        cases same
        exact ⟨rfl, missing⟩
      · rintro ⟨same, -⟩
        have known := Opcode.ofCode?_eq_some_iff.2 same
        rw [Opcode.ofCode?_code] at known
        cases known
        rfl

/-- An instruction that is read, and one that is cut off. -/
theorem read_is_written_back_truncated :
    1 ≤ (#[0, 12, 5, 1, 2] : Bytes).size
    ∧ (({ bytes := #[0, 12, 5, 1, 2], offset := 1 } : Decoder).asked 1).next.1
      = some (.error (.truncated .pushInt 2))
    ∧ encodeAll #[.pop] = (#[0, 12, 5, 1, 2] : Bytes).extract 1 2 := by
  have found : decodeFrom #[0, 12, 5, 1, 2] 1
      = ⟨[(1, .pop)], some (.truncated .pushInt 2), 2⟩ := by cbv
  have inside : 1 ≤ (#[0, 12, 5, 1, 2] : Bytes).size := by decide
  obtain ⟨reports, -, written, -⟩ := read_is_written_back _ inside
  rw [found] at written
  refine ⟨inside, ?_, written⟩
  rw [reports 1, found]
  rfl

end Instruction

end Colloquy
