import Mathlib.Logic.Basic
import Colloquy.Instruction.Codec

/-!
# Reading back what was written

Instructions that were written one after another are read one after another.  All comes back as it
was but source positions, whose halves are cut to sixteen bits (`Instruction.stored`).

A listing is what is read one after another until the code ends or something cannot be read
(`Instruction.Lists`).

Main statement: `Instruction.reads_encodeAll`.
-/

namespace Colloquy

/-- Two numbers side by side in one. -/
theorem or_shiftLeft {a b i : Nat} (h : a < 1 <<< i) : a ||| b <<< i = a + b <<< i := by
  rw [Nat.shiftLeft_eq, Nat.one_mul] at h
  rw [Nat.or_comm, ← Nat.shiftLeft_add_eq_or_of_lt h, Nat.add_comm]

theorem Position.unpack_pack (p : Position) : unpack p.pack = p.saturate := by
  have half (n : UInt32) : (min n halfMax).toNat ≤ 65535 := by
    change (if n ≤ halfMax then n else halfMax).toNat ≤ 65535
    split
    · rename_i hle
      exact UInt32.le_iff_toNat_le.1 hle
    · exact Nat.le_refl _
  have hl := half p.line
  have hc := half p.column
  have halves (l c : UInt32) (hl : l.toNat ≤ 65535) (hc : c.toNat ≤ 65535) :
      unpack (l <<< 16 ||| c) = ⟨l, c⟩ := by
    have whole : (l <<< 16 ||| c).toNat = c.toNat + 65536 * l.toNat := by
      rw [UInt32.toNat_or, UInt32.toNat_shiftLeft, Nat.or_comm]
      have : l.toNat <<< (UInt32.toNat 16 % 32) % 4294967296 = l.toNat <<< 16 := by
        simp only [Nat.shiftLeft_eq]
        exact Nat.mod_eq_of_lt (by simp; omega)
      rw [this, or_shiftLeft (by omega)]
      omega
    simp only [unpack, Position.mk.injEq]
    constructor
    · apply UInt32.toNat_inj.1
      rw [UInt32.toNat_shiftRight, whole]
      simp only [Nat.shiftRight_eq_div_pow]
      have : UInt32.toNat 16 % 32 = 16 := rfl
      rw [this]
      omega
    · apply UInt32.toNat_inj.1
      rw [UInt32.toNat_and, whole]
      exact (Nat.and_two_pow_sub_one_eq_mod _ 16).trans (by omega)
  exact halves _ _ hl hc

namespace Instruction

/-- The instruction as it is read back. -/
def stored : Instruction → Instruction
  | debug file position => debug file position.saturate
  | i => i

/-! ## One instruction -/

section Operands

variable {bytes : Bytes} {k : Nat}

/-- A short is read back. -/
theorem shortAt_eq {n : UInt16} (h₀ : bytes[k]? = some n.toUInt8)
    (h₁ : bytes[k + 1]? = some (n >>> 8).toUInt8) : shortAt bytes k = n := by
  have hn := n.toNat_lt
  have high : (n.toNat >>> 8 % 256) <<< 8 % 65536 = (n.toNat / 256) <<< 8 := by
    simp only [Nat.shiftLeft_eq, Nat.shiftRight_eq_div_pow]
    omega
  apply UInt16.toNat_inj.1
  simp only [shortAt, Array.getD_eq_getD_getElem?, h₀, h₁, Option.getD_some]
  simp [high]
  rw [or_shiftLeft (by omega)]
  omega

/-- A word is read back. -/
theorem wordAt_eq {n : UInt32} (h₀ : bytes[k]? = some n.toUInt8)
    (h₁ : bytes[k + 1]? = some (n >>> 8).toUInt8) (h₂ : bytes[k + 2]? = some (n >>> 16).toUInt8)
    (h₃ : bytes[k + 3]? = some (n >>> 24).toUInt8) : wordAt bytes k = n := by
  have hn := n.toNat_lt
  have second : (n.toNat >>> 8 % 256) <<< 8 % 4294967296 = (n.toNat / 256 % 256) <<< 8 := by
    simp only [Nat.shiftLeft_eq, Nat.shiftRight_eq_div_pow]
    omega
  have third : (n.toNat >>> 16 % 256) <<< 16 % 4294967296 = (n.toNat / 65536 % 256) <<< 16 := by
    simp only [Nat.shiftLeft_eq, Nat.shiftRight_eq_div_pow]
    omega
  have fourth : (n.toNat >>> 24 % 256) <<< 24 % 4294967296 = (n.toNat / 16777216) <<< 24 := by
    simp only [Nat.shiftLeft_eq, Nat.shiftRight_eq_div_pow]
    omega
  apply UInt32.toNat_inj.1
  simp only [wordAt, Array.getD_eq_getD_getElem?, h₀, h₁, h₂, h₃, Option.getD_some]
  simp [second, third, fourth]
  rw [or_shiftLeft (a := n.toNat % 256) (by omega), or_shiftLeft (i := 16) (by omega),
    or_shiftLeft (by omega)]
  omega

end Operands

theorem length_operandBytes (i : Instruction) : i.operandBytes.length = i.opcode.operandSize := by
  cases i <;> rfl

theorem length_encode (i : Instruction) : i.encode.length = i.opcode.size := by
  rw [encode, List.length_cons, length_operandBytes, Opcode.size, Nat.add_comm]

/-- **One instruction is read back**, whatever stands before and after it. -/
theorem decodeAt_encode {bytes : Bytes} {before after : List UInt8} (i : Instruction)
    (h : bytes.toList = before ++ (i.encode ++ after)) :
    decodeAt bytes before.length = .ok (some (i.stored, before.length + i.opcode.size)) := by
  have byte (k : Nat) : bytes[before.length + k]? = (i.encode ++ after)[k]? := by
    rw [← Array.getElem?_toList, h, List.getElem?_append_right (Nat.le_add_right _ _),
      Nat.add_sub_cancel_left]
  have size : before.length + i.opcode.size ≤ bytes.size := by
    rw [← Array.length_toList, h, ← length_encode]
    simp only [List.length_append]
    omega
  have first : bytes[before.length]? = some i.opcode.code := by
    have := byte 0
    rwa [Nat.add_zero] at this
  have short (k : Nat) (n : UInt16) (h₀ : (i.encode ++ after)[k + 1]? = some n.toUInt8)
      (h₁ : (i.encode ++ after)[k + 2]? = some (n >>> 8).toUInt8) :
      shortAt bytes (before.length + 1 + k) = n := by
    refine shortAt_eq ?_ ?_
    · rw [Nat.add_assoc, Nat.add_comm 1, byte, h₀]
    · rw [Nat.add_assoc, Nat.add_assoc, Nat.add_comm 1, Nat.add_assoc, byte, h₁]
  have word (k : Nat) (n : UInt32) (h₀ : (i.encode ++ after)[k + 1]? = some n.toUInt8)
      (h₁ : (i.encode ++ after)[k + 2]? = some (n >>> 8).toUInt8)
      (h₂ : (i.encode ++ after)[k + 3]? = some (n >>> 16).toUInt8)
      (h₃ : (i.encode ++ after)[k + 4]? = some (n >>> 24).toUInt8) :
      wordAt bytes (before.length + 1 + k) = n := by
    refine wordAt_eq ?_ ?_ ?_ ?_
    · rw [Nat.add_assoc, Nat.add_comm 1, byte, h₀]
    · rw [Nat.add_assoc, Nat.add_assoc, Nat.add_comm 1, Nat.add_assoc, byte, h₁]
    · rw [Nat.add_assoc, Nat.add_assoc, Nat.add_comm 1, Nat.add_assoc, byte, h₂]
    · rw [Nat.add_assoc, Nat.add_assoc, Nat.add_comm 1, Nat.add_assoc, byte, h₃]
  have same : read bytes (before.length + 1) i.opcode = i.stored := by
    cases i with
    | pushInt n =>
      exact congrArg (fun w : UInt32 => pushInt w.toInt32) (word 0 n.toUInt32 rfl rfl rfl rfl)
    | pushFloat n => exact congrArg (fun w => pushFloat ⟨w⟩) (word 0 n.bits rfl rfl rfl rfl)
    | pushChar n => exact congrArg pushChar (short 0 n rfl rfl)
    | pushArray n => exact congrArg pushArray (short 0 n rfl rfl)
    | pushLiteral n => exact congrArg pushLiteral (short 0 n rfl rfl)
    | pushGlobal n => exact congrArg pushGlobal (short 0 n rfl rfl)
    | pushField n => exact congrArg pushField (short 0 n rfl rfl)
    | storeField n => exact congrArg storeField (short 0 n rfl rfl)
    | block n => exact congrArg block (short 0 n rfl rfl)
    | pushLocal a b => exact congrArg₂ pushLocal (short 0 a rfl rfl) (short 2 b rfl rfl)
    | storeLocal a b => exact congrArg₂ storeLocal (short 0 a rfl rfl) (short 2 b rfl rfl)
    | send a b => exact congrArg₂ send (short 0 a rfl rfl) (short 2 b rfl rfl)
    | sendSuper a b => exact congrArg₂ sendSuper (short 0 a rfl rfl) (short 2 b rfl rfl)
    | debug file p =>
      refine congrArg₂ debug (short 0 file rfl rfl) ?_
      exact (congrArg Position.unpack (word 2 p.pack rfl rfl rfl rfl)).trans p.unpack_pack
    | _ => rfl
  simp only [decodeAt, first, Opcode.ofCode?_code, if_pos size, same]

/-! ## Sequences -/

/-- Reading from one offset to another finds the given instructions. -/
inductive Reads (bytes : Bytes) : Nat → List Instruction → Nat → Prop where
  | nil (p : Nat) : Reads bytes p [] p
  | cons {p next q : Nat} {i : Instruction} {is : List Instruction}
      (first : decodeAt bytes p = .ok (some (i, next))) (rest : Reads bytes next is q) :
      Reads bytes p (i :: is) q

variable {bytes : Bytes} {p q : Nat} {is js : List Instruction}

theorem Reads.decoded {i : Instruction} (h : Reads bytes p [i] q) :
    decodeAt bytes p = .ok (some (i, q)) := by
  cases h with
  | cons first rest =>
    cases rest
    exact first

/-- There is nothing to read at the end. -/
theorem Reads.ended (h : Reads bytes p [] bytes.size) : decodeAt bytes p = .ok none := by
  generalize hq : bytes.size = q at h
  cases h
  simp only [decodeAt, ← hq, Array.getElem?_eq_none (Nat.le_refl _)]

/-- Reading an instruction and then others stops in between. -/
theorem Reads.uncons {i : Instruction} (h : Reads bytes p (i :: is) q) :
    ∃ r, decodeAt bytes p = .ok (some (i, r)) ∧ Reads bytes r is q := by
  cases h with
  | cons first rest => exact ⟨_, first, rest⟩

/-- Reading one sequence and then another stops in between. -/
theorem Reads.split (h : Reads bytes p (is ++ js) q) :
    ∃ r, Reads bytes p is r ∧ Reads bytes r js q := by
  induction is generalizing p with
  | nil => exact ⟨p, .nil p, h⟩
  | cons i is ih =>
    cases h with
    | cons first rest =>
      obtain ⟨r, hi, hj⟩ := ih rest
      exact ⟨r, .cons first hi, hj⟩

theorem toList_emit (bytes : Bytes) (i : Instruction) :
    (emit bytes i).toList = bytes.toList ++ i.encode := by
  have push (bytes : Bytes) (more : List UInt8) :
      (more.foldl Array.push bytes).toList = bytes.toList ++ more := by
    induction more generalizing bytes with
    | nil => simp
    | cons b rest ih => rw [List.foldl_cons, ih, Array.toList_push, List.append_assoc]; rfl
  exact push bytes i.encode

theorem toList_encodeAll (is : Array Instruction) :
    (encodeAll is).toList = is.toList.flatMap encode := by
  have all (bytes : Bytes) (is : List Instruction) :
      (is.foldl emit bytes).toList = bytes.toList ++ is.flatMap encode := by
    induction is generalizing bytes with
    | nil => simp
    | cons i rest ih => rw [List.foldl_cons, ih, toList_emit, List.flatMap_cons, List.append_assoc]
  rw [encodeAll, ← Array.foldl_toList, all]
  rfl

/-- Reading starts after what stands before and ends where other bytes follow. -/
theorem reads_of_toList (before : List UInt8) {after : List UInt8}
    (h : bytes.toList = before ++ (is.flatMap encode ++ after)) :
    Reads bytes before.length (is.map stored) (before.length + (is.flatMap encode).length) := by
  induction is generalizing before with
  | nil => exact .nil _
  | cons i rest ih =>
    rw [List.flatMap_cons, List.append_assoc] at h
    have rest := ih (before ++ i.encode) (by rw [h, List.append_assoc])
    rw [List.length_append, length_encode] at rest
    rw [List.flatMap_cons, List.length_append, length_encode, ← Nat.add_assoc]
    exact .cons (decodeAt_encode i h) rest

/-- **What was written is read back**, to the end. -/
theorem reads_encodeAll (is : Array Instruction) :
    Reads (encodeAll is) 0 (is.toList.map stored) (encodeAll is).size := by
  have written := toList_encodeAll is
  rw [← Array.length_toList, written]
  simpa using @reads_of_toList _ _ [] [] (by simpa using written)

/-! ## Listings -/

/-- The listing of what is read from an offset on. -/
inductive Lists (bytes : Bytes) : Nat → Listing → Prop where
  | ended {p : Nat} (read : decodeAt bytes p = .ok none) : Lists bytes p ⟨[], none, p⟩
  | failed {p : Nat} {e : DecodeError} (read : decodeAt bytes p = .error e) :
      Lists bytes p ⟨[], some e, p⟩
  | cons {p next : Nat} {i : Instruction} {l : Listing}
      (read : decodeAt bytes p = .ok (some (i, next))) (rest : Lists bytes next l) :
      Lists bytes p { l with items := (p, i) :: l.items }

theorem decodeFrom_lists (bytes : Bytes) (p : Nat) : Lists bytes p (decodeFrom bytes p) := by
  -- what has been read before stays in front of the listing
  have loop (seen : List (Nat × Instruction)) : ∃ l, Lists bytes p l
      ∧ decodeLoop bytes p seen = { l with items := seen.reverse ++ l.items } := by
    fun_induction decodeLoop bytes p seen with
    | case1 p seen read => exact ⟨_, .ended read, by rw [List.append_nil]⟩
    | case2 p seen e read => exact ⟨_, .failed read, by rw [List.append_nil]⟩
    | case3 p seen i next read ih =>
      obtain ⟨l, lists, looped⟩ := ih
      refine ⟨_, .cons read lists, ?_⟩
      rw [looped, List.reverse_cons, List.append_assoc]
      rfl
  obtain ⟨l, lists, looped⟩ := loop []
  rw [decodeFrom, looped]
  exact lists

/-- What is read to the end of the code is what a listing shows, without an error. -/
theorem Lists.of_reads {l : Listing} (h : Lists bytes p l) (reads : Reads bytes p is bytes.size) :
    l.error = none ∧ l.stop = bytes.size ∧ l.items.map (·.2) = is := by
  induction h generalizing is with
  | @ended p read =>
    cases is with
    | nil =>
      generalize bytes.size = q at reads
      cases reads
      exact ⟨rfl, rfl, rfl⟩
    | cons i is =>
      obtain ⟨_, first, -⟩ := reads.uncons
      cases first.symm.trans read
  | @failed p e read =>
    cases is with
    | nil => cases reads.ended.symm.trans read
    | cons i is =>
      obtain ⟨_, first, -⟩ := reads.uncons
      cases first.symm.trans read
  | @cons p next i l read rest ih =>
    cases is with
    | nil => cases reads.ended.symm.trans read
    | cons j is =>
      obtain ⟨_, first, later⟩ := reads.uncons
      cases first.symm.trans read
      obtain ⟨fine, whole, items⟩ := ih later
      exact ⟨fine, whole, congrArg (i :: ·) items⟩

end Instruction

end Colloquy
