import BitCrystal.Machine.Frames
import BitCrystal.Proofs.Templates

/-! # Operations and the iterator

An operation tells its own end. `GetOp2` reads an operation that stands at the iterator unless 32 bits of the
number of bytes that are left are fewer than its data; it reads nothing else, and nothing behind the end.
-/

namespace BitCrystal

open LittleEndian

variable {opcode : UInt8} {data : List UInt8} {pc rest : CScript}

theorem Operation.length_lt {bytes : CScript} (operation : Operation opcode data bytes) : data.length < bytes.length := by
  cases operation with
  | plain => exact Nat.one_pos
  | direct => exact Nat.lt_add_one _
  | _ =>
    simp only [List.length_append, List.length_cons]
    omega

theorem Operation.suffix {bytes : CScript} (operation : Operation opcode data bytes) : data <:+ bytes := by
  cases operation with
  | plain => exact List.nil_suffix
  | direct => exact List.suffix_cons ..
  | _ => exact List.suffix_append ..

namespace CScript

/-- The bytes are one complete operation. -/
def IsOperation (bytes : CScript) : Prop := ∃ opcode data, Operation opcode data bytes

theorem IsOperation.ne_nil {bytes : CScript} (operation : IsOperation bytes) : bytes ≠ [] := by
  obtain ⟨opcode, data, operation⟩ := operation
  obtain ⟨operand, rfl⟩ := operation.head_eq
  exact List.cons_ne_nil _ _

theorem prefixFree_isOperation : Frames.PrefixFree IsOperation where
  nonempty operation := operation.ne_nil rfl
  eq_of_prefix := by
    rintro first second ⟨opcode, data, one⟩ ⟨opcode', data', other⟩ ⟨behind, rfl⟩
    have whole := other.getOp []
    rw [List.append_nil, one.getOp behind, Option.some.injEq, Prod.mk.injEq, Prod.mk.injEq] at whole
    rw [whole.2.2, List.append_nil]

/-- Nothing is read where no operation stands. -/
theorem getOp_eq_none_iff : getOp pc = none ↔ ∀ bytes, IsOperation bytes → ¬ bytes <+: pc := by
  constructor
  · rintro missing bytes ⟨opcode, data, operation⟩ ⟨rest, rfl⟩
    rw [operation.getOp rest] at missing
    cases missing
  · intro absent
    rcases read : getOp pc with _ | ⟨opcode, data, rest⟩
    · rfl
    · obtain ⟨bytes, operation, rfl⟩ := operation_of_getOp read
      exact absurd (List.prefix_append ..) (absent bytes ⟨opcode, data, operation⟩)

namespace Cursor

theorem readBytes_eq_ok {n : ℕ} (enough : n ≤ pc.length) : readBytes n pc = .ok (pc.take n, pc.drop n) :=
  if_neg (not_lt.mpr enough)

/-- The size of an operand, `none` where its field is cut off; the iterator stays in the script. -/
theorem readSize_spec (opcode : UInt8) (pc : CScript) : (∃ nSize behind,
    operandSize opcode pc = some (nSize, behind) ∧ readSize opcode pc = .ok (some nSize, behind)) ∨
    operandSize opcode pc = none ∧ readSize opcode pc = .ok (none, pc) := by
  unfold operandSize readSize
  split
  · exact .inl ⟨_, _, rfl, rfl⟩
  split
  · rcases pc with _ | ⟨a, pc⟩
    · exact .inr ⟨rfl, rfl⟩
    · exact .inl ⟨_, _, rfl, rfl⟩
  split
  · rcases pc with _ | ⟨a, _ | ⟨b, pc⟩⟩
    · exact .inr ⟨rfl, rfl⟩
    · exact .inr ⟨rfl, rfl⟩
    · have decoded : decode [a, b] = a.toNat + 2 ^ 8 * b.toNat := by
        simp only [decode]
        omega
      exact .inl ⟨_, pc, rfl, by rw [← decoded]; rfl⟩
  · rcases pc with _ | ⟨a, _ | ⟨b, _ | ⟨c, _ | ⟨d, pc⟩⟩⟩⟩
    · exact .inr ⟨rfl, rfl⟩
    · exact .inr ⟨rfl, rfl⟩
    · exact .inr ⟨rfl, rfl⟩
    · exact .inr ⟨rfl, rfl⟩
    · have decoded : decode [a, b, c, d] =
          a.toNat + 2 ^ 8 * b.toNat + 2 ^ 16 * c.toNat + 2 ^ 24 * d.toNat := by
        simp only [decode]
        omega
      exact .inl ⟨_, pc, rfl, by rw [← decoded]; rfl⟩

/-- `GetOp2` behind the opcode of a push. -/
theorem getOp2_push (push : opcode ≤ OP_PUSHDATA4) (pc : CScript) : getOp2 (opcode :: pc) =
    (readSize opcode pc >>= fun (size, pc) =>
      match size with
      | none => .ok (stop pc)
      | some nSize =>
        if pc.length % 2 ^ 32 < nSize then .ok (stop pc)
        else readBytes nSize pc >>= fun (vchRet, pc) => .ok ⟨true, opcode, vchRet, pc⟩) := by
  have enough : ¬ (opcode :: pc).length < 1 := by simp
  have first : readBytes 1 (opcode :: pc) = .ok ([opcode], pc) := readBytes_eq_ok (by simp)
  rw [getOp2, if_neg enough, first]
  exact if_pos push

theorem getOp2_plain (high : OP_PUSHDATA4 < opcode) (pc : CScript) :
    getOp2 (opcode :: pc) = .ok ⟨true, opcode, [], pc⟩ := by
  have enough : ¬ (opcode :: pc).length < 1 := by simp
  have first : readBytes 1 (opcode :: pc) = .ok ([opcode], pc) := readBytes_eq_ok (by simp)
  rw [getOp2, if_neg enough, first]
  exact if_neg (UInt8.not_le.mpr high)

/-- The operation that stands at the iterator is read, or the iterator stops at its data. -/
theorem getOp2_of_getOp (read : getOp pc = some (opcode, data, rest)) : getOp2 pc =
    .ok (if (data.length + rest.length) % 2 ^ 32 < data.length then stop (data ++ rest)
      else ⟨true, opcode, data, rest⟩) := by
  rcases pc with _ | ⟨first, pc⟩
  · cases read
  rw [getOp] at read
  split at read
  next push =>
    rw [getOp2_push push]
    rcases readSize_spec first pc with ⟨nSize, behind, operand, size⟩ | ⟨operand, -⟩
    · rw [operand] at read
      dsimp only at read
      split at read <;> cases read
      next enough =>
        have length : (behind.take nSize).length = nSize := by
          rw [List.length_take]
          omega
        have both : (behind.take nSize).length + (behind.drop nSize).length = behind.length := by
          rw [← List.length_append, List.take_append_drop]
        rw [size, both, length, List.take_append_drop]
        change (if _ then _ else _) = _
        split
        · rfl
        · rw [readBytes_eq_ok (not_lt.mp enough)]
          rfl
    · rw [operand] at read
      cases read
  next high =>
    cases read
    exact getOp2_plain (UInt8.not_le.mp high) _

/-- Where no operation stands nothing is read. -/
theorem getOp2_of_none (absent : getOp pc = none) : ∃ left, left <:+ pc ∧ getOp2 pc = .ok (stop left) := by
  rcases pc with _ | ⟨first, pc⟩
  · exact ⟨[], List.suffix_rfl, rfl⟩
  rw [getOp] at absent
  split at absent
  next push =>
    rw [getOp2_push push]
    rcases readSize_spec first pc with ⟨nSize, behind, operand, size⟩ | ⟨-, size⟩
    · rw [operand] at absent
      dsimp only at absent
      split at absent
      next short =>
        refine ⟨behind, (operandSize_suffix operand).trans (List.suffix_cons ..), ?_⟩
        rw [size]
        exact if_pos (lt_of_le_of_lt (Nat.mod_le ..) short)
      · cases absent
    · rw [size]
      exact ⟨pc, List.suffix_cons .., rfl⟩
  next => cases absent

/-- Fewer than 2^32 bytes are counted as they are. -/
theorem getOp2_of_small (small : pc.length < 2 ^ 32) (read : getOp pc = some (opcode, data, rest)) :
    getOp2 pc = .ok ⟨true, opcode, data, rest⟩ := by
  obtain ⟨bytes, operation, rfl⟩ := operation_of_getOp read
  have longer := operation.length_lt
  rw [List.length_append] at small
  rw [getOp2_of_getOp read, Nat.mod_eq_of_lt (by omega), if_neg (by omega)]

end Cursor

end CScript

end BitCrystal
