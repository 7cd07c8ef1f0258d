import BitCrystal.Proofs.ScriptCursor
import BitCrystal.Proofs.EvalScript

/-! # Scripts are read as they are built

`GetOp` gives back what `operator<<` has appended, item by item. The number of bytes that are left is compared
in 32 bits, so a script of 2^32 bytes or more is read up to the first byte string where they do not suffice.
-/

namespace BitCrystal.CScript

open Check

/-- What `GetOp` returns for an item: the opcode, or the pushed data. -/
def Item.Returns : Item → UInt8 × List UInt8 → Prop
  | .opcode op _, got => got = (op, [])
  | .vector b _, got => got.1 ≤ OP_PUSHDATA4 ∧ got.2 = b

/-- `GetOp` returns the items and then stops at the end. -/
def ReadsBack (items : List Item) : Prop :=
  ∃ ops, Cursor.getOps ((build items).length + 1) (build items) = .ok (ops, []) ∧ List.Forall₂ Item.Returns items ops

/-- From every byte string to the end, 32 bits of the number of bytes are enough. -/
def Counted (items : List Item) : Prop :=
  ∀ before b short after, items = before ++ Item.vector b short :: after →
    b.length ≤ (b.length + (build after).length) % 2 ^ 32

private theorem foldl_bytes (items : List Item) (script : CScript) :
    items.foldl (fun script item => script ++ item.bytes) script = script ++ build items := by
  unfold build
  induction items generalizing script with
  | nil => exact (List.append_nil _).symm
  | cons item items ih =>
    rw [List.foldl_cons, List.foldl_cons, ih, ih ([] ++ item.bytes), List.nil_append, List.append_assoc]

theorem build_cons (item : Item) (items : List Item) : build (item :: items) = item.bytes ++ build items :=
  foldl_bytes items _

theorem Item.bytes_ne_nil (item : Item) : item.bytes ≠ [] := by
  cases item with
  | opcode op high => exact List.cons_ne_nil _ _
  | vector b short =>
    apply List.ne_nil_of_length_pos
    exact (Nat.zero_le _).trans_lt (length_pushData b).1

theorem length_le_build (items : List Item) : items.length ≤ (build items).length := by
  induction items with
  | nil => exact Nat.zero_le _
  | cons item items ih =>
    have positive := List.length_pos_of_ne_nil item.bytes_ne_nil
    rw [build_cons, List.length_append, List.length_cons]
    omega

theorem counted_nil : Counted [] := by
  rintro before b short after split
  cases before <;> cases split

variable {items : List Item}

theorem counted_cons {item : Item} : Counted (item :: items) ↔
    (∀ b short, item = .vector b short → b.length ≤ (b.length + (build items).length) % 2 ^ 32) ∧ Counted items := by
  constructor
  · intro counted
    refine ⟨?_, ?_⟩
    · rintro b short rfl
      exact counted [] b short items rfl
    · rintro before b short after rfl
      exact counted (item :: before) b short after rfl
  · rintro ⟨head, tail⟩ before b short after split
    rcases before with _ | ⟨first, before⟩
    · obtain ⟨rfl, rfl⟩ := List.cons.inj split
      exact head b short rfl
    · obtain ⟨rfl, rfl⟩ := List.cons.inj split
      exact tail before b short after rfl

/-- A script of fewer than 2^32 bytes is counted as it is. -/
theorem counted_of_small (small : (build items).length < 2 ^ 32) : Counted items := by
  induction items with
  | nil => exact counted_nil
  | cons item items ih =>
    rw [build_cons, List.length_append] at small
    refine counted_cons.mpr ⟨?_, ih (by omega)⟩
    rintro b short rfl
    have longer : b.length < (Item.vector b short).bytes.length := (length_pushData b).1
    rw [Nat.mod_eq_of_lt (by omega)]
    omega

/-- An item at the iterator is returned if the bytes that are left are counted right. -/
theorem getOp2_bytes (item : Item) (rest : CScript) :
    ∃ op, Cursor.getOp2 (item.bytes ++ rest) = .ok op ∧
      (op.fRet = true ↔ ∀ b short, item = .vector b short → b.length ≤ (b.length + rest.length) % 2 ^ 32) ∧
      (op.fRet = true → item.Returns (op.opcodeRet, op.vchRet) ∧ op.pc = rest) := by
  cases item with
  | opcode op high => exact ⟨_, Cursor.getOp2_plain high rest, ⟨fun _ => nofun, fun _ => rfl⟩, fun _ => ⟨rfl, rfl⟩⟩
  | vector b short =>
    obtain ⟨opcode, low, read⟩ := getOp_pushData short rest
    refine ⟨_, Cursor.getOp2_of_getOp read, ?_⟩
    split
    next few =>
      refine ⟨⟨nofun, fun fits => ?_⟩, nofun⟩
      exact absurd (fits b short rfl) (not_le.mpr few)
    next enough =>
      refine ⟨⟨?_, fun _ => rfl⟩, fun _ => ⟨⟨low, rfl⟩, rfl⟩⟩
      rintro - b short ⟨⟩
      exact not_lt.mp enough

private theorem getOps_build {rounds : ℕ} (enough : items.length < rounds) :
    (∃ ops, Cursor.getOps rounds (build items) = .ok (ops, []) ∧ List.Forall₂ Item.Returns items ops) ↔
      Counted items := by
  induction items generalizing rounds with
  | nil =>
    obtain ⟨rounds, rfl⟩ := Nat.exists_eq_add_one_of_ne_zero (Nat.ne_of_gt enough)
    exact ⟨fun _ => counted_nil, fun _ => ⟨[], rfl, .nil⟩⟩
  | cons item items ih =>
    obtain ⟨rounds, rfl⟩ := Nat.exists_eq_add_one_of_ne_zero (Nat.ne_of_gt (Nat.zero_lt_of_lt enough))
    rw [List.length_cons] at enough
    obtain ⟨op, read, fits, returned⟩ := getOp2_bytes item (build items)
    rw [counted_cons, ← ih (by omega : items.length < rounds), build_cons, Cursor.getOps, read, ← fits]
    constructor
    · rintro ⟨ops, run, same⟩
      rw [ok_bind] at run
      split at run
      next done =>
        simp only [bind_eq_ok, pure_eq_ok, Prod.exists, Prod.mk.injEq] at run
        obtain ⟨others, last, run, rfl, rfl⟩ := run
        obtain ⟨-, behind⟩ := returned done
        rw [behind] at run
        exact ⟨done, others, run, (List.forall₂_cons.mp same).2⟩
      next =>
        simp only [pure_eq_ok, Prod.mk.injEq] at run
        rw [← run.1] at same
        cases same
    · rintro ⟨done, ops, run, same⟩
      obtain ⟨first, behind⟩ := returned done
      refine ⟨(op.opcodeRet, op.vchRet) :: ops, ?_, .cons first same⟩
      rw [ok_bind, if_pos done, behind, run]
      rfl

theorem readsBack_iff_counted (items : List Item) : ReadsBack items ↔ Counted items :=
  getOps_build (Nat.lt_succ_of_le (length_le_build items))

/-- For all bytes `GetOp` stays in the script, and what it returns is the operation that it has passed. -/
theorem getOp2_safe (pc : CScript) : ∃ op, Cursor.getOp2 pc = .ok op ∧ op.pc <:+ pc ∧
    (op.fRet = true → op.pc.length < pc.length ∧
      ∃ bytes, Operation op.opcodeRet op.vchRet bytes ∧ pc = bytes ++ op.pc) := by
  rcases read : getOp pc with _ | ⟨opcode, data, rest⟩
  · obtain ⟨left, inside, stopped⟩ := Cursor.getOp2_of_none read
    exact ⟨_, stopped, inside, nofun⟩
  · have shorter := (getOp_suffix read).2
    obtain ⟨bytes, operation, rfl⟩ := operation_of_getOp read
    refine ⟨_, Cursor.getOp2_of_getOp read, ?_⟩
    split
    · obtain ⟨front, rfl⟩ := operation.suffix
      rw [List.append_assoc]
      exact ⟨List.suffix_append .., nofun⟩
    · exact ⟨List.suffix_append .., fun _ => ⟨shorter, bytes, operation, rfl⟩⟩

/-- Items are read back just when the bytes left are counted right, as they are below 2^32 bytes; whatever the bytes,
`GetOp` stays in the script and passes exactly the operation it returns. -/
theorem getOp_build (items : List Item) (pc : CScript) : (ReadsBack items ↔ Counted items) ∧
    ((build items).length < 2 ^ 32 → ReadsBack items) ∧
    ∃ op, Cursor.getOp2 pc = .ok op ∧ op.pc <:+ pc ∧ (op.fRet = true → op.pc.length < pc.length ∧
      ∃ bytes, Operation op.opcodeRet op.vchRet bytes ∧ pc = bytes ++ op.pc) := by
  refine ⟨readsBack_iff_counted items, fun small => ?_, getOp2_safe pc⟩
  exact (readsBack_iff_counted items).mpr (counted_of_small small)

/-- One byte and a byte string that fill 2^32 bytes: none is left for the first one. -/
theorem not_readsBack : ¬ ∀ items : List Item, ReadsBack items := by
  intro all
  have short : (List.replicate (2 ^ 32 - 6) (0 : UInt8)).length < 2 ^ 32 := by
    rw [List.length_replicate]
    omega
  have counted := (readsBack_iff_counted [.vector [0] (by decide), .vector _ short]).mp (all _) [] [0] (by decide) _ rfl
  have left : (build [Item.vector _ short]).length = 2 ^ 32 - 1 := by
    rw [build_cons]
    change (pushData (List.replicate (2 ^ 32 - 6) (0 : UInt8)) ++ []).length = _
    rw [List.append_nil, pushData, List.length_append]
    simp only [List.length_replicate]
    rw [if_neg (by decide), if_neg (by decide), if_neg (by decide), List.length_cons, LittleEndian.length_encode]
    omega
  rw [left] at counted
  exact absurd counted (by decide)

end BitCrystal.CScript

/-! ## Deleting operations

`FindAndDelete` of one operation goes from boundary to boundary and leaves out the operations that are equal to it;
bytes inside of the data of another operation and behind the last operation that is read are kept. The function
of the interpreter computes the same script.
-/

namespace BitCrystal.CScript

open Check

variable {script b pc tail : CScript} {ops : List CScript} {rounds nFound : ℕ}

/-- The script is operations and a tail where the deletion of `b` ends: no match stands there, and nothing is read. -/
structure Walked (b script : CScript) (ops : List CScript) (tail : CScript) : Prop where
  script_eq : script = ops.flatten ++ tail
  operations : ∀ op ∈ ops, IsOperation op
  unmatched : ¬ b <+: tail
  unread : ∃ got, Cursor.getOp2 tail = .ok got ∧ got.fRet = false

/-- The operations other than `b`, and the tail. -/
def without (b : CScript) (ops : List CScript) (tail : CScript) : CScript :=
  (ops.filter fun op => op ≠ b).flatten ++ tail

theorem without_cons (b op : CScript) (ops : List CScript) (tail : CScript) :
    without b (op :: ops) tail = (if op = b then [] else op) ++ without b ops tail := by
  unfold without
  split
  next same => rw [List.filter_cons_of_neg (by simpa using same), List.nil_append]
  next other => rw [List.filter_cons_of_pos (by simpa using other), List.flatten_cons, List.append_assoc]

theorem Walked.nil (unmatched : ¬ b <+: tail) (unread : ∃ got, Cursor.getOp2 tail = .ok got ∧ got.fRet = false) :
    Walked b tail [] tail :=
  ⟨rfl, nofun, unmatched, unread⟩

theorem Walked.cons {op : CScript} (operation : IsOperation op) (walked : Walked b pc ops tail) :
    Walked b (op ++ pc) (op :: ops) tail where
  script_eq := by rw [walked.script_eq, List.flatten_cons, List.append_assoc]
  operations := List.forall_mem_cons.mpr ⟨operation, walked.operations⟩
  unmatched := walked.unmatched
  unread := walked.unread

/-- Below 2^32 bytes no operation stands where nothing is read. -/
theorem Walked.framed (walked : Walked b script ops tail) (small : script.length < 2 ^ 32) :
    Frames.Framed IsOperation script ops tail where
  stream_eq := walked.script_eq
  frames := walked.operations
  rest := by
    have inside : tail.length ≤ script.length := by
      rw [walked.script_eq, List.length_append]
      omega
    apply getOp_eq_none_iff.mp
    obtain ⟨got, read, failed⟩ := walked.unread
    rcases found : getOp tail with _ | ⟨opcode, data, rest⟩
    · rfl
    · rw [Cursor.getOp2_of_small (by omega) found] at read
      cases read
      cases failed

theorem findAndDeleteLoop_match (matched : b <+: pc) : Cursor.findAndDeleteLoop b (rounds + 1) pc nFound =
    (rejectIf (2 ^ 31 ≤ nFound + 1) .overflow >>= fun _ =>
      Cursor.findAndDeleteLoop b rounds (pc.drop b.length) (nFound + 1)) :=
  if_pos (List.isPrefixOf_iff_prefix.mpr matched)

theorem findAndDeleteLoop_unmatched {got : GetOpResult} (unmatched : ¬ b <+: pc) (read : Cursor.getOp2 pc = .ok got) :
    Cursor.findAndDeleteLoop b (rounds + 1) pc nFound =
      if got.fRet then Cursor.findAndDeleteLoop b rounds got.pc nFound >>= fun (rest, nFound) =>
        .ok (pc.take (pc.length - got.pc.length) ++ rest, nFound)
      else .ok (pc, nFound) := by
  rw [Cursor.findAndDeleteLoop, if_neg (fun matched => unmatched (List.isPrefixOf_iff_prefix.mp matched)), read]
  rfl

/-- What is read at a boundary is the operation that stands there. -/
theorem getOp2_operation {op : CScript} (operation : IsOperation op) (rest : CScript) :
    ∃ got, Cursor.getOp2 (op ++ rest) = .ok got ∧ (got.fRet = true → got.pc = rest) := by
  obtain ⟨opcode, data, operation⟩ := operation
  refine ⟨_, Cursor.getOp2_of_getOp (operation.getOp rest), ?_⟩
  split
  · exact nofun
  · exact fun _ => rfl

private theorem take_front (front rest : CScript) : (front ++ rest).take ((front ++ rest).length - rest.length) = front := by
  rw [List.length_append, Nat.add_sub_cancel, List.take_left]

theorem findAndDeleteLoop_spec (operation : IsOperation b) (enough : pc.length < rounds) (room : nFound < 2 ^ 31) :
    ∃ ops tail, Walked b pc ops tail ∧ Cursor.findAndDeleteLoop b rounds pc nFound =
      if nFound + ops.count b < 2 ^ 31 then .ok (without b ops tail, nFound + ops.count b) else .error .overflow := by
  induction rounds generalizing pc nFound with
  | zero => exact absurd enough (Nat.not_lt_zero _)
  | succ rounds ih =>
    by_cases matched : b <+: pc
    · rw [findAndDeleteLoop_match matched]
      obtain ⟨rest, rfl⟩ := matched
      have positive := List.length_pos_of_ne_nil operation.ne_nil
      rw [List.length_append] at enough
      rw [List.drop_left]
      by_cases last : nFound + 1 < 2 ^ 31
      · obtain ⟨ops, tail, walked, run⟩ := ih (by omega : rest.length < rounds) last
        refine ⟨b :: ops, tail, walked.cons operation, ?_⟩
        rw [rejectIf, if_neg (not_le.mpr last), ok_bind, run, without_cons, if_pos rfl, List.nil_append,
          List.count_cons_self, Nat.add_assoc, Nat.add_comm 1]
      · obtain ⟨ops, tail, walked, -⟩ := ih (by omega : rest.length < rounds) room
        refine ⟨b :: ops, tail, walked.cons operation, ?_⟩
        have beyond : ¬ nFound + (b :: ops).count b < 2 ^ 31 := by
          rw [List.count_cons_self]
          omega
        rw [rejectIf, if_pos (not_lt.mp last), error_bind, if_neg beyond]
    · obtain ⟨got, read, -, passed⟩ := getOp2_safe pc
      rw [findAndDeleteLoop_unmatched matched read]
      split
      next done =>
        obtain ⟨shorter, bytes, single, pc_eq⟩ := passed done
        obtain ⟨ops, tail, walked, run⟩ := ih (by omega : got.pc.length < rounds) room
        have other : bytes ≠ b := by
          rintro rfl
          exact matched (pc_eq ▸ List.prefix_append ..)
        refine ⟨bytes :: ops, tail, pc_eq ▸ walked.cons ⟨_, _, single⟩, ?_⟩
        have front : pc.take (pc.length - got.pc.length) = bytes := by
          rw [pc_eq, take_front]
        rw [run, front, without_cons, if_neg other, List.count_cons_of_ne other]
        split <;> rfl
      next failed =>
        refine ⟨[], pc, .nil matched ⟨got, read, Bool.eq_false_iff.mpr failed⟩, ?_⟩
        exact (if_pos room).symm

/-- Where no match stands at a boundary, nothing changes. -/
theorem findAndDeleteLoop_absent (operation : IsOperation b) (walked : Walked b pc ops tail) (absent : b ∉ ops)
    (enough : pc.length < rounds) : Cursor.findAndDeleteLoop b rounds pc nFound = .ok (pc, nFound) := by
  induction ops generalizing pc rounds with
  | nil =>
    obtain ⟨rounds, rfl⟩ := Nat.exists_eq_add_one_of_ne_zero (Nat.ne_of_gt (Nat.zero_lt_of_lt enough))
    have last : pc = tail := walked.script_eq
    subst last
    obtain ⟨got, read, failed⟩ := walked.unread
    rw [findAndDeleteLoop_unmatched walked.unmatched read, if_neg (by rw [failed]; exact Bool.false_ne_true)]
  | cons op ops ih =>
    obtain ⟨rounds, rfl⟩ := Nat.exists_eq_add_one_of_ne_zero (Nat.ne_of_gt (Nat.zero_lt_of_lt enough))
    have single := walked.operations op List.mem_cons_self
    have pc_eq : pc = op ++ (ops.flatten ++ tail) := by
      rw [walked.script_eq, List.flatten_cons, List.append_assoc]
    have behind : Walked b (ops.flatten ++ tail) ops tail :=
      ⟨rfl, fun other member => walked.operations other (List.mem_cons_of_mem _ member), walked.unmatched, walked.unread⟩
    rw [List.mem_cons, not_or] at absent
    obtain ⟨other, absent⟩ := absent
    subst pc_eq
    have unmatched : ¬ b <+: op ++ (ops.flatten ++ tail) := fun matched =>
      other ((prefixFree_isOperation.prefix_append_iff operation single).mp matched)
    obtain ⟨got, read, passed⟩ := getOp2_operation single (ops.flatten ++ tail)
    rw [findAndDeleteLoop_unmatched unmatched read]
    split
    next done =>
      have positive := List.length_pos_of_ne_nil single.ne_nil
      rw [List.length_append] at enough
      rw [passed done, ih behind absent (by omega), take_front]
      rfl
    next => rfl

theorem findAndDelete_of_operation (operation : IsOperation b) (script : CScript) :
    Cursor.findAndDelete script b = Cursor.findAndDeleteLoop b (script.length + 1) script 0 :=
  if_neg operation.ne_nil

theorem Walked.without (walked : Walked b script ops tail) :
    Walked b (CScript.without b ops tail) (ops.filter fun op => op ≠ b) tail where
  script_eq := rfl
  operations op member := walked.operations op (List.mem_of_mem_filter member)
  unmatched := walked.unmatched
  unread := walked.unread

/-- Exactly the operations equal to `b` are deleted, and a second call finds none; the count is an `int`. -/
theorem findAndDelete_exact (script b : CScript) (operation : IsOperation b) : ∃ ops tail, Walked b script ops tail ∧
    (script.length < 2 ^ 32 → Frames.Framed IsOperation script ops tail) ∧
    Cursor.findAndDelete script b =
      (if ops.count b < 2 ^ 31 then .ok (without b ops tail, ops.count b) else .error .overflow) ∧
    Cursor.findAndDelete (without b ops tail) b = .ok (without b ops tail, 0) := by
  obtain ⟨ops, tail, walked, run⟩ := findAndDeleteLoop_spec operation (Nat.lt_succ_self script.length)
    (by decide : 0 < 2 ^ 31)
  rw [Nat.zero_add] at run
  refine ⟨ops, tail, walked, walked.framed, ?_, ?_⟩
  · rw [findAndDelete_of_operation operation, run]
  · rw [findAndDelete_of_operation operation]
    have absent : b ∉ ops.filter fun op => op ≠ b := by simp
    exact findAndDeleteLoop_absent operation walked.without absent (Nat.lt_succ_self _)

private theorem isOperation_codeSeparator : IsOperation [OP_CODESEPARATOR] :=
  ⟨OP_CODESEPARATOR, [], .plain (by decide)⟩

/-- Two separators go, also next to each other; the one that is data of a push stays, and so does the push that is
cut off. -/
theorem findAndDelete_exact_separators :
    Cursor.findAndDelete [0xab, 0xab, 1, 0xab, 2, 0xab] [OP_CODESEPARATOR] = .ok ([1, 0xab, 2, 0xab], 2) ∧
    ∃ ops tail, Walked [OP_CODESEPARATOR] [0xab, 0xab, 1, 0xab, 2, 0xab] ops tail ∧
    (6 < 2 ^ 32 → Frames.Framed IsOperation [0xab, 0xab, 1, 0xab, 2, 0xab] ops tail) ∧
    Cursor.findAndDelete [0xab, 0xab, 1, 0xab, 2, 0xab] [OP_CODESEPARATOR] =
      (if ops.count [OP_CODESEPARATOR] < 2 ^ 31 then
        .ok (without [OP_CODESEPARATOR] ops tail, ops.count [OP_CODESEPARATOR]) else .error .overflow) ∧
    Cursor.findAndDelete (without [OP_CODESEPARATOR] ops tail) [OP_CODESEPARATOR] =
      .ok (without [OP_CODESEPARATOR] ops tail, 0) :=
  ⟨by decide, findAndDelete_exact _ _ isOperation_codeSeparator⟩

private theorem findAndDeleteLoop_separators {n rounds nFound : ℕ} (enough : n < rounds) (room : nFound < 2 ^ 31)
    (many : 2 ^ 31 ≤ nFound + n) :
    Cursor.findAndDeleteLoop [OP_CODESEPARATOR] rounds (List.replicate n OP_CODESEPARATOR) nFound = .error .overflow := by
  induction n generalizing rounds nFound with
  | zero => exact absurd many (not_le.mpr room)
  | succ n ih =>
    obtain ⟨rounds, rfl⟩ := Nat.exists_eq_add_one_of_ne_zero (Nat.ne_of_gt (Nat.zero_lt_of_lt enough))
    have matched : [OP_CODESEPARATOR] <+: List.replicate (n + 1) OP_CODESEPARATOR := ⟨List.replicate n OP_CODESEPARATOR, rfl⟩
    rw [findAndDeleteLoop_match matched, rejectIf]
    split
    next => rfl
    next small =>
      rw [ok_bind]
      exact ih (by omega) (not_le.mp small) (by omega)

/-- The `int` does not count 2^31 separators. -/
theorem not_findAndDelete_exact : ¬ ∀ script b, IsOperation b → ∃ ops tail, Walked b script ops tail ∧
    Cursor.findAndDelete script b = .ok (without b ops tail, ops.count b) := by
  intro all
  obtain ⟨ops, tail, -, run⟩ := all (List.replicate (2 ^ 31) OP_CODESEPARATOR) [OP_CODESEPARATOR]
    isOperation_codeSeparator
  rw [findAndDelete_of_operation isOperation_codeSeparator, List.length_replicate,
    findAndDeleteLoop_separators (Nat.lt_succ_self _) (by decide) (by omega)] at run
  cases run

private theorem findAndDeleteLoop_eq (nonempty : b ≠ []) (enough : pc.length ≤ rounds) (small : nFound + pc.length < 2 ^ 31) :
    ∃ n, Cursor.findAndDeleteLoop b (rounds + 1) pc nFound = .ok (CScript.findAndDeleteLoop b rounds pc, n) := by
  induction rounds generalizing pc nFound with
  | zero =>
    obtain rfl := List.eq_nil_of_length_eq_zero (Nat.le_zero.mp enough)
    have unmatched : ¬ b <+: [] := fun matched => nonempty (List.prefix_nil.mp matched)
    rw [findAndDeleteLoop_unmatched unmatched rfl]
    exact ⟨nFound, rfl⟩
  | succ rounds ih =>
    rw [CScript.findAndDeleteLoop]
    by_cases matched : b <+: pc
    · rw [findAndDeleteLoop_match matched, if_pos (List.isPrefixOf_iff_prefix.mpr matched)]
      obtain ⟨rest, rfl⟩ := matched
      have longer := List.length_pos_of_ne_nil nonempty
      rw [List.length_append] at enough small
      rw [rejectIf, if_neg (by omega), ok_bind, List.drop_left]
      exact ih (by omega) (by omega)
    · rw [if_neg fun found => matched (List.isPrefixOf_iff_prefix.mp found)]
      rcases found : getOp pc with _ | ⟨opcode, data, rest⟩
      · obtain ⟨left, -, read⟩ := Cursor.getOp2_of_none found
        exact ⟨nFound, findAndDeleteLoop_unmatched matched read⟩
      · have shorter := (getOp_suffix found).2
        obtain ⟨n, run⟩ := @ih rest nFound (by omega) (by omega)
        rw [findAndDeleteLoop_unmatched matched (Cursor.getOp2_of_small (by omega) found), if_pos rfl, run]
        exact ⟨n, rfl⟩

/-- Below 2^31 bytes the interpreter goes on with the script that `FindAndDelete` leaves. -/
theorem findAndDelete_refines (small : script.length < 2 ^ 31) (b : CScript) :
    ∃ n, Cursor.findAndDelete script b = .ok (script.findAndDelete b, n) := by
  unfold Cursor.findAndDelete CScript.findAndDelete
  split
  next => exact ⟨0, rfl⟩
  next empty => exact findAndDeleteLoop_eq empty le_rfl (by omega)

end BitCrystal.CScript
