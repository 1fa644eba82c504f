import Banjo.Lib.MovedBytes
import Banjo.Target.X8664.BranchArgs

/-!
# Copies and aggregates of odd sizes

A `COPY` of up to 64 bytes is lowered to moves of 8, 4, 2 and 1 bytes, each through a register of
its own, from and to addresses that have to be registers or stack slots. A larger one becomes a
call of `memcpy`. A `LOAD` or a `STORE` of 3, 5, 6 or 7 bytes is taken apart into two or three
accesses.
-/

open List BitVec Function

namespace Banjo.Target.X8664

open SSA
open Codegen (StackSlotID)

/-! ## Copies -/

/-- What `map_vreg` returns. -/
inductive BlockBase where
  | register (reg : VirtualRegister)
  | stack (slot : StackSlotID)
  deriving DecidableEq, Repr

/-- The address of a piece: `X8664Address` with a register, or a `StackAddress`. -/
structure BlockAddr where
  base : BlockBase
  offset : ℕ
  deriving DecidableEq, Repr

/-- `MOV tmp, [src]`, `MOV [dst], tmp` and the call of `memcpy`, whose arguments are passed as those
of every call. -/
inductive CopyInstr where
  | load (tmp : ℕ) (src : BlockAddr) (size : ℕ)
  | store (dst : BlockAddr) (tmp : ℕ) (size : ℕ)
  | callMemcpy (dst src : Operand) (size : ℕ)
  deriving DecidableEq, Repr

section Lowering

variable (slots : VirtualRegister → Option StackSlotID)

/-- `map_vreg` of an operand that has to be a register. -/
def mapVreg (operand : Operand) : Option BlockBase :=
  match operand.value with
  | .register reg =>
    match slots reg with
    | some slot => some (.stack slot)
    | none => some (.register reg)
  | _ => none

/-- The offsets and sizes of the moves, while a move of the first of the sizes still fits. -/
def blockMoves : List ℕ → ℕ → ℕ → List (ℕ × ℕ)
  | [], _, _ => []
  | movSize :: movSizes, size, offset =>
    (List.range (size / movSize)).map (fun i ↦ (offset + movSize * i, movSize)) ++
      blockMoves movSizes (size % movSize) (offset + movSize * (size / movSize))

/-- The two instructions of a move, with the register it goes through. -/
def blockMove (dst src : BlockBase) (move : (ℕ × ℕ) × ℕ) : List CopyInstr :=
  [.load move.2 ⟨src, move.1.1⟩ move.1.2, .store ⟨dst, move.1.1⟩ move.2 move.1.2]

/-- `copy_block_using_movs`. -/
def copyBlockUsingMovs (instr : Instruction) (size : ℕ) : Option (List CopyInstr) := do
  let dst ← mapVreg slots (instr.getOperand 0)
  let src ← mapVreg slots (instr.getOperand 1)
  return (blockMoves [8, 4, 2, 1] size 0).zipIdx.flatMap (blockMove dst src)

/-- `lower_copy`. -/
def lowerCopy (layout : DataLayout) (instr : Instruction) : Option (List CopyInstr) :=
  let size := layout.size (instr.getOperand 2).type
  if size ≤ 64 then copyBlockUsingMovs slots instr size
  else some [.callMemcpy (instr.getOperand 0) (instr.getOperand 1) size]

end Lowering

/-- What copies are executed on: the SSA registers, the addresses of stack slots, and `memcpy`. -/
structure CopyMachine where
  words : WordMachine
  env : VirtualRegister → BitVec 64
  slotAddr : StackSlotID → Address
  memcpy : Address → Address → ℕ → Memory → Memory

structure CopyState where
  tmps : ℕ → BitVec 64
  mem : Memory

namespace CopyMachine

variable (C : CopyMachine)

def baseAddr : BlockBase → Address
  | .register reg => C.env reg
  | .stack slot => C.slotAddr slot

def addr (addr : BlockAddr) : Address := C.baseAddr addr.base + BitVec.ofNat 64 addr.offset

def exec (st : CopyState) : CopyInstr → CopyState
  | .load tmp src size =>
    let word := Memory.ofBytes (st.mem.read (C.addr src) size)
    { st with tmps := update st.tmps tmp (writeSized size (st.tmps tmp) word) }
  | .store dst tmp size =>
    { st with mem := st.mem.write (C.addr dst) (Memory.toBytes (st.tmps tmp) size) }
  | .callMemcpy dst src size =>
    { st with
      mem := C.memcpy (C.words.value C.env dst) (C.words.value C.env src) size st.mem }

def run (st : CopyState) (code : List CopyInstr) : CopyState := code.foldl C.exec st

/-- The registers of `ALLOCA`s are the addresses of the stack slots. -/
def Allocated (slots : VirtualRegister → Option StackSlotID) : Prop :=
  ∀ reg slot, slots reg = some slot → C.env reg = C.slotAddr slot

end CopyMachine

/-- What is documented of `memcpy`: the bytes are moved if no byte is in both places. -/
def IsMemcpy (memcpy : Address → Address → ℕ → Memory → Memory) : Prop :=
  ∀ dst src size, (∀ a, Memory.Within dst size a → ¬Memory.Within src size a) →
    ∀ mem, memcpy dst src size mem = mem.moved dst src size

/-- A `COPY` is lowered to code that leaves the memory it leaves, with every `memcpy`. -/
def CopyRight (M : WordMachine) (slots : VirtualRegister → Option StackSlotID)
    (slotAddr : StackSlotID → Address) (env : VirtualRegister → BitVec 64) (instr : Instruction) :
    Prop :=
  ∃ code, lowerCopy slots M.layout instr = some code ∧ ∀ memcpy, IsMemcpy memcpy →
    ∀ st : CopyState, M.stored ⟨env, st.mem⟩ instr
      = some ((CopyMachine.mk M env slotAddr memcpy).run st code).mem

/-- The operands of a `COPY` of up to 64 bytes are registers, and if more than one piece is moved
the destination does not start inside the source. What `memcpy` moves does not overlap. -/
def CopyCondition (M : WordMachine) (env : VirtualRegister → BitVec 64) (instr : Instruction) :
    Prop :=
  let dst := M.value env (instr.getOperand 0)
  let src := M.value env (instr.getOperand 1)
  let size := M.layout.size (instr.getOperand 2).type
  if size ≤ 64 then
    (instr.getOperand 0).value.isRegister = true ∧ (instr.getOperand 1).value.isRegister = true ∧
      (size ∈ [0, 1, 2, 4, 8] ∨ ¬Memory.Ahead dst src size)
  else ∀ a, Memory.Within dst size a → ¬Memory.Within src size a

section Copies

variable {M : WordMachine} {slots : VirtualRegister → Option StackSlotID}
  {slotAddr : StackSlotID → Address} {env : VirtualRegister → BitVec 64} {instr : Instruction}

/-- The bytes of a word are those of its lower bits. -/
theorem toBytes_congr {word word' : BitVec 64} {n : ℕ}
    (h : word.setWidth (8 * n) = word'.setWidth (8 * n)) :
    Memory.toBytes word n = Memory.toBytes word' n := by
  refine map_congr_left fun i hi ↦ eq_of_getLsbD_eq fun k hk ↦ ?_
  have hin : i < n := mem_range.mp hi
  have hbit := congrArg (fun bits ↦ BitVec.getLsbD bits (8 * i + k)) h
  have hlt : 8 * i + k < 8 * n := by omega
  simp only [getLsbD_setWidth, hlt, decide_true, Bool.true_and] at hbit
  simp only [truncate_eq_setWidth, getLsbD_setWidth, getLsbD_ushiftRight, hbit]

variable (C : CopyMachine)

variable {size : ℕ}

/-- A move through a register moves the bytes. -/
theorem run_blockMove (st : CopyState) (dst src : BlockBase) (offset tmp : ℕ)
    (h : size ∈ [8, 4, 2, 1]) :
    (C.run st (blockMove dst src ((offset, size), tmp))).mem
      = st.mem.moved (C.baseAddr dst + BitVec.ofNat 64 offset)
          (C.baseAddr src + BitVec.ofNat 64 offset) size := by
  simp only [mem_cons, not_mem_nil, or_false] at h
  have hlength := st.mem.length_read (C.addr ⟨src, offset⟩) size
  have hbytes : Memory.toBytes (update st.tmps tmp (writeSized size (st.tmps tmp)
        (Memory.ofBytes (st.mem.read (C.addr ⟨src, offset⟩) size))) tmp) size
      = st.mem.read (C.addr ⟨src, offset⟩) size := by
    rw [update_self, toBytes_congr (setWidth_writeSized (by omega))]
    nth_rewrite 2 [← hlength]
    exact Memory.toBytes_ofBytes (by omega)
  exact congrArg (st.mem.write (C.addr ⟨dst, offset⟩)) hbytes

theorem run_blockMoves (dst src : BlockBase) {moves : List ((ℕ × ℕ) × ℕ)}
    (h : ∀ move ∈ moves, move.1.2 ∈ [8, 4, 2, 1]) (st : CopyState) :
    (C.run st (moves.flatMap (blockMove dst src))).mem
      = Memory.movedPieces (C.baseAddr dst) (C.baseAddr src) st.mem (moves.map Prod.fst) := by
  induction moves generalizing st with
  | nil => rfl
  | cons move moves ih =>
    rw [forall_mem_cons] at h
    have hfirst := run_blockMove C st dst src move.1.1 move.2 h.1
    rw [flatMap_cons, CopyMachine.run, foldl_append, map_cons, Memory.movedPieces,
      foldl_cons, ← hfirst]
    exact ih h.2 _

/-- The moves of every size up to 64 follow each other. -/
theorem blockMoves_spec : ∀ size < 65, Memory.Tiles 0 size (blockMoves [8, 4, 2, 1] size 0) ∧
    (blockMoves [8, 4, 2, 1] size 0).all (fun move ↦ move.2 ∈ [8, 4, 2, 1]) = true ∧
    ((blockMoves [8, 4, 2, 1] size 0).head?.all (fun move ↦ move.2 = size) = true ↔
      size ∈ [0, 1, 2, 4, 8]) := by
  decide +kernel

theorem forall_movedPieces_blockMoves_iff {dst src : Address} (h : size < 65) :
    (∀ mem : Memory, Memory.movedPieces dst src mem (blockMoves [8, 4, 2, 1] size 0)
      = mem.moved dst src size) ↔ size ∈ [0, 1, 2, 4, 8] ∨ ¬Memory.Ahead dst src size := by
  obtain ⟨htiles, -, hhead⟩ := blockMoves_spec size h
  rw [← hhead]
  cases hmoves : blockMoves [8, 4, 2, 1] size 0 with
  | nil =>
    rw [hmoves] at htiles
    obtain rfl : 0 = size := htiles
    refine iff_of_true (fun mem ↦ funext fun a ↦ ?_) (.inl rfl)
    exact (Memory.moved_of_not_within (Nat.not_lt_zero _)).symm
  | cons move moves =>
    obtain ⟨offset, first⟩ := move
    rw [hmoves] at htiles
    obtain rfl : offset = 0 := htiles.1
    rw [Memory.forall_movedPieces_iff (by omega) htiles]
    simp

/-- Registers are mapped to what has their value. -/
theorem mapVreg_spec (halloc : C.Allocated slots) (operand : Operand) :
    match mapVreg slots operand with
    | some base => operand.value.isRegister = true ∧ C.baseAddr base = C.words.value C.env operand
    | none => operand.value.isRegister = false := by
  cases hvalue : operand.value with
  | register reg =>
    have hword : C.words.value C.env operand = C.env reg := by rw [WordMachine.value, hvalue]
    rw [mapVreg, hvalue, hword]
    cases hslot : slots reg with
    | none =>
      simp only [hslot]
      exact ⟨rfl, rfl⟩
    | some slot =>
      simp only [hslot]
      exact ⟨rfl, (halloc reg slot hslot).symm⟩
  | _ =>
    rw [mapVreg, hvalue]
    rfl

theorem stored_copy (hcopy : instr.opcode = .COPY) (mem : Memory) :
    M.stored ⟨env, mem⟩ instr = some (mem.moved (M.value env (instr.getOperand 0))
      (M.value env (instr.getOperand 1)) (M.layout.size (instr.getOperand 2).type)) := by
  rw [WordMachine.stored, hcopy]
  rfl

theorem isMemcpy_moved : IsMemcpy fun dst src size mem ↦ mem.moved dst src size :=
  fun _ _ _ _ _ ↦ rfl

/-- Code that does the same with every `memcpy` is right if it leaves what the copy leaves. -/
theorem copyRight_iff_of_lowerCopy (hcopy : instr.opcode = .COPY) {code : List CopyInstr}
    (hcode : lowerCopy slots M.layout instr = some code) :
    CopyRight M slots slotAddr env instr ↔ ∀ memcpy, IsMemcpy memcpy → ∀ st : CopyState,
      ((CopyMachine.mk M env slotAddr memcpy).run st code).mem
        = st.mem.moved (M.value env (instr.getOperand 0)) (M.value env (instr.getOperand 1))
            (M.layout.size (instr.getOperand 2).type) := by
  rw [CopyRight, hcode]
  simp only [Option.some.injEq, exists_eq_left', stored_copy hcopy]
  exact forall_congr' fun _ ↦ forall_congr' fun _ ↦ forall_congr' fun _ ↦ eq_comm

theorem copyRight_small_iff (hcopy : instr.opcode = .COPY)
    (halloc : ∀ reg slot, slots reg = some slot → env reg = slotAddr slot)
    (hsize : M.layout.size (instr.getOperand 2).type ≤ 64) :
    CopyRight M slots slotAddr env instr ↔ CopyCondition M env instr := by
  have hspec := fun memcpy ↦ mapVreg_spec ⟨M, env, slotAddr, memcpy⟩ halloc
  have hlower : lowerCopy slots M.layout instr
      = copyBlockUsingMovs slots instr (M.layout.size (instr.getOperand 2).type) := if_pos hsize
  have hfails : lowerCopy slots M.layout instr = none → ¬CopyRight M slots slotAddr env instr := by
    rintro hnone ⟨code, hcode, -⟩
    rw [hnone] at hcode
    cases hcode
  rw [CopyCondition, if_pos hsize]
  cases hdst : mapVreg slots (instr.getOperand 0) with
  | none =>
    have hno := hspec (fun _ _ _ mem ↦ mem) (instr.getOperand 0)
    simp only [hdst] at hno
    refine iff_of_false (hfails ?_) fun h ↦ absurd (hno.symm.trans h.1) (by decide)
    rw [hlower, copyBlockUsingMovs, hdst]
    rfl
  | some dst =>
    cases hsrc : mapVreg slots (instr.getOperand 1) with
    | none =>
      have hno := hspec (fun _ _ _ mem ↦ mem) (instr.getOperand 1)
      simp only [hsrc] at hno
      refine iff_of_false (hfails ?_) fun h ↦ absurd (hno.symm.trans h.2.1) (by decide)
      rw [hlower, copyBlockUsingMovs, hdst, hsrc]
      rfl
    | some src =>
      have hdst' := fun memcpy ↦ hspec memcpy (instr.getOperand 0)
      have hsrc' := fun memcpy ↦ hspec memcpy (instr.getOperand 1)
      simp only [hdst] at hdst'
      simp only [hsrc] at hsrc'
      have hcode : lowerCopy slots M.layout instr
          = some ((blockMoves [8, 4, 2, 1]
              (M.layout.size (instr.getOperand 2).type) 0).zipIdx.flatMap
                (blockMove dst src)) := by
        rw [hlower, copyBlockUsingMovs, hdst, hsrc]
        rfl
      have hall := (blockMoves_spec _ (Nat.lt_succ_of_le hsize)).2.1
      have hmoves : ∀ move ∈ (blockMoves [8, 4, 2, 1]
          (M.layout.size (instr.getOperand 2).type) 0).zipIdx, move.1.2 ∈ [8, 4, 2, 1] := by
        intro move hmove
        exact of_decide_eq_true (all_eq_true.mp hall _ (fst_mem_of_mem_zipIdx hmove))
      rw [copyRight_iff_of_lowerCopy hcopy hcode,
        and_iff_right (hdst' fun _ _ _ mem ↦ mem).1, and_iff_right (hsrc' fun _ _ _ mem ↦ mem).1,
        ← forall_movedPieces_blockMoves_iff (Nat.lt_succ_of_le hsize)]
      have hrun : ∀ memcpy (st : CopyState), ((CopyMachine.mk M env slotAddr memcpy).run st
          ((blockMoves [8, 4, 2, 1] (M.layout.size (instr.getOperand 2).type) 0).zipIdx.flatMap
            (blockMove dst src))).mem
          = Memory.movedPieces (M.value env (instr.getOperand 0)) (M.value env (instr.getOperand 1))
              st.mem (blockMoves [8, 4, 2, 1] (M.layout.size (instr.getOperand 2).type) 0) := by
        intro memcpy st
        rw [run_blockMoves _ _ _ hmoves, (hdst' memcpy).2, (hsrc' memcpy).2, zipIdx_map_fst]
      simp only [hrun]
      exact ⟨fun h mem ↦ h _ isMemcpy_moved ⟨fun _ ↦ 0, mem⟩, fun h _ _ st ↦ h st.mem⟩

/-- A `memcpy` that moves nothing as it should where the places overlap. -/
theorem isMemcpy_disturbed : ∃ memcpy, IsMemcpy memcpy ∧ ∀ dst src size,
    (∀ mem, memcpy dst src size mem = mem.moved dst src size) →
      ∀ a, Memory.Within dst size a → ¬Memory.Within src size a := by
  classical
  refine ⟨fun dst src size mem ↦
    if ∀ a, Memory.Within dst size a → ¬Memory.Within src size a then mem.moved dst src size
    else fun a ↦ mem.moved dst src size a + 1, fun dst src size h mem ↦ if_pos h, ?_⟩
  intro dst src size hmoved
  by_contra hoverlap
  have hbyte := congrFun (hmoved fun _ ↦ 0) 0
  simp only [if_neg hoverlap] at hbyte
  have hone : (1 : BitVec 8) = 0 := add_eq_left.mp hbyte
  exact absurd hone (by decide)

/-- **A copy is right exactly if its operands are registers where it is moved in pieces, and what is
moved does not overlap where this matters.** -/
theorem copyRight_iff (hcopy : instr.opcode = .COPY)
    (halloc : ∀ reg slot, slots reg = some slot → env reg = slotAddr slot) :
    CopyRight M slots slotAddr env instr ↔ CopyCondition M env instr := by
  by_cases hsize : M.layout.size (instr.getOperand 2).type ≤ 64
  · exact copyRight_small_iff hcopy halloc hsize
  · have hcode : lowerCopy slots M.layout instr = some [.callMemcpy (instr.getOperand 0)
        (instr.getOperand 1) (M.layout.size (instr.getOperand 2).type)] := if_neg hsize
    rw [copyRight_iff_of_lowerCopy hcopy hcode, CopyCondition, if_neg hsize]
    constructor
    · intro h
      obtain ⟨memcpy, hmemcpy, hdisjoint⟩ := isMemcpy_disturbed
      exact hdisjoint _ _ _ fun mem ↦ h memcpy hmemcpy ⟨fun _ ↦ 0, mem⟩
    · exact fun h memcpy hmemcpy st ↦ hmemcpy _ _ _ h st.mem

end Copies

/-! ## Loads and stores of odd sizes -/

/-- A register of these instructions: one of the function, or one that `create_tmp_reg` returns. -/
inductive MoveReg where
  | vreg (reg : VirtualRegister)
  | tmp (index : ℕ)
  deriving DecidableEq, Repr

/-- The instructions of an access that is taken apart. The size of a move is that of its address. -/
inductive MoveInstr where
  | addr (instr : AddrInstr)
  | mov (dst : MoveReg) (src : AddrOperand) (size : ℕ)
  | movzx (dst : MoveReg) (src : AddrOperand) (size : ℕ)
  | movReg (dst src : MoveReg) (size : ℕ)
  | shl (dst : MoveReg) (count size : ℕ)
  | shr (dst : MoveReg) (count size : ℕ)
  | or (dst src : MoveReg) (size : ℕ)
  | store (dst : AddrOperand) (src : MoveReg) (size : ℕ)
  deriving DecidableEq, Repr

/-- `AddrComponents::offset`. -/
def AddrComponents.offset (addr : AddrComponents) (offset : ℕ) : AddrComponents :=
  { addr with constOffset := addr.constOffset + ⟨BitVec.ofNat 64 offset, false⟩ }

section Lowering

variable (unix : Bool) (slots : VirtualRegister → Option StackSlotID)

/-- An instruction with the operand of `lower_addr_mem_access`, behind what that emits. -/
def lowerPart (addr : AddrComponents) (use : AddrOperand → MoveInstr) : Option (List MoveInstr) :=
  (lowerAddrMemAccess unix slots addr).map fun (first, operand) ↦ first.map .addr ++ [use operand]

/-- `lower_load` of a size that is taken apart. -/
def lowerOddLoad (size : ℕ) (dst : MoveReg) (addr : AddrComponents) : Option (List MoveInstr) := do
  if size = 3 then
    let low ← lowerPart unix slots addr fun src ↦ .movzx dst src 2
    let high ← lowerPart unix slots (addr.offset 2) fun src ↦ .movzx (.tmp 0) src 1
    return low ++ high ++ [.shl (.tmp 0) 16 4, .or dst (.tmp 0) 4]
  else if size = 5 then
    let low ← lowerPart unix slots addr fun src ↦ .mov dst src 4
    let high ← lowerPart unix slots (addr.offset 4) fun src ↦ .movzx (.tmp 0) src 1
    return low ++ high ++ [.shl (.tmp 0) 32 8, .or dst (.tmp 0) 8]
  else if size = 6 then
    let low ← lowerPart unix slots addr fun src ↦ .mov dst src 4
    let high ← lowerPart unix slots (addr.offset 4) fun src ↦ .movzx (.tmp 0) src 2
    return low ++ high ++ [.shl (.tmp 0) 32 8, .or dst (.tmp 0) 8]
  else if size = 7 then
    let low ← lowerPart unix slots addr fun src ↦ .mov dst src 4
    let middle ← lowerPart unix slots (addr.offset 4) fun src ↦ .movzx (.tmp 0) src 2
    let high ← lowerPart unix slots (addr.offset 6) fun src ↦ .movzx (.tmp 1) src 1
    return low ++ middle ++ high ++
      [.shl (.tmp 0) 32 8, .shl (.tmp 1) 48 8, .or dst (.tmp 0) 8, .or dst (.tmp 1) 8]
  else none

/-- `lower_store` of a size that is taken apart. -/
def lowerOddStore (size : ℕ) (src : MoveReg) (addr : AddrComponents) : Option (List MoveInstr) := do
  if size = 3 then
    let low ← lowerPart unix slots addr fun dst ↦ .store dst src 2
    let high ← lowerPart unix slots (addr.offset 2) fun dst ↦ .store dst (.tmp 0) 1
    return [.movReg (.tmp 0) src 4, .shr (.tmp 0) 16 4] ++ low ++ high
  else if size = 5 then
    let low ← lowerPart unix slots addr fun dst ↦ .store dst src 4
    let high ← lowerPart unix slots (addr.offset 4) fun dst ↦ .store dst (.tmp 0) 1
    return [.movReg (.tmp 0) src 8, .shr (.tmp 0) 32 8] ++ low ++ high
  else if size = 6 then
    let low ← lowerPart unix slots addr fun dst ↦ .store dst src 4
    let high ← lowerPart unix slots (addr.offset 4) fun dst ↦ .store dst (.tmp 0) 2
    return [.movReg (.tmp 0) src 8, .shr (.tmp 0) 32 8] ++ low ++ high
  else if size = 7 then
    let low ← lowerPart unix slots addr fun dst ↦ .store dst src 4
    let middle ← lowerPart unix slots (addr.offset 4) fun dst ↦ .store dst (.tmp 0) 2
    let high ← lowerPart unix slots (addr.offset 6) fun dst ↦ .store dst (.tmp 1) 1
    return [.movReg (.tmp 0) src 8, .shr (.tmp 0) 32 8, .movReg (.tmp 1) src 8,
      .shr (.tmp 1) 48 8] ++ low ++ middle ++ high
  else none

end Lowering

structure MoveState where
  regs : LowerReg → BitVec 64
  tmps : ℕ → BitVec 64
  mem : Memory

namespace MoveState

def read (st : MoveState) : MoveReg → BitVec 64
  | .vreg reg => st.regs (.vreg reg)
  | .tmp index => st.tmps index

def write (st : MoveState) (reg : MoveReg) (word : BitVec 64) : MoveState :=
  match reg with
  | .vreg reg => { st with regs := update st.regs (.vreg reg) word }
  | .tmp index => { st with tmps := update st.tmps index word }

/-- A register is written as an operand of a size. -/
def writeSized (st : MoveState) (reg : MoveReg) (size : ℕ) (word : BitVec 64) : MoveState :=
  st.write reg (X8664.writeSized size (st.read reg) word)

variable (st : MoveState)

variable (reg : MoveReg) (word : BitVec 64)

@[simp] theorem mem_write : (st.write reg word).mem = st.mem := by
  cases reg <;> rfl

@[simp] theorem read_write_self : (st.write reg word).read reg = word := by
  cases reg <;> exact update_self ..

theorem read_write_of_ne {reg other : MoveReg} (h : other ≠ reg)
    (word : BitVec 64) : (st.write reg word).read other = st.read other := by
  cases reg with
  | vreg reg =>
    cases other with
    | vreg other =>
      exact update_of_ne (fun heq ↦ h (congrArg _ (LowerReg.vreg.inj heq))) ..
    | tmp index => rfl
  | tmp index =>
    cases other with
    | vreg other => rfl
    | tmp other => exact update_of_ne (fun heq ↦ h (congrArg _ heq)) ..

@[simp] theorem rsp_write : (st.write reg word).regs .rsp = st.regs .rsp := by
  cases reg with
  | vreg reg => simp [write]
  | tmp index => rfl

end MoveState

namespace AddrMachine

variable (A : AddrMachine)

def step (st : MoveState) : MoveInstr → MoveState
  | .addr instr => { st with regs := A.exec st.regs [instr] }
  | .mov dst src size =>
    st.writeSized dst size (Memory.ofBytes (st.mem.read (A.addr st.regs src) size))
  | .movzx dst src size => st.write dst (Memory.ofBytes (st.mem.read (A.addr st.regs src) size))
  | .movReg dst src size => st.writeSized dst size (st.read src)
  | .shl dst count size => st.writeSized dst size (st.read dst <<< count)
  | .shr dst count size =>
    st.writeSized dst size (((st.read dst).setWidth (8 * size)).setWidth 64 >>> count)
  | .or dst src size => st.writeSized dst size (st.read dst ||| st.read src)
  | .store dst src size =>
    { st with mem := st.mem.write (A.addr st.regs dst) (Memory.toBytes (st.read src) size) }

def runMoves (st : MoveState) (code : List MoveInstr) : MoveState := code.foldl A.step st

@[simp] theorem runMoves_append (st : MoveState) (first second : List MoveInstr) :
    A.runMoves st (first ++ second) = A.runMoves (A.runMoves st first) second := foldl_append

end AddrMachine

section Parts

variable {A : AddrMachine} {M : WordMachine} {unix : Bool}
  {slots : VirtualRegister → Option StackSlotID} {env : VirtualRegister → BitVec 64}
  {addr : AddrComponents}

theorem runMoves_addr (st : MoveState) (first : List AddrInstr) :
    A.runMoves st (first.map .addr) = { st with regs := A.exec st.regs first } := by
  induction first generalizing st with
  | nil => rfl
  | cons instr first ih =>
    rw [map_cons]
    change A.runMoves (A.step st (.addr instr)) (first.map .addr) = _
    rw [ih]
    rfl

/-- What an address needs leaves all registers but temporary ones alone. -/
theorem exec_of_dst {first : List AddrInstr} (h : ∀ instr ∈ first, ∃ index, instr.dst = .tmp index)
    {reg : LowerReg} (hreg : ∀ index, reg ≠ .tmp index) (regs : LowerReg → BitVec 64) :
    A.exec regs first reg = regs reg := by
  induction first generalizing regs with
  | nil => rfl
  | cons instr first ih =>
    rw [forall_mem_cons] at h
    obtain ⟨index, hdst⟩ := h.1
    change A.exec (A.exec regs [instr]) first reg = regs reg
    rw [ih h.2, exec_singleton, hdst, update_of_ne (hreg index)]

/-- The state before the instruction of a part has its address, and its registers are the ones there
were. -/
structure PartState (A : AddrMachine) (st st' : MoveState) (operand : AddrOperand)
    (word : BitVec 64) : Prop where
  addr : A.addr st'.regs operand = word
  mem : st'.mem = st.mem
  read : ∀ reg, st'.read reg = st.read reg
  rsp : st'.regs .rsp = st.regs .rsp

variable {st : MoveState}

theorem lowerPart_spec (unix : Bool) (hlinked : A.Linked M) (hrep : A.Represents slots env st.regs)
    (hindex : ∀ offset ∈ addr.regOffset, slots offset.reg = none)
    (hfits : FitsBase A.frame slots addr.constOffset addr.base.value)
    (use : AddrOperand → MoveInstr) :
    ∃ code operand st', lowerPart unix slots addr use = some code ∧
      A.runMoves st code = A.step st' (use operand) ∧
      PartState A st st' operand (addr.eval M env) := by
  have hlowers : LowersTo A unix slots st.regs addr (addr.eval M env) :=
    (lowersTo_iff hlinked hrep hindex).mpr hfits
  obtain ⟨first, operand, hlower, haddr⟩ := hlowers
  have hdst := lowerAddrMemAccess_dst hlower
  refine ⟨_, operand, { st with regs := A.exec st.regs first }, by rw [lowerPart, hlower]; rfl, ?_,
    haddr, rfl, ?_, exec_of_dst hdst (by simp) st.regs⟩
  · rw [AddrMachine.runMoves_append, runMoves_addr]
    rfl
  · intro reg
    cases reg with
    | vreg reg => exact exec_of_dst hdst (by simp) st.regs
    | tmp index => rfl

@[simp] theorem eval_offset (n : ℕ) :
    (addr.offset n).eval M env = addr.eval M env + BitVec.ofNat 64 n := by
  have hbits : (⟨BitVec.ofNat 64 n, false⟩ : LargeInt).toBits = BitVec.ofNat 64 n :=
    LargeInt.toBits_of_not_negative rfl
  rw [AddrComponents.eval, AddrComponents.eval, AddrComponents.offset, LargeInt.toBits_add, hbits,
    ← add_assoc]
  exact add_right_comm _ _ _

/-! ### Words in parts -/

theorem ofBytes_append (first second : List (BitVec 8)) :
    Memory.ofBytes (first ++ second)
      = Memory.ofBytes first ||| Memory.ofBytes second <<< (8 * first.length) := by
  induction first with
  | nil => simp [Memory.ofBytes]
  | cons byte first ih =>
    rw [List.cons_append, Memory.ofBytes_cons, Memory.ofBytes_cons, ih,
      shiftLeft_or_distrib, ← shiftLeft_add, length_cons, Nat.mul_succ,
      BitVec.or_assoc, BitVec.or_assoc, BitVec.or_comm (Memory.ofBytes second <<< _)]

variable (mem : Memory)

theorem read_append (addr : Address) (m n : ℕ) :
    mem.read addr (m + n) = mem.read addr m ++ mem.read (addr + BitVec.ofNat 64 m) n := by
  rw [Memory.read, Memory.read, Memory.read, range_add, map_append, map_map]
  refine congrArg _ (map_congr_left fun i _ ↦ ?_)
  rw [comp_apply, add_assoc, ofNat_add]

theorem toBytes_append (word : BitVec 64) (m n : ℕ) :
    Memory.toBytes word (m + n)
      = Memory.toBytes word m ++ Memory.toBytes (word >>> (8 * m)) n := by
  rw [Memory.toBytes, Memory.toBytes, Memory.toBytes, range_add, map_append, map_map]
  refine congrArg _ (map_congr_left fun i _ ↦ ?_)
  rw [comp_apply, ← shiftRight_add, Nat.mul_add]

/-- Writing the second part behind the first writes both. -/
theorem write_append (mem : Memory) (addr : Address) (first second : List (BitVec 8))
    (h : first.length + second.length ≤ 2 ^ 64) :
    (mem.write addr first).write (addr + BitVec.ofNat 64 first.length) second
      = mem.write addr (first ++ second) := by
  funext a
  have hboth : mem.write addr (first ++ second) a
      = ((first ++ second)[(a - addr).toNat]?).getD (mem a) := rfl
  rw [hboth]
  by_cases hsecond : Memory.Within (addr + BitVec.ofNat 64 first.length) second.length a
  · have hrange := (Memory.within_add_iff h).mp hsecond
    have hsub : (a - (addr + BitVec.ofNat 64 first.length)).toNat
        = (a - addr).toNat - first.length := by
      rw [← sub_sub, toNat_sub_of_le, Memory.toNat_ofNat_of_lt (by omega)]
      rw [le_def, Memory.toNat_ofNat_of_lt (by omega)]
      exact hrange.1
    rw [Memory.write, hsub, getElem?_append_right hrange.1, List.getElem?_eq_getElem (by omega)]
    rfl
  · rw [Memory.write_of_not_within hsecond, Memory.write]
    rw [Memory.within_add_iff h] at hsecond
    rcases Nat.lt_or_ge (a - addr).toNat first.length with hlt | hge
    · rw [getElem?_append_left hlt]
    · rw [List.getElem?_eq_none hge, List.getElem?_eq_none (by rw [List.length_append]; omega)]

/-- The bytes of a memory from an address on, as a word. -/
def wordAt (mem : Memory) (addr : Address) (size : ℕ) : BitVec 64 :=
  Memory.ofBytes (mem.read addr size)

theorem wordAt_add (addr : Address) (m n : ℕ) :
    wordAt mem addr (m + n)
      = wordAt mem addr m ||| wordAt mem (addr + BitVec.ofNat 64 m) n <<< (8 * m) := by
  rw [wordAt, read_append, ofBytes_append, Memory.length_read, wordAt, wordAt]

variable {size : ℕ}

theorem toNat_wordAt_lt (addr : Address) (h : size ≤ 8) :
    (wordAt mem addr size).toNat < 2 ^ (8 * size) := by
  have hlt := @Memory.toNat_ofBytes_lt (mem.read addr size) (by rwa [Memory.length_read])
  rwa [Memory.length_read] at hlt

variable {word : BitVec 64}

theorem low32_of_lt (h : word.toNat < 2 ^ 32) : low32 word = word := by
  refine eq_of_toNat_eq ?_
  rw [low32, toNat_setWidth, toNat_setWidth, Nat.mod_eq_of_lt h, Nat.mod_eq_of_lt word.isLt]

theorem low32_wordAt (addr : Address) (h : size ≤ 4) :
    low32 (wordAt mem addr size) = wordAt mem addr size :=
  low32_of_lt ((toNat_wordAt_lt mem addr (by omega)).trans_le
    (Nat.pow_le_pow_right (by decide) (by omega)))

/-! ### What a part leaves -/

/-- A register has another value, and the other registers and the memory are kept. -/
structure Wrote (st st' : MoveState) (reg : MoveReg) (word : BitVec 64) : Prop where
  mem : st'.mem = st.mem
  self : st'.read reg = word
  other : ∀ other, other ≠ reg → st'.read other = st.read other
  rsp : st'.regs .rsp = st.regs .rsp

/-- Bytes are written, and the registers are kept. -/
structure Stored (st st' : MoveState) (a : Address) (bytes : List (BitVec 8)) : Prop where
  mem : st'.mem = st.mem.write a bytes
  read : ∀ reg, st'.read reg = st.read reg
  rsp : st'.regs .rsp = st.regs .rsp

theorem wrote_write (st : MoveState) (reg : MoveReg) (word : BitVec 64) :
    Wrote st (st.write reg word) reg word where
  mem := st.mem_write reg word
  self := st.read_write_self reg word
  other _ h := st.read_write_of_ne h word
  rsp := st.rsp_write reg word

variable {reg : MoveReg} {st' st'' : MoveState}

theorem Wrote.trans {word' : BitVec 64}
    (h : Wrote st st' reg word) (h' : Wrote st' st'' reg word') : Wrote st st'' reg word' where
  mem := h'.mem.trans h.mem
  self := h'.self
  other other hne := (h'.other other hne).trans (h.other other hne)
  rsp := h'.rsp.trans h.rsp

/-- The values of the registers of the function after one of the registers is written. -/
def afterWrite (env : VirtualRegister → BitVec 64) :
    MoveReg → BitVec 64 → VirtualRegister → BitVec 64
  | .vreg reg, word => update env reg word
  | .tmp _, _ => env

theorem Wrote.represents (h : Wrote st st' reg word) (hrep : A.Represents slots env st.regs)
    (hreg : ∀ dest, reg = .vreg dest → slots dest = none) :
    A.Represents slots (afterWrite env reg word) st'.regs where
  vreg other hother := by
    cases reg with
    | tmp index => exact (h.other (.vreg other) nofun).trans (hrep.vreg other hother)
    | vreg dest =>
      rcases eq_or_ne other dest with rfl | hne
      · rw [afterWrite, update_self]
        exact h.self
      · rw [afterWrite, update_of_ne hne, ← hrep.vreg other hother]
        exact h.other (.vreg other) fun heq ↦ hne (MoveReg.vreg.inj heq)
  slot other slot hother := by
    rw [h.rsp]
    cases reg with
    | tmp index => exact hrep.slot other slot hother
    | vreg dest =>
      have hne : other ≠ dest := by
        rintro rfl
        rw [hreg other rfl] at hother
        cases hother
      rw [afterWrite, update_of_ne hne]
      exact hrep.slot other slot hother

variable {a : Address}

variable {bytes : List (BitVec 8)}

theorem Stored.represents
    (h : Stored st st' a bytes) (hrep : A.Represents slots env st.regs) :
    A.Represents slots env st'.regs where
  vreg other hother := (h.read (.vreg other)).trans (hrep.vreg other hother)
  slot other slot hother := by
    rw [h.rsp]
    exact hrep.slot other slot hother

theorem eval_afterWrite (word : BitVec 64) (h : ∀ dest, reg = .vreg dest → dest ∉ addr.regs) :
    addr.eval M (afterWrite env reg word) = addr.eval M env := by
  refine AddrComponents.eval_congr fun other hother ↦ ?_
  cases reg with
  | tmp index => rfl
  | vreg dest =>
    have hne : other ≠ dest := by
      rintro rfl
      exact h other rfl hother
    exact update_of_ne hne ..

section Part

variable (unix) (addr) (hlinked : A.Linked M) (hrep : A.Represents slots env st.regs)
  (hindex : ∀ offset ∈ addr.regOffset, slots offset.reg = none)
  (hfits : FitsBase A.frame slots addr.constOffset addr.base.value)

include hlinked hrep hindex hfits

/-- An instruction that reads memory writes what is at the address. -/
theorem load_part (dst : MoveReg) (size : ℕ) (use : AddrOperand → MoveInstr)
    (huse : ∀ st operand, A.step st (use operand)
      = st.write dst (wordAt st.mem (A.addr st.regs operand) size)) :
    ∃ code, lowerPart unix slots addr use = some code ∧
      Wrote st (A.runMoves st code) dst (wordAt st.mem (addr.eval M env) size) := by
  obtain ⟨code, operand, st', hcode, hrun, hpart⟩ :=
    lowerPart_spec unix hlinked hrep hindex hfits use
  have hwrote := wrote_write st' dst (wordAt st.mem (addr.eval M env) size)
  refine ⟨code, hcode, ?_⟩
  rw [hrun, huse, hpart.addr, hpart.mem]
  exact ⟨hwrote.mem.trans hpart.mem, hwrote.self,
    fun other hne ↦ (hwrote.other other hne).trans (hpart.read other), hwrote.rsp.trans hpart.rsp⟩

theorem store_part (src : MoveReg) (size : ℕ) :
    ∃ code, lowerPart unix slots addr (fun dst ↦ .store dst src size) = some code ∧
      Stored st (A.runMoves st code) (addr.eval M env) (Memory.toBytes (st.read src) size) := by
  obtain ⟨code, operand, st', hcode, hrun, hpart⟩ :=
    lowerPart_spec unix hlinked hrep hindex hfits fun dst ↦ .store dst src size
  have hmem : (A.runMoves st code).mem
      = st.mem.write (addr.eval M env) (Memory.toBytes (st.read src) size) := by
    rw [hrun, ← hpart.addr, ← hpart.mem, ← hpart.read src]
    rfl
  have hread (reg : MoveReg) : (A.runMoves st code).read reg = st'.read reg := by
    rw [hrun]
    cases reg <;> rfl
  refine ⟨code, hcode, hmem, fun reg ↦ (hread reg).trans (hpart.read reg), ?_⟩
  rw [hrun]
  exact hpart.rsp

end Part

theorem step_mov (st : MoveState) (dst : MoveReg) (operand : AddrOperand) :
    A.step st (.mov dst operand 4) = st.write dst (wordAt st.mem (A.addr st.regs operand) 4) :=
  congrArg (st.write dst) (low32_wordAt st.mem _ (by decide))

/-! ### Words that are put together -/

theorem low32_or (word word' : BitVec 64) :
    low32 (word ||| low32 word') = low32 (word ||| word') := by
  refine eq_of_getLsbD_eq fun k hk ↦ ?_
  simp only [low32, getLsbD_setWidth, getLsbD_or, hk, decide_true, Bool.true_and]
  by_cases h : k < 32
  · simp [h]
  · simp [h]

variable {m : ℕ}

/-- Instructions of 4 or of 8 bytes put the parts of a word together. -/
theorem writeSized_or {n : ℕ} (hsize : size = 8 ∨ size = 4 ∧ m + n ≤ 4) (mem : Memory)
    (a : Address) (old old' : BitVec 64) :
    writeSized size old (wordAt mem a m |||
      writeSized size old' (wordAt mem (a + BitVec.ofNat 64 m) n <<< (8 * m)))
      = wordAt mem a (m + n) := by
  rw [wordAt_add]
  rcases hsize with rfl | ⟨rfl, hle⟩
  · rfl
  · change low32 (_ ||| low32 _) = _
    rw [low32_or, ← wordAt_add]
    exact low32_wordAt mem a hle

/-- Instructions of 4 or of 8 bytes take the upper part of a word. -/
theorem toBytes_shr {n : ℕ} (hsize : size = 8 ∨ size = 4 ∧ m + n ≤ 4) (word old old' : BitVec 64) :
    Memory.toBytes (writeSized size old'
        (((writeSized size old word).setWidth (8 * size)).setWidth 64 >>> (8 * m))) n
      = Memory.toBytes (word >>> (8 * m)) n := by
  refine toBytes_congr (eq_of_getLsbD_eq fun k hk ↦ ?_)
  rcases hsize with rfl | ⟨rfl, hle⟩
  · change (((word.setWidth 64).setWidth 64 >>> (8 * m)).setWidth (8 * n)).getLsbD k = _
    rw [setWidth_eq, setWidth_eq]
  · change ((low32 (((low32 word).setWidth 32).setWidth 64 >>> (8 * m))).setWidth (8 * n)).getLsbD k
      = _
    have hlow : k < 32 := by omega
    have hshifted : 8 * m + k < 32 := by omega
    have hword : 8 * m + k < 64 := by omega
    simp only [low32, getLsbD_setWidth, getLsbD_ushiftRight, hk, hlow, hshifted,
      hword, hlow.trans (by decide : 32 < 64), decide_true, Bool.true_and]

/-! ### Accesses of odd sizes -/

/-- Where the parts behind the first one are. -/
def partOffsets : ℕ → List ℕ
  | 3 => [2]
  | 5 => [4]
  | 6 => [4]
  | 7 => [4, 6]
  | _ => []

/-- The offsets of all parts from the base can be ones of an address. -/
structure PartsFit (frame : Encoder.Frame) (slots : VirtualRegister → Option StackSlotID)
    (addr : AddrComponents) (size : ℕ) : Prop where
  first : FitsBase frame slots addr.constOffset addr.base.value
  others : ∀ n ∈ partOffsets size, FitsBase frame slots (addr.offset n).constOffset addr.base.value

/-- The memory and the registers of the function are kept, but for one. -/
structure Keeps (st st' : MoveState) (dest : VirtualRegister) : Prop where
  mem : st'.mem = st.mem
  other : ∀ reg, reg ≠ dest → st'.regs (.vreg reg) = st.regs (.vreg reg)
  rsp : st'.regs .rsp = st.regs .rsp

variable {dest : VirtualRegister}

theorem Keeps.trans (h : Keeps st st' dest)
    (h' : Keeps st' st'' dest) : Keeps st st'' dest where
  mem := h'.mem.trans h.mem
  other reg hne := (h'.other reg hne).trans (h.other reg hne)
  rsp := h'.rsp.trans h.rsp

theorem Wrote.keeps (h : Wrote st st' reg word) (hreg : ∀ other, other ≠ dest →
      MoveReg.vreg other ≠ reg) : Keeps st st' dest where
  mem := h.mem
  other other hne := h.other (.vreg other) (hreg other hne)
  rsp := h.rsp

theorem Wrote.keeps_dest (h : Wrote st st' (.vreg dest) word) : Keeps st st' dest :=
  h.keeps fun _ hne heq ↦ hne (MoveReg.vreg.inj heq)

variable {index : ℕ}

theorem Wrote.keeps_tmp
    (h : Wrote st st' (.tmp index) word) (dest : VirtualRegister) : Keeps st st' dest :=
  h.keeps nofun

theorem wrote_shl (st : MoveState) (dst : MoveReg) (count size : ℕ) :
    Wrote st (A.step st (.shl dst count size)) dst
      (writeSized size (st.read dst) (st.read dst <<< count)) :=
  wrote_write st dst _

theorem wrote_or (st : MoveState) (dst src : MoveReg) (size : ℕ) :
    Wrote st (A.step st (.or dst src size)) dst
      (writeSized size (st.read dst) (st.read dst ||| st.read src)) :=
  wrote_write st dst _

/-- The high part is shifted and put to the low one, which is in the register already. -/
theorem shift_or {mem : Memory}
    {n : ℕ} (hsize : size = 8 ∨ size = 4 ∧ m + n ≤ 4)
    (hlow : st.read (.vreg dest) = wordAt mem a m)
    (hhigh : st.read (.tmp index) = wordAt mem (a + BitVec.ofNat 64 m) n) :
    let st' := A.runMoves st [.shl (.tmp index) (8 * m) size, .or (.vreg dest) (.tmp index) size]
    Keeps st st' dest ∧ st'.read (.vreg dest) = wordAt mem a (m + n) := by
  have hshl := wrote_shl (A := A) st (.tmp index) (8 * m) size
  have hor := wrote_or (A := A) (A.step st (.shl (.tmp index) (8 * m) size)) (.vreg dest)
    (.tmp index) size
  refine ⟨(hshl.keeps_tmp dest).trans hor.keeps_dest, ?_⟩
  have hdest := hshl.other (.vreg dest) nofun
  rw [hshl.self, hdest, hlow, hhigh] at hor
  exact hor.self.trans (writeSized_or hsize mem a _ _)

section Loads

variable (unix) (hlinked : A.Linked M) (hrep : A.Represents slots env st.regs)
  (hindex : ∀ offset ∈ addr.regOffset, slots offset.reg = none)

include hlinked hrep hindex

/-- Two parts are loaded and put together. -/
theorem load_two (hdest : slots dest = none) (hfresh : dest ∉ addr.regs) (size m n : ℕ)
    (hsize : size = 8 ∨ size = 4 ∧ m + n ≤ 4)
    (hfirst : FitsBase A.frame slots addr.constOffset addr.base.value)
    (hsecond : FitsBase A.frame slots (addr.offset m).constOffset addr.base.value)
    (use : AddrOperand → MoveInstr) (huse : ∀ st operand, A.step st (use operand)
      = st.write (.vreg dest) (wordAt st.mem (A.addr st.regs operand) m)) :
    ∃ low high, lowerPart unix slots addr use = some low ∧
      lowerPart unix slots (addr.offset m) (fun src ↦ .movzx (.tmp 0) src n) = some high ∧
      Keeps st (A.runMoves st (low ++ high ++
        [.shl (.tmp 0) (8 * m) size, .or (.vreg dest) (.tmp 0) size])) dest ∧
      (A.runMoves st (low ++ high ++
        [.shl (.tmp 0) (8 * m) size, .or (.vreg dest) (.tmp 0) size])).read (.vreg dest)
        = wordAt st.mem (addr.eval M env) (m + n) := by
  obtain ⟨low, hlow, hwrote⟩ := load_part unix addr hlinked hrep hindex hfirst _ _ _ huse
  have hrep' := hwrote.represents hrep fun _ heq ↦ MoveReg.vreg.inj heq ▸ hdest
  have heval : (addr.offset m).eval M (afterWrite env (.vreg dest)
      (wordAt st.mem (addr.eval M env) m)) = addr.eval M env + BitVec.ofNat 64 m := by
    rw [eval_offset, eval_afterWrite _ fun _ heq ↦ MoveReg.vreg.inj heq ▸ hfresh]
  obtain ⟨high, hhigh, hwrote'⟩ := load_part unix (addr.offset m) hlinked hrep' hindex hsecond
    (.tmp 0) n (fun src ↦ .movzx (.tmp 0) src n) fun _ _ ↦ rfl
  rw [heval, hwrote.mem] at hwrote'
  refine ⟨low, high, hlow, hhigh, ?_⟩
  rw [AddrMachine.runMoves_append, AddrMachine.runMoves_append]
  have hlowAfter := (hwrote'.other (.vreg dest) nofun).trans hwrote.self
  obtain ⟨hkeeps, hword⟩ := shift_or (A := A) hsize hlowAfter hwrote'.self
  exact ⟨(hwrote.keeps_dest.trans (hwrote'.keeps_tmp dest)).trans hkeeps, hword⟩

/-- Three parts are loaded and put together. -/
theorem load_three (hdest : slots dest = none) (hfresh : dest ∉ addr.regs)
    (hfits : PartsFit A.frame slots addr 7) :
    ∃ code, lowerOddLoad unix slots 7 (.vreg dest) addr = some code ∧
      Keeps st (A.runMoves st code) dest ∧
      (A.runMoves st code).read (.vreg dest) = wordAt st.mem (addr.eval M env) 7 := by
  have hslot : ∀ other, MoveReg.vreg dest = .vreg other → slots other = none :=
    fun _ heq ↦ MoveReg.vreg.inj heq ▸ hdest
  obtain ⟨low, hlow, hwrote⟩ := load_part unix addr hlinked hrep hindex hfits.first _ _ _
    fun st operand ↦ step_mov st (.vreg dest) operand
  have hrep₁ := hwrote.represents hrep hslot
  have heval (n : ℕ) : (addr.offset n).eval M (afterWrite env (.vreg dest)
      (wordAt st.mem (addr.eval M env) 4)) = addr.eval M env + BitVec.ofNat 64 n := by
    rw [eval_offset, eval_afterWrite _ fun _ heq ↦ MoveReg.vreg.inj heq ▸ hfresh]
  obtain ⟨middle, hmiddle, hwrote₁⟩ := load_part unix (addr.offset 4) hlinked hrep₁ hindex
    (hfits.others 4 (by simp [partOffsets])) (.tmp 0) 2 (fun src ↦ .movzx (.tmp 0) src 2)
    fun _ _ ↦ rfl
  have hrep₂ : A.Represents slots (afterWrite env (.vreg dest) (wordAt st.mem (addr.eval M env) 4))
      (A.runMoves (A.runMoves st low) middle).regs := hwrote₁.represents hrep₁ nofun
  obtain ⟨high, hhigh, hwrote₂⟩ := load_part unix (addr.offset 6) hlinked hrep₂ hindex
    (hfits.others 6 (by simp [partOffsets])) (.tmp 1) 1 (fun src ↦ .movzx (.tmp 1) src 1)
    fun _ _ ↦ rfl
  rw [heval, hwrote.mem] at hwrote₁
  rw [heval, hwrote₁.mem, hwrote.mem] at hwrote₂
  refine ⟨low ++ middle ++ high ++ [MoveInstr.shl (.tmp 0) 32 8, MoveInstr.shl (.tmp 1) 48 8,
    MoveInstr.or (.vreg dest) (.tmp 0) 8, MoveInstr.or (.vreg dest) (.tmp 1) 8], ?_, ?_⟩
  · simp [lowerOddLoad, hlow, hmiddle, hhigh]
  · rw [AddrMachine.runMoves_append, AddrMachine.runMoves_append, AddrMachine.runMoves_append]
    have hkeeps := (hwrote.keeps_dest.trans (hwrote₁.keeps_tmp dest)).trans (hwrote₂.keeps_tmp dest)
    generalize A.runMoves (A.runMoves (A.runMoves st low) middle) high = st' at hwrote₂ hkeeps
    have hshl := wrote_shl (A := A) st' (.tmp 0) 32 8
    have hshl' := wrote_shl (A := A) (A.step st' (.shl (.tmp 0) 32 8)) (.tmp 1) 48 8
    have hor := wrote_or (A := A)
      (A.step (A.step st' (.shl (.tmp 0) 32 8)) (.shl (.tmp 1) 48 8)) (.vreg dest) (.tmp 0) 8
    have hor' := wrote_or (A := A) (A.step (A.step (A.step st' (.shl (.tmp 0) 32 8))
      (.shl (.tmp 1) 48 8)) (.or (.vreg dest) (.tmp 0) 8)) (.vreg dest) (.tmp 1) 8
    refine ⟨(((hkeeps.trans (hshl.keeps_tmp dest)).trans (hshl'.keeps_tmp dest)).trans
      hor.keeps_dest).trans hor'.keeps_dest, ?_⟩
    have hlow' := (hwrote₂.other (.vreg dest) nofun).trans
      ((hwrote₁.other (.vreg dest) nofun).trans hwrote.self)
    have hmiddle' := (hwrote₂.other (.tmp 0) nofun).trans hwrote₁.self
    have hword : wordAt st.mem (addr.eval M env) 7
        = wordAt st.mem (addr.eval M env) 4 |||
            wordAt st.mem (addr.eval M env + BitVec.ofNat 64 4) 2 <<< 32 |||
            wordAt st.mem (addr.eval M env + BitVec.ofNat 64 6) 1 <<< 48 := by
      rw [← wordAt_add st.mem (addr.eval M env) 4 2, ← wordAt_add st.mem (addr.eval M env) 6 1]
    rw [hword]
    refine hor'.self.trans ?_
    change _ ||| _ = _
    rw [hor.self, hor.other (.tmp 1) nofun, hshl'.self, hshl.other (.tmp 1) nofun, hwrote₂.self]
    change (_ ||| _) ||| _ = _
    rw [hshl'.other (.vreg dest) nofun, hshl.other (.vreg dest) nofun, hlow',
      hshl'.other (.tmp 0) nofun, hshl.self, hmiddle']
    rfl

/-- The sizes that are taken apart. -/
def oddSizes : List ℕ := [3, 5, 6, 7]

/-- A load of an odd size leaves the bytes at its address in its register. -/
theorem lowerOddLoad_spec (hdest : slots dest = none) (hfresh : dest ∉ addr.regs)
    (hsize : size ∈ oddSizes) (hfits : PartsFit A.frame slots addr size) :
    ∃ code, lowerOddLoad unix slots size (.vreg dest) addr = some code ∧
      Keeps st (A.runMoves st code) dest ∧
      (A.runMoves st code).read (.vreg dest) = wordAt st.mem (addr.eval M env) size := by
  simp only [oddSizes, mem_cons, not_mem_nil, or_false] at hsize
  rcases hsize with rfl | rfl | rfl | rfl
  · obtain ⟨low, high, hlow, hhigh, hrun⟩ := load_two unix hlinked hrep hindex hdest hfresh 4 2 1
      (.inr ⟨rfl, by decide⟩) hfits.first (hfits.others 2 (by simp [partOffsets]))
      (fun src ↦ .movzx (.vreg dest) src 2) fun _ _ ↦ rfl
    exact ⟨_, by simp [lowerOddLoad, hlow, hhigh], hrun⟩
  · obtain ⟨low, high, hlow, hhigh, hrun⟩ := load_two unix hlinked hrep hindex hdest hfresh 8 4 1
      (.inl rfl) hfits.first (hfits.others 4 (by simp [partOffsets])) _
      fun st operand ↦ step_mov st (.vreg dest) operand
    exact ⟨_, by simp [lowerOddLoad, hlow, hhigh], hrun⟩
  · obtain ⟨low, high, hlow, hhigh, hrun⟩ := load_two unix hlinked hrep hindex hdest hfresh 8 4 2
      (.inl rfl) hfits.first (hfits.others 4 (by simp [partOffsets])) _
      fun st operand ↦ step_mov st (.vreg dest) operand
    exact ⟨_, by simp [lowerOddLoad, hlow, hhigh], hrun⟩
  · exact load_three unix hlinked hrep hindex hdest hfresh hfits

end Loads

/-! ### Stores -/

/-- What a store leaves: its bytes are written, and the registers of the function are kept. -/
structure Leaves (st st' : MoveState) (a : Address) (bytes : List (BitVec 8)) : Prop where
  mem : st'.mem = st.mem.write a bytes
  vreg : ∀ reg, st'.regs (.vreg reg) = st.regs (.vreg reg)

theorem wrote_movReg (st : MoveState) (dst src : MoveReg) (size : ℕ) :
    Wrote st (A.step st (.movReg dst src size)) dst
      (writeSized size (st.read dst) (st.read src)) :=
  wrote_write st dst _

theorem wrote_shr (st : MoveState) (dst : MoveReg) (count size : ℕ) :
    Wrote st (A.step st (.shr dst count size)) dst
      (writeSized size (st.read dst)
        (((st.read dst).setWidth (8 * size)).setWidth 64 >>> count)) :=
  wrote_write st dst _

/-- A temporary register gets the upper part of another one. -/
theorem take_upper (st : MoveState) (index : ℕ) (reg : VirtualRegister) {n : ℕ}
    (hsize : size = 8 ∨ size = 4 ∧ m + n ≤ 4) :
    ∃ word, Wrote st (A.runMoves st [.movReg (.tmp index) (.vreg reg) size,
        .shr (.tmp index) (8 * m) size]) (.tmp index) word ∧
      Memory.toBytes word n = Memory.toBytes (st.read (.vreg reg) >>> (8 * m)) n := by
  have hmov := wrote_movReg (A := A) st (.tmp index) (.vreg reg) size
  have hshr := wrote_shr (A := A) (A.step st (.movReg (.tmp index) (.vreg reg) size)) (.tmp index)
    (8 * m) size
  refine ⟨_, hmov.trans hshr, ?_⟩
  rw [hmov.self]
  exact toBytes_shr hsize _ _ _

theorem Stored.append {n : ℕ} (h : Stored st st' a (Memory.toBytes word m))
    (h' : Stored st' st'' (a + BitVec.ofNat 64 m) (Memory.toBytes (word >>> (8 * m)) n))
    (hle : m + n ≤ 8) : Stored st st'' a (Memory.toBytes word (m + n)) where
  mem := by
    have hlength (word : BitVec 64) (n : ℕ) : (Memory.toBytes word n).length = n :=
      Memory.length_toBytes word n
    have happend := write_append st.mem a (Memory.toBytes word m)
      (Memory.toBytes (word >>> (8 * m)) n) (by rw [hlength, hlength]; omega)
    rw [hlength] at happend
    rw [h'.mem, h.mem, happend, toBytes_append]
  read reg := (h'.read reg).trans (h.read reg)
  rsp := h'.rsp.trans h.rsp

/-- The upper parts are in temporary registers, and then the parts are stored. -/
theorem Stored.leaves
    (h : Stored st' st'' a bytes) (hmem : st'.mem = st.mem)
    (hread : ∀ reg, st'.read (.vreg reg) = st.read (.vreg reg)) : Leaves st st'' a bytes where
  mem := by rw [h.mem, hmem]
  vreg reg := (h.read (.vreg reg)).trans (hread reg)

section Stores

variable (unix) (hlinked : A.Linked M) (hrep : A.Represents slots env st.regs)
  (hindex : ∀ offset ∈ addr.regOffset, slots offset.reg = none) (reg : VirtualRegister)

include hlinked hrep hindex

/-- Two parts of a register are stored. -/
theorem store_two (size m n : ℕ) (hsize : size = 8 ∨ size = 4 ∧ m + n ≤ 4) (hle : m + n ≤ 8)
    (hfirst : FitsBase A.frame slots addr.constOffset addr.base.value)
    (hsecond : FitsBase A.frame slots (addr.offset m).constOffset addr.base.value) :
    ∃ low high, lowerPart unix slots addr (fun dst ↦ .store dst (.vreg reg) m) = some low ∧
      lowerPart unix slots (addr.offset m) (fun dst ↦ .store dst (.tmp 0) n) = some high ∧
      Leaves st (A.runMoves st ([.movReg (.tmp 0) (.vreg reg) size, .shr (.tmp 0) (8 * m) size] ++
        low ++ high)) (addr.eval M env) (Memory.toBytes (st.read (.vreg reg)) (m + n)) := by
  obtain ⟨word, hwrote, hbytes⟩ := take_upper (A := A) st 0 reg hsize
  have hrep' : A.Represents slots env _ := hwrote.represents hrep nofun
  obtain ⟨low, hlow, hstored⟩ :=
    store_part unix addr hlinked hrep' hindex hfirst (.vreg reg) m
  obtain ⟨high, hhigh, hstored'⟩ := store_part unix (addr.offset m) hlinked
    (hstored.represents hrep') hindex hsecond (.tmp 0) n
  refine ⟨low, high, hlow, hhigh, ?_⟩
  rw [eval_offset, hstored.read, hwrote.self, hbytes] at hstored'
  rw [hwrote.other (.vreg reg) nofun] at hstored
  rw [AddrMachine.runMoves_append, AddrMachine.runMoves_append]
  exact (hstored.append hstored' hle).leaves hwrote.mem
    fun other ↦ hwrote.other (.vreg other) nofun

/-- Three parts of a register are stored. -/
theorem store_three (hfits : PartsFit A.frame slots addr 7) :
    ∃ code, lowerOddStore unix slots 7 (.vreg reg) addr = some code ∧
      Leaves st (A.runMoves st code) (addr.eval M env)
        (Memory.toBytes (st.read (.vreg reg)) 7) := by
  obtain ⟨word, hwrote, hbytes⟩ := take_upper (A := A) (n := 2) st 0 reg (m := 4) (.inl rfl)
  have hrep₁ : A.Represents slots env _ := hwrote.represents hrep nofun
  obtain ⟨word', hwrote', hbytes'⟩ := take_upper (A := A) (n := 1)
    (A.runMoves st [.movReg (.tmp 0) (.vreg reg) 8, .shr (.tmp 0) (8 * 4) 8]) 1 reg (m := 6)
    (.inl rfl)
  have hrep₂ : A.Represents slots env _ := hwrote'.represents hrep₁ nofun
  obtain ⟨low, hlow, hstored⟩ :=
    store_part unix addr hlinked hrep₂ hindex hfits.first (.vreg reg) 4
  have hrep₃ := hstored.represents hrep₂
  obtain ⟨middle, hmiddle, hstored'⟩ := store_part unix (addr.offset 4) hlinked hrep₃ hindex
    (hfits.others 4 (by simp [partOffsets])) (.tmp 0) 2
  obtain ⟨high, hhigh, hstored''⟩ := store_part unix (addr.offset 6) hlinked
    (hstored'.represents hrep₃) hindex (hfits.others 6 (by simp [partOffsets])) (.tmp 1) 1
  have hcode : lowerOddStore unix slots 7 (.vreg reg) addr
      = some ([.movReg (.tmp 0) (.vreg reg) 8, .shr (.tmp 0) (8 * 4) 8] ++
          [.movReg (.tmp 1) (.vreg reg) 8, .shr (.tmp 1) (8 * 6) 8] ++ low ++ middle ++ high) := by
    simp [lowerOddStore, hlow, hmiddle, hhigh]
  refine ⟨_, hcode, ?_⟩
  have hreg := (hwrote'.other (.vreg reg) nofun).trans (hwrote.other (.vreg reg) nofun)
  rw [hwrote.other (.vreg reg) nofun] at hbytes'
  rw [eval_offset, hstored'.read, hstored.read, hwrote'.self, hbytes'] at hstored''
  rw [eval_offset, hstored.read, hwrote'.other (.tmp 0) (by simp), hwrote.self, hbytes] at hstored'
  rw [hreg] at hstored
  simp only [AddrMachine.runMoves_append]
  have hlower := hstored.append hstored' (by decide)
  exact (hlower.append hstored'' (by decide)).leaves (hwrote'.mem.trans hwrote.mem)
    fun other ↦ (hwrote'.other (.vreg other) nofun).trans (hwrote.other (.vreg other) nofun)

/-- A store of an odd size writes the bytes of its register at its address. -/
theorem lowerOddStore_spec (hsize : size ∈ oddSizes) (hfits : PartsFit A.frame slots addr size) :
    ∃ code, lowerOddStore unix slots size (.vreg reg) addr = some code ∧
      Leaves st (A.runMoves st code) (addr.eval M env)
        (Memory.toBytes (st.read (.vreg reg)) size) := by
  simp only [oddSizes, mem_cons, not_mem_nil, or_false] at hsize
  rcases hsize with rfl | rfl | rfl | rfl
  · obtain ⟨low, high, hlow, hhigh, hrun⟩ := store_two unix hlinked hrep hindex reg 4 2 1
      (.inr ⟨rfl, by decide⟩) (by decide) hfits.first (hfits.others 2 (by simp [partOffsets]))
    exact ⟨_, by simp [lowerOddStore, hlow, hhigh], hrun⟩
  · obtain ⟨low, high, hlow, hhigh, hrun⟩ := store_two unix hlinked hrep hindex reg 8 4 1 (.inl rfl)
      (by decide) hfits.first (hfits.others 4 (by simp [partOffsets]))
    exact ⟨_, by simp [lowerOddStore, hlow, hhigh], hrun⟩
  · obtain ⟨low, high, hlow, hhigh, hrun⟩ := store_two unix hlinked hrep hindex reg 8 4 2 (.inl rfl)
      (by decide) hfits.first (hfits.others 4 (by simp [partOffsets]))
    exact ⟨_, by simp [lowerOddStore, hlow, hhigh], hrun⟩
  · exact store_three unix hlinked hrep hindex reg hfits

end Stores

/-! ## Aggregates -/

/-- The code of a load of an odd size leaves what the load leaves. -/
def OddLoadRight (A : AddrMachine) (M : WordMachine) (unix : Bool)
    (slots : VirtualRegister → Option StackSlotID) (env : VirtualRegister → BitVec 64)
    (instr : Instruction) (addr : AddrComponents) : Prop :=
  ∀ dest, instr.dest = some dest → ∀ st : MoveState, A.Represents slots env st.regs →
    ∃ code, lowerOddLoad unix slots (M.layout.size (instr.getOperand 0).type) (.vreg dest) addr
        = some code ∧
      Keeps st (A.runMoves st code) dest ∧
      M.result ⟨env, st.mem⟩ instr = some ((A.runMoves st code).regs (.vreg dest))

/-- The code of a store of an odd size leaves what the store leaves. -/
def OddStoreRight (A : AddrMachine) (M : WordMachine) (unix : Bool)
    (slots : VirtualRegister → Option StackSlotID) (env : VirtualRegister → BitVec 64)
    (instr : Instruction) (addr : AddrComponents) : Prop :=
  ∀ reg, (instr.getOperand 0).value = .register reg → ∀ st : MoveState,
    A.Represents slots env st.regs →
      ∃ code, lowerOddStore unix slots (M.layout.size (instr.getOperand 0).type) (.vreg reg) addr
          = some code ∧
        (∀ other, (A.runMoves st code).regs (.vreg other) = st.regs (.vreg other)) ∧
        M.stored ⟨env, st.mem⟩ instr = some (A.runMoves st code).mem

/-- What `collect_addr` finds for the address of an access, whose register is not one of an `ALLOCA`
and not a part of the address. -/
structure Accesses (M : WordMachine) (slots : VirtualRegister → Option StackSlotID)
    (env : VirtualRegister → BitVec 64) (instr : Instruction) (addr : AddrComponents) : Prop where
  eval : addr.eval M env = M.value env (instr.getOperand 1)
  index : ∀ offset ∈ addr.regOffset, slots offset.reg = none
  dest : ∀ dest, instr.dest = some dest → slots dest = none ∧ dest ∉ addr.regs
  source : ∀ reg, (instr.getOperand 0).value = .register reg → slots reg = none

variable {instr : Instruction}

theorem oddLoadRight_of_partsFit (hload : instr.opcode = .LOAD)
    (hlinked : A.Linked M) (haccess : Accesses M slots env instr addr)
    (hsize : M.layout.size (instr.getOperand 0).type ∈ oddSizes)
    (hfits : PartsFit A.frame slots addr (M.layout.size (instr.getOperand 0).type)) :
    OddLoadRight A M unix slots env instr addr := by
  intro dest hdest st hrep
  obtain ⟨hslot, hfresh⟩ := haccess.dest dest hdest
  obtain ⟨code, hcode, hkeeps, hword⟩ :=
    lowerOddLoad_spec unix hlinked hrep haccess.index hslot hfresh hsize hfits
  refine ⟨code, hcode, hkeeps, ?_⟩
  rw [haccess.eval] at hword
  rw [WordMachine.result, hload]
  exact congrArg some hword.symm

theorem oddStoreRight_of_partsFit (hstore : instr.opcode = .STORE)
    (hlinked : A.Linked M) (haccess : Accesses M slots env instr addr)
    (hsize : M.layout.size (instr.getOperand 0).type ∈ oddSizes)
    (hfits : PartsFit A.frame slots addr (M.layout.size (instr.getOperand 0).type)) :
    OddStoreRight A M unix slots env instr addr := by
  intro reg hreg st hrep
  obtain ⟨code, hcode, hleaves⟩ :=
    lowerOddStore_spec unix hlinked hrep haccess.index reg hsize hfits
  refine ⟨code, hcode, hleaves.vreg, ?_⟩
  have hvalue : M.value env (instr.getOperand 0) = st.read (.vreg reg) := by
    rw [WordMachine.value, hreg]
    exact (hrep.vreg reg (haccess.source reg hreg)).symm
  rw [hleaves.mem, haccess.eval, WordMachine.stored, hstore, ← hvalue]

end Parts

/-! ## A copy to a global -/

/-- A copy of an array of bytes. -/
def copyBytes (dst src : Value) (size : ℕ) : Instruction where
  opcode := .COPY
  operands := [⟨dst, Primitive.ADDR⟩, ⟨src, Primitive.ADDR⟩, ⟨.type, ⟨.primitive .I8, size⟩⟩]

/-- `store i8[7] %0, @0`. -/
def storeSeven : Instruction where
  opcode := .STORE
  operands := [⟨.register 0, ⟨.primitive .I8, 7⟩⟩, ⟨.global 0, Primitive.ADDR⟩]

/-- The components of the address of the first global. -/
def firstGlobal : AddrComponents where
  base := ⟨.global 0, Primitive.ADDR⟩
  regOffset := none
  constOffset := 0

theorem firstGlobal_accesses :
    Accesses globals (fun _ ↦ none) (fun _ ↦ 0) storeSeven firstGlobal where
  eval := by decide +kernel
  index _ h := by cases h
  dest _ h := by cases h
  source _ _ := rfl

theorem firstGlobal_partsFit :
    PartsFit plainMachine.frame (fun _ ↦ none) firstGlobal 7 where
  first := ⟨rfl, by decide⟩
  others n hn := by
    simp only [partOffsets, mem_cons, not_mem_nil, or_false] at hn
    rcases hn with rfl | rfl
    · exact ⟨rfl, by decide⟩
    · exact ⟨rfl, by decide⟩

end Banjo.Target.X8664
