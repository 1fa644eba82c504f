import Banjo.Lib.Memory
import Banjo.SSA.Function

/-!
# The instructions of a block on a byte memory

Registers hold words and memory holds bytes. `LOAD`, `STORE`, `COPY` and the instructions that
compute addresses do what they say; a call may leave any memory behind, and what the other
instructions compute is left open. A `Trace` is an execution of the instructions of a block from one
end to the other.
-/

namespace Banjo.SSA

/-- The sizes of types and the offsets of members, as a target lays them out. -/
structure DataLayout where
  size : SSAType → ℕ
  memberOffset : SSAType → ℕ → ℕ

structure WordMachine where
  layout : DataLayout
  /-- The words symbols, floating-point immediates and undefined values stand for. -/
  symbol : Value → BitVec 64

structure BlockState where
  env : VirtualRegister → BitVec 64
  mem : Memory

namespace WordMachine

variable (M : WordMachine)

def value (env : VirtualRegister → BitVec 64) (operand : Operand) : BitVec 64 :=
  match operand.value with
  | .register reg => env reg
  | .intImmediate immediate => immediate.toBits
  | value => M.symbol value

/-- The bytes a `LOAD` reads. -/
def loaded (s : BlockState) (instr : Instruction) : List (BitVec 8) :=
  s.mem.read (M.value s.env (instr.getOperand 1)) (M.layout.size (instr.getOperand 0).type)

/-- The words the instructions that deal with memory compute. -/
def result (s : BlockState) (instr : Instruction) : Option (BitVec 64) :=
  match instr.opcode with
  | .LOAD => some (Memory.ofBytes (M.loaded s instr))
  | .OFFSETPTR => some (M.value s.env (instr.getOperand 0) +
      BitVec.ofNat 64 (M.layout.size (instr.getOperand 2).type) *
        M.value s.env (instr.getOperand 1))
  | .MEMBERPTR => some (M.value s.env (instr.getOperand 1) +
      BitVec.ofNat 64 (M.layout.memberOffset (instr.getOperand 0).type
        (M.value s.env (instr.getOperand 2)).toNat))
  | _ => none

/-- The memory an instruction leaves, unless it is a call. -/
def stored (s : BlockState) (instr : Instruction) : Option Memory :=
  match instr.opcode with
  | .STORE => some (s.mem.write (M.value s.env (instr.getOperand 1))
      (Memory.toBytes (M.value s.env (instr.getOperand 0))
        (M.layout.size (instr.getOperand 0).type)))
  | .COPY => some (s.mem.write (M.value s.env (instr.getOperand 0))
      (s.mem.read (M.value s.env (instr.getOperand 1)) (M.layout.size (instr.getOperand 2).type)))
  | .CALL => none
  | _ => some s.mem

/-- The addresses an instruction may write to. -/
def Writes (s : BlockState) (instr : Instruction) (a : Address) : Prop :=
  match instr.opcode with
  | .STORE => Memory.Within (M.value s.env (instr.getOperand 1))
      (M.layout.size (instr.getOperand 0).type) a
  | .COPY => Memory.Within (M.value s.env (instr.getOperand 0))
      (M.layout.size (instr.getOperand 2).type) a
  | .CALL => True
  | _ => False

structure Performs (instr : Instruction) (s s' : BlockState) : Prop where
  env : ∀ reg, instr.dest ≠ some reg → s'.env reg = s.env reg
  dest : ∀ reg word, instr.dest = some reg → M.result s instr = some word → s'.env reg = word
  mem : ∀ mem, M.stored s instr = some mem → s'.mem = mem

/-- An execution of a block: the states before its instructions, and the one at the end. -/
def Trace (instrs : List Instruction) (states : ℕ → BlockState) : Prop :=
  ∀ k instr, instrs[k]? = some instr → M.Performs instr (states k) (states (k + 1))

variable {M}

theorem value_congr {env env' : VirtualRegister → BitVec 64} {operand : Operand}
    (h : ∀ reg, operand.value = .register reg → env reg = env' reg) :
    M.value env operand = M.value env' operand := by
  rw [value, value]
  split
  · rename_i reg hreg
    exact h reg hreg
  · rfl
  · rfl

variable {a : Address}

variable {instr : Instruction} {s : BlockState}

theorem exists_stored
    (ha : ¬M.Writes s instr a) : ∃ mem, M.stored s instr = some mem ∧ mem a = s.mem a := by
  rw [Writes] at ha
  rw [stored]
  cases hopcode : instr.opcode <;> simp only [hopcode] at ha ⊢
  case STORE =>
    refine ⟨_, rfl, Memory.write_of_not_within ?_⟩
    rwa [Memory.length_toBytes]
  case COPY =>
    refine ⟨_, rfl, Memory.write_of_not_within ?_⟩
    rwa [Memory.length_read]
  case CALL => exact absurd trivial ha
  all_goals exact ⟨_, rfl, rfl⟩

theorem Performs.mem_eq {s' : BlockState} (h : M.Performs instr s s') (ha : ¬M.Writes s instr a) :
    s'.mem a = s.mem a := by
  obtain ⟨mem, hstored, hmem⟩ := exists_stored ha
  rw [h.mem mem hstored, hmem]

namespace Trace

variable {instrs : List Instruction} {states : ℕ → BlockState}

variable {i j : ℕ}

/-- A register keeps its value where no instruction defines it. -/
theorem env_eq (h : M.Trace instrs states) (hij : i ≤ j) (hj : j ≤ instrs.length)
    {reg : VirtualRegister}
    (hdef : ∀ k instr, i ≤ k → k < j → instrs[k]? = some instr → instr.dest ≠ some reg) :
    (states j).env reg = (states i).env reg := by
  induction j, hij using Nat.le_induction with
  | base => rfl
  | succ j hij ih =>
    have hget := List.getElem?_eq_getElem (Nat.lt_of_succ_le hj)
    rw [(h j _ hget).env reg (hdef j _ hij (Nat.lt_succ_self j) hget)]
    exact ih (by omega) fun k instr hik hkj ↦ hdef k instr hik (by omega)

/-- A byte keeps its value where no instruction writes it. -/
theorem mem_eq (h : M.Trace instrs states) (hij : i ≤ j) (hj : j ≤ instrs.length)
    (hwrites : ∀ k instr, i ≤ k → k < j → instrs[k]? = some instr → ¬M.Writes (states k) instr a) :
    (states j).mem a = (states i).mem a := by
  induction j, hij using Nat.le_induction with
  | base => rfl
  | succ j hij ih =>
    have hget := List.getElem?_eq_getElem (Nat.lt_of_succ_le hj)
    rw [(h j _ hget).mem_eq (hwrites j _ hij (Nat.lt_succ_self j) hget)]
    exact ih (by omega) fun k instr hik hkj ↦ hwrites k instr hik (by omega)

end Trace

/-- The last instruction between two positions that writes a byte leaves in it what it held at the
first of them. -/
def Restores (M : WordMachine) (instrs : List Instruction) (states : ℕ → BlockState) (i j : ℕ)
    (a : Address) : Prop :=
  ∀ k instr, i ≤ k → k < j → instrs[k]? = some instr → M.Writes (states k) instr a →
    (∀ k' instr', k < k' → k' < j → instrs[k']? = some instr' → ¬M.Writes (states k') instr' a) →
    (states (k + 1)).mem a = (states i).mem a

/-- A byte is the same at two positions exactly when the writes between them restore it. -/
theorem Trace.mem_eq_iff_restores {instrs : List Instruction} {states : ℕ → BlockState}
    (h : M.Trace instrs states) {i j : ℕ} (hij : i ≤ j) (hj : j ≤ instrs.length) :
    (states j).mem a = (states i).mem a ↔ M.Restores instrs states i j a := by
  constructor
  · intro heq k instr _ hkj _ _ hlast
    rw [← heq, h.mem_eq (Nat.succ_le_of_lt hkj) hj fun k' instr' hk ↦ hlast k' instr' (by omega)]
  · intro hrestores
    -- by induction on the number of steps that do not write the byte, counted from the end
    have hgo : ∀ n ≤ j, (∀ k instr, i ≤ k → k < n → instrs[k]? = some instr →
      M.Writes (states k) instr a →
        (∀ k' instr', k < k' → k' < n → instrs[k']? = some instr' →
          ¬M.Writes (states k') instr' a) → (states (k + 1)).mem a = (states i).mem a) →
        i ≤ n → (states n).mem a = (states i).mem a := by
      intro n hn
      induction n with
      | zero =>
        intro _ hi
        rw [Nat.le_zero.mp hi]
      | succ n ih =>
        intro hlast hi
        rcases Nat.lt_or_ge n i with hlt | hge
        · rw [Nat.le_antisymm hi hlt]
        have hget := List.getElem?_eq_getElem (show n < instrs.length by omega)
        by_cases hw : M.Writes (states n) instrs[n] a
        · exact hlast n _ hge (Nat.lt_succ_self n) hget hw fun k' _ hk hk' ↦ by omega
        · rw [(h n _ hget).mem_eq hw]
          refine ih (by omega) (fun k instr hik hkn hk hwk hafter ↦ ?_) hge
          refine hlast k instr hik (by omega) hk hwk fun k' instr' hkk hkn' hk' ↦ ?_
          rcases Nat.lt_or_ge k' n with hlt | hge'
          · exact hafter k' instr' hkk hlt hk'
          · obtain rfl : k' = n := by omega
            rw [Option.some.inj (hk'.symm.trans hget)]
            exact hw
    exact hgo j le_rfl hrestores hij

end WordMachine

end Banjo.SSA
