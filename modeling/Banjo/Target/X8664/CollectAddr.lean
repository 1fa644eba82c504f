import Banjo.SSA.Execution
import Mathlib.Tactic.Abel

/-!
# Which loads the x86-64 lowerer folds

`generate_basic_block` walks a block from its end to its start. It skips an instruction whose
result has no use left, and it lets some operands that are the result of a `LOAD` of the block be
memory operands, which takes a use away from the `LOAD`. What is kept of a lowered block is the
positions that were emitted and the loads that were folded; the address of a folded load is the one
`collect_addr` finds, before it is encoded.
-/

open List

namespace Banjo.Target.X8664

open SSA

/-- `reg_use_counts`, of `int`s. -/
abbrev UseCounts := VirtualRegister → BitVec 32

namespace UseCounts

def discardUse (counts : UseCounts) (reg : VirtualRegister) : UseCounts :=
  Function.update counts reg (counts reg - 1)

end UseCounts

structure RegOffset where
  reg : VirtualRegister
  scale : ℕ
  deriving DecidableEq, Repr

structure AddrComponents where
  base : Operand
  constOffset : LargeInt := 0
  regOffset : Option RegOffset := none
  deriving DecidableEq, Repr

/-- A `LOAD` that became a memory operand: where it was, the instruction that reads memory in its
place, the address and how many bytes are read. -/
structure Fold where
  load : ℕ
  site : ℕ
  addr : AddrComponents
  width : ℕ
  deriving DecidableEq, Repr

/-- What lowering has done so far. -/
structure Lowering where
  counts : UseCounts
  emitted : List ℕ := []
  folds : List Fold := []

section Block

variable (layout : DataLayout) (instrs : List Instruction)

/-- The last instruction of the block that defines a register. -/
def getProducer (reg : VirtualRegister) : Option ℕ :=
  (List.range instrs.length).reverse.find? fun i ↦ (instrs[i]?.bind Instruction.dest) = some reg

/-- The instruction at a position of the block. -/
def instrAt (i : ℕ) : Instruction := instrs.getD i { opcode := .RET }

/-- The loop of `collect_addr`. -/
def collectFrom : ℕ → AddrComponents → UseCounts → Option (AddrComponents × UseCounts)
  | 0, _, _ => none
  | fuel + 1, addr, counts =>
    match addr.base.value with
    | .register reg =>
      match getProducer instrs reg with
      | none => some (addr, counts)
      | some position =>
        let producer := instrAt instrs position
        match producer.opcode with
        | .OFFSETPTR =>
          let scale := layout.size (producer.getOperand 2).type
          match (producer.getOperand 1).value with
          | .intImmediate immediate =>
            collectFrom fuel { addr with
              base := producer.getOperand 0
              constOffset := addr.constOffset + ⟨BitVec.ofNat 64 scale, false⟩ * immediate }
              (counts.discardUse reg)
          | .register offset =>
            match addr.regOffset with
            | none => collectFrom fuel { addr with
                base := producer.getOperand 0
                regOffset := some ⟨offset, scale⟩ } (counts.discardUse reg)
            | some _ => some (addr, counts)
          | _ => some (addr, counts)
        | .MEMBERPTR =>
          match (producer.getOperand 2).value with
          | .intImmediate index =>
            let offset := layout.memberOffset (producer.getOperand 0).type index.toBits.toNat
            collectFrom fuel { addr with
              base := producer.getOperand 1
              constOffset := addr.constOffset + ⟨BitVec.ofNat 64 offset, false⟩ }
              (counts.discardUse reg)
          | _ => none
        | _ => some (addr, counts)
    | _ => some (addr, counts)

/-- `collect_addr`. A chain of producers is no longer than the block. -/
def collectAddr (operand : Operand) (counts : UseCounts) : Option (AddrComponents × UseCounts) :=
  collectFrom layout instrs (instrs.length + 1) { base := operand } counts

/-- Read memory at the address of a `LOAD` instead of reading its result. -/
def foldLoad (load site width : ℕ) (reg : VirtualRegister) (st : Lowering) : Option Lowering := do
  let (addr, counts) ← collectAddr layout instrs ((instrAt instrs load).getOperand 1) st.counts
  some { st with
    counts := counts.discardUse reg
    folds := ⟨load, site, addr, width⟩ :: st.folds }

/-- `lower_as_operand` with `allow_addrs`, of the right operand of an operation as wide as its left
one. `stackRegs` are the registers of `ALLOCA`s. -/
def lowerRhs (stackRegs : List VirtualRegister) (site : ℕ) (lhs rhs : Operand) (st : Lowering) :
    Option Lowering :=
  match rhs.value with
  | .register reg =>
    if reg ∈ stackRegs then some st else
    match getProducer instrs reg with
    | some load =>
      if (instrAt instrs load).opcode = .LOAD ∧ st.counts reg = 1 then
        foldLoad layout instrs load site (layout.size lhs.type) reg st
      else some st
    | none => some st
  | _ => some st

/-- `append_call`, which does not look at the number of uses. -/
def appendCall (site : ℕ) (callee : Operand) (st : Lowering) : Option Lowering :=
  match callee.value with
  | .register reg =>
    match getProducer instrs reg with
    | some load =>
      if (instrAt instrs load).opcode = .LOAD then foldLoad layout instrs load site 8 reg st
      else some st
    | none => some st
  | _ => some st

/-- The address of an access whose components are not kept. -/
def useAddr (operand : Operand) (st : Lowering) : Option Lowering := do
  let (_, counts) ← collectAddr layout instrs operand st.counts
  some { st with counts }

/-- A `SUB` of an `F32` from zero is a sign flip. -/
def isNegation (instr : Instruction) : Bool :=
  (instr.getOperand 0).type = Primitive.F32 &&
    match (instr.getOperand 0).value with
    | .fpImmediate immediate => immediate.isZero
    | _ => false

/-- `lower_instr`. -/
def lowerInstr (stackRegs : List VirtualRegister) (site : ℕ) (st : Lowering) : Option Lowering :=
  let instr := instrAt instrs site
  match instr.opcode with
  | .LOAD => useAddr layout instrs (instr.getOperand 1) st
  | .STORE =>
    if layout.size (instr.getOperand 0).type = 0 then some st
    else useAddr layout instrs (instr.getOperand 1) st
  | .OFFSETPTR | .MEMBERPTR =>
    match instr.dest with
    | some reg => useAddr layout instrs ⟨.register reg, Primitive.U64⟩ st
    | none => none
  | .ADD | .SUB | .MUL | .AND | .OR | .XOR | .FADD | .FMUL | .FDIV =>
    lowerRhs layout instrs stackRegs site (instr.getOperand 0) (instr.getOperand 1) st
  | .FSUB =>
    if isNegation instr then some st
    else lowerRhs layout instrs stackRegs site (instr.getOperand 0) (instr.getOperand 1) st
  | .CJMP | .FCJMP =>
    lowerRhs layout instrs stackRegs site (instr.getOperand 0) (instr.getOperand 2) st
  | .CALL => appendCall layout instrs site (instr.getOperand 0) st
  | _ => some st

/-- A round of the loop of `generate_basic_block`. -/
def lowerStep (stackRegs : List VirtualRegister) (site : ℕ) (st : Lowering) : Option Lowering :=
  let instr := instrAt instrs site
  if instr.opcode ≠ .CALL ∧ (instr.dest.map fun reg ↦ st.counts reg) = some 0 then some st
  else lowerInstr layout instrs stackRegs site { st with emitted := site :: st.emitted }

/-- The rounds for the positions below a bound, from the last one down. -/
def lowerBelow (stackRegs : List VirtualRegister) : ℕ → Lowering → Option Lowering
  | 0, st => some st
  | site + 1, st => do
    let st ← lowerStep layout instrs stackRegs site st
    lowerBelow stackRegs site st

/-- `generate_basic_block`. -/
def generateBasicBlock (stackRegs : List VirtualRegister) (counts : UseCounts) : Option Lowering :=
  lowerBelow layout instrs stackRegs instrs.length { counts }

end Block

/-- The uses of the registers in a function. -/
def countUses (func : Function) : UseCounts := fun reg ↦
  BitVec.ofNat 32 ((func.blocks.flatMap fun (_, block) ↦
    block.instrs.flatMap Instruction.uses).count reg)

/-- The registers of the `ALLOCA`s of a function. -/
def stackRegs (func : Function) : List VirtualRegister :=
  func.blocks.flatMap fun (_, block) ↦
    (block.instrs.filter fun instr ↦ instr.opcode = .ALLOCA).filterMap Instruction.dest

/-- `generate_blocks`, from a list of blocks on. -/
def generateBlocks (layout : DataLayout) (stackRegs : List VirtualRegister) :
    List (BlockId × BasicBlock) → UseCounts → Option (List Lowering)
  | [], _ => some []
  | (_, block) :: rest, counts => do
    let lowered ← generateBasicBlock layout block.instrs stackRegs counts
    let others ← generateBlocks layout stackRegs rest lowered.counts
    some (lowered :: others)

/-- `lower_func`, as far as loads are folded. -/
def lowerFunc (layout : DataLayout) (func : Function) : Option (List Lowering) :=
  generateBlocks layout (stackRegs func) func.blocks (countUses func)

/-!
## The addresses `collect_addr` finds

In a block in SSA form the registers an address is computed from keep their values from their
definition on, so the components mean the same address wherever they are evaluated.
-/

/-- A block in SSA form: registers are defined once and before they are read, and the instructions
that compute pointers have the operands the lowerer reads. -/
structure InOrder (instrs : List Instruction) : Prop where
  once : ∀ {i j : ℕ} {a b : Instruction} {reg}, instrs[i]? = some a → instrs[j]? = some b →
    a.dest = some reg →
    b.dest = some reg → i = j
  before : ∀ {i j : ℕ} {a b : Instruction} {reg}, instrs[i]? = some a → instrs[j]? =
    some b → reg ∈ a.uses →
    b.dest = some reg → j < i
  pointers : ∀ {a : Instruction}, a ∈ instrs → a.opcode = .OFFSETPTR ∨ a.opcode = .MEMBERPTR →
    ∃ reg, a.dest = some reg
  members : ∀ {a : Instruction}, a ∈ instrs → a.opcode = .MEMBERPTR →
    ∃ immediate, (a.getOperand 2).value = .intImmediate immediate

namespace InOrder

/-- `InOrder` as a test, instruction by instruction. -/
def check : List Instruction → Bool
  | [] => true
  | instr :: rest =>
    (instr.dest.toList.all fun reg ↦ reg ∉ rest.filterMap Instruction.dest) &&
    (instr.uses.all fun reg ↦ reg ∉ (instr :: rest).filterMap Instruction.dest) &&
    (instr.dest.isSome || instr.opcode ≠ .OFFSETPTR && instr.opcode ≠ .MEMBERPTR) &&
    (instr.opcode ≠ .MEMBERPTR || match (instr.getOperand 2).value with
      | .intImmediate _ => true
      | _ => false) &&
    check rest

theorem of_check {instrs : List Instruction} (h : check instrs = true) : InOrder instrs := by
  induction instrs with
  | nil =>
    constructor
    · exact fun hi ↦ absurd hi (by simp)
    · exact fun hi ↦ absurd hi (by simp)
    · exact fun ha ↦ absurd ha not_mem_nil
    · exact fun ha ↦ absurd ha not_mem_nil
  | cons instr rest ih =>
    simp only [check, Bool.and_eq_true, List.all_eq_true, decide_eq_true_eq, Bool.or_eq_true,
      Option.mem_toList] at h
    obtain ⟨⟨⟨⟨hdest, huses⟩, hpointer⟩, hmember⟩, hrest⟩ := h
    have hlater : ∀ {j : ℕ} {b : Instruction} {reg}, rest[j]? = some b → b.dest = some reg →
        reg ∈ rest.filterMap Instruction.dest :=
      fun hj hb ↦ mem_filterMap.mpr ⟨_, mem_of_getElem? hj, hb⟩
    have ih := ih hrest
    constructor
    · intro i j a b reg hi hj ha hb
      rcases i with _ | i <;> rcases j with _ | j
      · rfl
      · obtain rfl := Option.some.inj hi
        exact absurd (hlater hj hb) (hdest reg ha)
      · obtain rfl := Option.some.inj hj
        exact absurd (hlater hi ha) (hdest reg hb)
      · exact congrArg Nat.succ (ih.once hi hj ha hb)
    · intro i j a b reg hi hj ha hb
      have hmem : reg ∈ (instr :: rest).filterMap Instruction.dest :=
        mem_filterMap.mpr ⟨b, mem_of_getElem? hj, hb⟩
      rcases i with _ | i
      · obtain rfl := Option.some.inj hi
        exact absurd hmem (huses reg ha)
      · rcases j with _ | j
        · exact Nat.succ_pos i
        · exact Nat.succ_lt_succ (ih.before hi hj ha hb)
    · intro a ha hopcode
      rcases mem_cons.mp ha with rfl | ha
      · rcases hpointer with hsome | hnot
        · exact Option.isSome_iff_exists.mp hsome
        · exact absurd hopcode (by simpa using hnot)
      · exact ih.pointers ha hopcode
    · intro a ha hopcode
      rcases mem_cons.mp ha with rfl | ha
      · rcases hmember with hnot | himmediate
        · exact absurd hopcode (by simpa using hnot)
        · split at himmediate
          · rename_i immediate hvalue
            exact ⟨immediate, hvalue⟩
          · cases himmediate
      · exact ih.members ha hopcode

end InOrder

variable {instrs : List Instruction}

variable {p : ℕ}

variable {reg : VirtualRegister}

theorem getProducer_spec (h : getProducer instrs reg = some p) :
    instrs[p]? = some (instrAt instrs p) ∧ (instrAt instrs p).dest = some reg := by
  have hdest := find?_some h
  rw [decide_eq_true_eq] at hdest
  cases hget : instrs[p]? with
  | none =>
    rw [hget] at hdest
    cases hdest
  | some instr =>
    rw [hget] at hdest
    rw [instrAt, getD_eq_getElem?_getD, hget]
    exact ⟨rfl, hdest⟩

theorem lt_length_of_getElem? {i : ℕ} {instr : Instruction} (h : instrs[i]? = some instr) :
    i < instrs.length := (List.getElem?_eq_some_iff.mp h).1

/-! ## Registers keep their values -/

section Trace

variable {M : WordMachine} {states : ℕ → BlockState}

variable {instr : Instruction} {p t : ℕ}

variable {reg : VirtualRegister}

/-- What an instruction reads has the same value at every later position. -/
theorem InOrder.env_of_use (h : InOrder instrs) (htrace : M.Trace instrs states)
    (hp : instrs[p]? = some instr) (hpt : p ≤ t) (ht : t ≤ instrs.length)
    (hreg : reg ∈ instr.uses) : (states t).env reg = (states p).env reg :=
  htrace.env_eq hpt ht fun _ _ hpk _ hk hdest ↦
    absurd (h.before hp hk hreg hdest) (Nat.not_lt.mpr hpk)

theorem InOrder.value_of_use (h : InOrder instrs) (htrace : M.Trace instrs states)
    (hp : instrs[p]? = some instr) (hpt : p ≤ t) (ht : t ≤ instrs.length) (i : ℕ) :
    M.value (states t).env (instr.getOperand i)
      = M.value (states p).env (instr.getOperand i) :=
  WordMachine.value_congr fun _ hreg ↦ h.env_of_use htrace hp hpt ht
    (Instruction.mem_uses_of_getOperand hreg)

/-- What an instruction computes keeps its value. -/
theorem InOrder.env_of_def (h : InOrder instrs) (htrace : M.Trace instrs states)
    (hp : instrs[p]? = some instr) (hpt : p < t) (ht : t ≤ instrs.length)
    (hdest : instr.dest = some reg) : (states t).env reg = (states (p + 1)).env reg :=
  htrace.env_eq (Nat.succ_le_of_lt hpt) ht fun _ _ hpk _ hk hdest' ↦
    absurd (h.once hp hk hdest hdest') (Nat.ne_of_lt hpk)

end Trace

/-! ## The address the components mean -/

namespace AddrComponents

def eval (M : WordMachine) (env : VirtualRegister → BitVec 64) (addr : AddrComponents) :
    BitVec 64 :=
  M.value env addr.base + addr.constOffset.toBits +
    match addr.regOffset with
    | some offset => BitVec.ofNat 64 offset.scale * env offset.reg
    | none => 0

/-- The registers an address is computed from. -/
def regs (addr : AddrComponents) : List VirtualRegister :=
  addr.base.uses ++ addr.regOffset.toList.map RegOffset.reg

theorem eval_congr {M : WordMachine} {env env' : VirtualRegister → BitVec 64}
    {addr : AddrComponents} (h : ∀ reg ∈ addr.regs, env reg = env' reg) :
    addr.eval M env = addr.eval M env' := by
  have hbase : M.value env addr.base = M.value env' addr.base :=
    WordMachine.value_congr fun reg hreg ↦ h reg (mem_append_left _ (Operand.mem_uses.mpr hreg))
  rw [eval, eval, hbase]
  cases hoffset : addr.regOffset with
  | none => rfl
  | some offset =>
    have hreg : offset.reg ∈ addr.regs := by
      rw [regs, hoffset]
      exact mem_append_right _ (mem_singleton_self _)
    simp only [h _ hreg]

end AddrComponents

/-- The producer of the base, if it is in the block, is before a position. -/
def BaseBefore (instrs : List Instruction) (addr : AddrComponents) (t : ℕ) : Prop :=
  ∀ reg p, addr.base.value = .register reg → getProducer instrs reg = some p → p < t

variable {addr : AddrComponents}

theorem InOrder.baseBefore (h : InOrder instrs) {i : ℕ} {instr : Instruction}
    (hp : instrs[p]? = some instr) (hbase : addr.base = instr.getOperand i) :
    BaseBefore instrs addr p := by
  intro reg q hreg hq
  obtain ⟨hget, hdest⟩ := getProducer_spec hq
  rw [hbase] at hreg
  exact h.before hp hget (Instruction.mem_uses_of_getOperand hreg) hdest

/-- The address after the producer of its base has been taken into its components. -/
inductive Follow (layout : DataLayout) (producer : Instruction) (addr : AddrComponents) :
    AddrComponents → Prop
  | const {immediate : LargeInt} : producer.opcode = .OFFSETPTR →
    (producer.getOperand 1).value = .intImmediate immediate →
    Follow layout producer addr { addr with
      base := producer.getOperand 0
      constOffset := addr.constOffset +
        ⟨BitVec.ofNat 64 (layout.size (producer.getOperand 2).type), false⟩ * immediate }
  | reg {offset : VirtualRegister} : producer.opcode = .OFFSETPTR →
    (producer.getOperand 1).value = .register offset → addr.regOffset = none →
    Follow layout producer addr { addr with
      base := producer.getOperand 0
      regOffset := some ⟨offset, layout.size (producer.getOperand 2).type⟩ }
  | member {index : LargeInt} : producer.opcode = .MEMBERPTR →
    (producer.getOperand 2).value = .intImmediate index →
    Follow layout producer addr { addr with
      base := producer.getOperand 1
      constOffset := addr.constOffset + ⟨BitVec.ofNat 64
        (layout.memberOffset (producer.getOperand 0).type index.toBits.toNat), false⟩ }

/-- A round of the loop of `collect_addr`. -/
theorem collectFrom_cases (h : InOrder instrs) (layout : DataLayout) (fuel : ℕ)
    (addr : AddrComponents) (counts : UseCounts) :
    collectFrom layout instrs (fuel + 1) addr counts = some (addr, counts) ∨
    ∃ reg p addr', addr.base.value = .register reg ∧ getProducer instrs reg = some p ∧
      Follow layout (instrAt instrs p) addr addr' ∧
      collectFrom layout instrs (fuel + 1) addr counts
        = collectFrom layout instrs fuel addr' (counts.discardUse reg) := by
  rw [collectFrom]
  cases hbase : addr.base.value <;> simp only
  case register reg =>
    cases hp : getProducer instrs reg with
    | none => exact Or.inl rfl
    | some p =>
      have hmem := mem_of_getElem? (getProducer_spec hp).1
      cases hopcode : (instrAt instrs p).opcode <;> simp only [hopcode]
      case OFFSETPTR =>
        cases hoffset : ((instrAt instrs p).getOperand 1).value <;> simp only
        case intImmediate immediate =>
          exact Or.inr ⟨reg, p, _, rfl, hp, .const hopcode hoffset, rfl⟩
        case register offset =>
          cases hreg : addr.regOffset with
          | none => exact Or.inr ⟨reg, p, _, rfl, hp, .reg hopcode hoffset hreg, rfl⟩
          | some _ => exact Or.inl rfl
        all_goals exact Or.inl trivial
      case MEMBERPTR =>
        obtain ⟨index, hindex⟩ := h.members hmem hopcode
        simp only [hindex]
        exact Or.inr ⟨reg, p, _, rfl, hp, .member hopcode hindex, rfl⟩
      all_goals exact Or.inl trivial
  all_goals exact Or.inl trivial

theorem Follow.baseBefore (h : InOrder instrs) {layout : DataLayout} {addr' : AddrComponents}
    (hp : getProducer instrs reg = some p) (hfollow : Follow layout (instrAt instrs p) addr addr') :
    BaseBefore instrs addr' p := by
  have hget := (getProducer_spec hp).1
  cases hfollow with
  | const => exact h.baseBefore (i := 0) hget rfl
  | reg => exact h.baseBefore (i := 0) hget rfl
  | member => exact h.baseBefore (i := 1) hget rfl

/-- The loop ends: it goes from producer to earlier producer. -/
theorem collectFrom_isSome (h : InOrder instrs) (layout : DataLayout) (fuel : ℕ)
    (addr : AddrComponents) (counts : UseCounts) (hfuel : BaseBefore instrs addr fuel) :
    ∃ out, collectFrom layout instrs (fuel + 1) addr counts = some out := by
  induction fuel generalizing addr counts with
  | zero =>
    rcases collectFrom_cases h layout 0 addr counts with heq | ⟨reg, p, addr', hbase, hp, -, -⟩
    · exact ⟨_, heq⟩
    · exact absurd (hfuel reg p hbase hp) (Nat.not_lt_zero p)
  | succ fuel ih =>
    rcases collectFrom_cases h layout (fuel + 1) addr counts with
      heq | ⟨reg, p, addr', hbase, hp, hfollow, heq⟩
    · exact ⟨_, heq⟩
    · rw [heq]
      refine ih addr' _ fun reg' p' hbase' hp' ↦ ?_
      have hlt := hfuel reg p hbase hp
      have hlt' := hfollow.baseBefore h hp reg' p' hbase' hp'
      omega

theorem collectAddr_isSome (h : InOrder instrs) (layout : DataLayout) (operand : Operand)
    (counts : UseCounts) : ∃ out, collectAddr layout instrs operand counts = some out :=
  collectFrom_isSome h layout instrs.length _ counts fun _ _ _ hp ↦
    lt_length_of_getElem? (getProducer_spec hp).1

section Trace

variable {M : WordMachine} {states : ℕ → BlockState}

variable {addr : AddrComponents} {t : ℕ}

/-- Taking in a producer does not change the address. -/
theorem Follow.eval_eq (h : InOrder instrs) (htrace : M.Trace instrs states)
    {addr' : AddrComponents} {reg : VirtualRegister}
    (hbase : addr.base.value = .register reg) (hp : getProducer instrs reg = some p) (hpt : p < t)
    (ht : t ≤ instrs.length) (hfollow : Follow M.layout (instrAt instrs p) addr addr') :
    addr'.eval M (states t).env = addr.eval M (states t).env := by
  obtain ⟨hget, hdest⟩ := getProducer_spec hp
  have hoperand := h.value_of_use htrace hget hpt.le ht
  have hreg : M.value (states t).env addr.base = (states (p + 1)).env reg := by
    rw [WordMachine.value, hbase]
    exact h.env_of_def htrace hget hpt ht hdest
  have hresult : ∀ word, M.result (states p) (instrAt instrs p) = some word →
      (states (p + 1)).env reg = word := fun word ↦ (htrace p _ hget).dest reg word hdest
  rw [AddrComponents.eval, AddrComponents.eval, hreg]
  cases hfollow with
  | @const immediate hopcode hoffset =>
    have hvalue : M.value (states p).env ((instrAt instrs p).getOperand 1) = immediate.toBits := by
      rw [WordMachine.value, hoffset]
    rw [hresult _ (by simp only [WordMachine.result, hopcode]; rfl), hoperand 0, hvalue]
    simp only [LargeInt.toBits_add, LargeInt.toBits_mul, LargeInt.toBits_mk_false]
    abel
  | @reg offset hopcode hoffset hnone =>
    have hvalue : M.value (states p).env ((instrAt instrs p).getOperand 1)
        = (states t).env offset := by
      rw [← hoperand 1, WordMachine.value, hoffset]
    rw [hresult _ (by simp only [WordMachine.result, hopcode]; rfl), hoperand 0, hvalue]
    simp only [hnone]
    abel
  | @member index hopcode hindex =>
    have hvalue : M.value (states p).env ((instrAt instrs p).getOperand 2) = index.toBits := by
      rw [WordMachine.value, hindex]
    rw [hresult _ (by simp only [WordMachine.result, hopcode]; rfl), hoperand 1, hvalue]
    simp only [LargeInt.toBits_add, LargeInt.toBits_mk_false]
    abel

variable {counts counts' : UseCounts}

theorem collectFrom_eval (h : InOrder instrs) (htrace : M.Trace instrs states) {fuel : ℕ}
    (ht : t ≤ instrs.length) {out : AddrComponents} (hbefore : BaseBefore instrs addr t)
    (hout : collectFrom M.layout instrs fuel addr counts = some (out, counts')) :
    out.eval M (states t).env = addr.eval M (states t).env := by
  induction fuel generalizing addr counts with
  | zero => cases hout
  | succ fuel ih =>
    rcases collectFrom_cases h M.layout fuel addr counts with
      heq | ⟨reg, p, addr', hbase, hp, hfollow, heq⟩
    · rw [heq, Option.some.injEq, Prod.mk.injEq] at hout
      rw [hout.1]
    · have hpt := hbefore reg p hbase hp
      rw [heq] at hout
      rw [ih (fun reg' p' hbase' hp' ↦ ?_) hout, hfollow.eval_eq h htrace hbase hp hpt ht]
      exact (hfollow.baseBefore h hp reg' p' hbase' hp').trans hpt

/-- **The components of an address mean that address**, at every position from the instruction that
reads it on. -/
theorem collectAddr_eval (h : InOrder instrs) (htrace : M.Trace instrs states) {i : ℕ}
    {instr : Instruction} (hp : instrs[p]? = some instr) (hpt : p ≤ t) (ht : t ≤ instrs.length)
    (haddr : collectAddr M.layout instrs (instr.getOperand i) counts = some (addr, counts')) :
    addr.eval M (states t).env = M.value (states p).env (instr.getOperand i) := by
  have hbefore : BaseBefore instrs { base := instr.getOperand i } t :=
    fun reg q hreg hq ↦ (h.baseBefore hp rfl reg q hreg hq).trans_le hpt
  rw [collectFrom_eval h htrace ht hbefore haddr, AddrComponents.eval,
    h.value_of_use htrace hp hpt ht i]
  simp

end Trace

end Banjo.Target.X8664
