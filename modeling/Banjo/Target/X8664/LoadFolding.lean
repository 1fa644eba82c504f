import Banjo.Target.X8664.CollectAddr

/-!
# What folded loads read

A folded load reads the address of the `LOAD`, but it reads memory where it is folded. What it finds
is what the `LOAD` found when the instructions in between restore what they overwrite and the
operation that reads memory is as wide as the `LOAD`.
-/

open List Option

namespace Banjo.Target.X8664

open SSA

section Block

variable {instrs : List Instruction}

/-- How many bytes an instruction reads where a load is folded into it: as many as its left operand
has, or the address of a callee. -/
def accessWidth (layout : DataLayout) (instr : Instruction) : ℕ :=
  if instr.opcode = .CALL then 8 else layout.size (instr.getOperand 0).type

/-- A fold takes the address of a `LOAD` of the block to a later position. -/
structure IsFold (layout : DataLayout) (instrs : List Instruction) (fold : Fold) : Prop where
  width : fold.width = accessWidth layout (instrAt instrs fold.site)
  load : instrs[fold.load]? = some (instrAt instrs fold.load)
  opcode : (instrAt instrs fold.load).opcode = .LOAD
  lt : fold.load < fold.site
  site : fold.site < instrs.length
  addr : ∃ counts counts', collectAddr layout instrs
    ((instrAt instrs fold.load).getOperand 1) counts
    = some (fold.addr, counts')

/-! ## What lowering keeps -/

variable {layout : DataLayout} {stackRegs : List VirtualRegister} {st : Lowering}

/-- Every load that was folded is a fold of the block. -/
def Folds (layout : DataLayout) (instrs : List Instruction) (st : Lowering) : Prop :=
  ∀ fold ∈ st.folds, IsFold layout instrs fold

variable {i site : ℕ}

section Lowering

variable (h : InOrder instrs) (hst : Folds layout instrs st)

include h hst

theorem foldLoad_spec {load width : ℕ} {reg : VirtualRegister}
    (hsite : instrs[site]? = some (instrAt instrs site))
    (hwidth : width = accessWidth layout (instrAt instrs site))
    (hread : ((instrAt instrs site).getOperand i).value = .register reg)
    (hload : getProducer instrs reg = some load) (hopcode : (instrAt instrs load).opcode = .LOAD) :
    ∃ st', foldLoad layout instrs load site width reg st = some st' ∧ Folds layout instrs st' := by
  obtain ⟨hget, hdest⟩ := getProducer_spec hload
  obtain ⟨⟨addr, counts⟩, haddr⟩ :=
    collectAddr_isSome h layout ((instrAt instrs load).getOperand 1) st.counts
  refine ⟨_, by rw [foldLoad, haddr]; rfl, ?_⟩
  rintro fold (_ | ⟨_, hfold⟩)
  · exact ⟨hwidth, hget, hopcode, h.before hsite hget
      (Instruction.mem_uses_of_getOperand hread) hdest,
      lt_length_of_getElem? hsite, _, _, haddr⟩
  · exact hst fold hfold

theorem useAddr_spec (operand : Operand) :
    ∃ st', useAddr layout instrs operand st = some st' ∧ Folds layout instrs st' := by
  obtain ⟨⟨addr, counts⟩, haddr⟩ := collectAddr_isSome h layout operand st.counts
  exact ⟨{ st with counts }, by rw [useAddr, haddr]; rfl, hst⟩

theorem lowerRhs_spec (hsite : instrs[site]? = some (instrAt instrs site))
    (hopcode : (instrAt instrs site).opcode ≠ .CALL) :
    ∃ st', lowerRhs layout instrs stackRegs site ((instrAt instrs site).getOperand 0)
      ((instrAt instrs site).getOperand i) st = some st' ∧ Folds layout instrs st' := by
  rw [lowerRhs]
  cases hread : ((instrAt instrs site).getOperand i).value <;> simp only
  case register reg =>
    split_ifs
    · exact ⟨st, rfl, hst⟩
    · cases hload : getProducer instrs reg with
      | none => exact ⟨st, rfl, hst⟩
      | some load =>
        simp only
        split_ifs with hfold
        · exact foldLoad_spec h hst hsite (if_neg hopcode).symm hread hload hfold.1
        · exact ⟨st, rfl, hst⟩
  all_goals exact ⟨st, rfl, hst⟩

theorem appendCall_spec (hsite : instrs[site]? = some (instrAt instrs site))
    (hopcode : (instrAt instrs site).opcode = .CALL) :
    ∃ st', appendCall layout instrs site ((instrAt instrs site).getOperand i) st = some st' ∧
      Folds layout instrs st' := by
  rw [appendCall]
  cases hread : ((instrAt instrs site).getOperand i).value <;> simp only
  case register reg =>
    cases hload : getProducer instrs reg with
    | none => exact ⟨st, rfl, hst⟩
    | some load =>
      simp only
      split_ifs with hfold
      · exact foldLoad_spec h hst hsite (if_pos hopcode).symm hread hload hfold
      · exact ⟨st, rfl, hst⟩
  all_goals exact ⟨st, rfl, hst⟩

theorem lowerInstr_spec (hsite : site < instrs.length) :
    ∃ st', lowerInstr layout instrs stackRegs site st = some st' ∧ Folds layout instrs st' := by
  have hget : instrs[site]? = some (instrAt instrs site) := by
    rw [instrAt, getD_eq_getElem?_getD, getElem?_eq_getElem hsite, getD_some]
  have hskip : ∃ st', some st = some st' ∧ Folds layout instrs st' := ⟨st, rfl, hst⟩
  rw [lowerInstr]
  cases hopcode : (instrAt instrs site).opcode <;> simp only
  case LOAD => exact useAddr_spec h hst _
  case STORE =>
    split_ifs
    · exact hskip
    · exact useAddr_spec h hst _
  case FSUB =>
    split_ifs
    · exact hskip
    · exact lowerRhs_spec h hst hget (by simp [hopcode])
  case CJMP | FCJMP => exact lowerRhs_spec h hst hget (by simp [hopcode])
  case ADD | SUB | MUL | AND | OR | XOR | FADD | FMUL | FDIV =>
    exact lowerRhs_spec h hst hget (by simp [hopcode])
  case CALL => exact appendCall_spec h hst hget hopcode
  case OFFSETPTR | MEMBERPTR =>
    obtain ⟨reg, hreg⟩ := h.pointers (mem_of_getElem? hget) (by simp [hopcode])
    simp only [hreg]
    exact useAddr_spec h hst _
  all_goals exact hskip

theorem lowerStep_spec (hsite : site < instrs.length) :
    ∃ st', lowerStep layout instrs stackRegs site st = some st' ∧ Folds layout instrs st' := by
  rw [lowerStep]
  split_ifs
  · exact ⟨st, rfl, hst⟩
  · have hemitted : Folds layout instrs { st with emitted := site :: st.emitted } := hst
    exact lowerInstr_spec h hemitted hsite

theorem lowerBelow_spec {bound : ℕ} (hbound : bound ≤ instrs.length) :
    ∃ st', lowerBelow layout instrs stackRegs bound st = some st' ∧ Folds layout instrs st' := by
  induction bound generalizing st with
  | zero => exact ⟨st, rfl, hst⟩
  | succ bound ih =>
    obtain ⟨st', hstep, hst'⟩ := lowerStep_spec h hst hbound
    rw [lowerBelow, hstep]
    exact ih hst' (Nat.le_of_succ_le hbound)

end Lowering

/-- Lowering a block succeeds, and what it folds are loads of the block. -/
theorem generateBasicBlock_spec (h : InOrder instrs) (layout : DataLayout)
    (stackRegs : List VirtualRegister) (counts : UseCounts) :
    ∃ lowered, generateBasicBlock layout instrs stackRegs counts = some lowered ∧
      Folds layout instrs lowered :=
  lowerBelow_spec h (fun _ hfold ↦ absurd hfold not_mem_nil) le_rfl

/-! ## What a folded load reads -/

namespace Fold

/-- A machine state at the instruction a load was folded into: computed registers have their values,
others may have any. -/
def Reaches (computed : VirtualRegister → Prop) (states : ℕ → BlockState) (fold : Fold)
    (regs : VirtualRegister → BitVec 64) : Prop :=
  ∀ reg, computed reg → regs reg = (states fold.site).env reg

/-- The memory operand has the bytes the `LOAD` read at its place. -/
def ReadsLoaded (M : WordMachine) (instrs : List Instruction) (states : ℕ → BlockState)
    (fold : Fold) (regs : VirtualRegister → BitVec 64) : Prop :=
  (states fold.site).mem.read (fold.addr.eval M regs) fold.width
    = M.loaded (states fold.load) (instrAt instrs fold.load)

/-- The operation is as wide as the `LOAD`, and what is written between the two to the bytes it
reads ends with what they held. -/
def Unchanged (M : WordMachine) (instrs : List Instruction) (states : ℕ → BlockState)
    (fold : Fold) : Prop :=
  accessWidth M.layout (instrAt instrs fold.site)
      = M.layout.size ((instrAt instrs fold.load).getOperand 0).type ∧
    ∀ i < accessWidth M.layout (instrAt instrs fold.site),
      M.Restores instrs states fold.load fold.site
      (M.value (states fold.load).env ((instrAt instrs fold.load).getOperand 1) + BitVec.ofNat 64 i)

end Fold

variable {M : WordMachine} {states : ℕ → BlockState} {computed : VirtualRegister → Prop}

/-- A folded load whose address is computed reads what the `LOAD` read exactly when the bytes are
unchanged. -/
theorem IsFold.readsLoaded_iff (h : InOrder instrs) {fold : Fold}
    (hfold : IsFold M.layout instrs fold) (htrace : M.Trace instrs states)
    {regs : VirtualRegister → BitVec 64}
    (hregs : fold.Reaches computed states regs) (hcomputed : ∀ reg ∈ fold.addr.regs, computed reg) :
    fold.ReadsLoaded M instrs states regs ↔ fold.Unchanged M instrs states := by
  obtain ⟨counts, counts', haddr⟩ := hfold.addr
  have hle : fold.load ≤ fold.site := hfold.lt.le
  have heval : fold.addr.eval M regs
      = M.value (states fold.load).env ((instrAt instrs fold.load).getOperand 1) := by
    rw [AddrComponents.eval_congr fun reg hreg ↦ hregs reg (hcomputed reg hreg)]
    exact collectAddr_eval h htrace hfold.load hle hfold.site.le haddr
  rw [Fold.ReadsLoaded, Fold.Unchanged, heval, WordMachine.loaded, ← hfold.width]
  have hbytes : ∀ a, (states fold.site).mem a = (states fold.load).mem a ↔
      M.Restores instrs states fold.load fold.site a :=
    fun a ↦ htrace.mem_eq_iff_restores hle hfold.site.le
  constructor
  · intro hread
    have hwidth : fold.width = M.layout.size ((instrAt instrs fold.load).getOperand 0).type := by
      have hlength := congrArg List.length hread
      rwa [Memory.length_read, Memory.length_read] at hlength
    rw [← hwidth, Memory.read_eq_iff] at hread
    exact ⟨hwidth, fun i hi ↦ (hbytes _).mp (hread i hi)⟩
  · rintro ⟨hwidth, hrestores⟩
    rw [← hwidth, Memory.read_eq_iff]
    exact fun i hi ↦ (hbytes _).mpr (hrestores i hi)

end Block

/-! ## The loads of a function -/

/-- The register is not left out: no instruction that defines it was skipped. A stack slot needs no
instruction. -/
def Computed (func : Function) (all : List Lowering) (reg : VirtualRegister) : Prop :=
  reg ∈ stackRegs func ∨ ∀ block ∈ func.blocks.zip all, ∀ (k : ℕ) (instr : Instruction),
    block.1.2.instrs[k]? = some instr → instr.dest = some reg → k ∈ block.2.emitted

/-- A function is lowered block by block. -/
theorem generateBlocks_spec {blocks : List (BlockId × BasicBlock)}
    (h : ∀ entry ∈ blocks, InOrder entry.2.instrs) (layout : DataLayout)
    (stackRegs : List VirtualRegister) (counts : UseCounts) :
    ∃ all, generateBlocks layout stackRegs blocks counts = some all ∧
      all.length = blocks.length ∧
      ∀ block ∈ blocks.zip all, Folds layout block.1.2.instrs block.2 := by
  induction blocks generalizing counts with
  | nil => exact ⟨[], rfl, rfl, fun _ hblock ↦ absurd hblock not_mem_nil⟩
  | cons entry rest ih =>
    obtain ⟨lowered, hlowered, hfolds⟩ :=
      generateBasicBlock_spec (h entry mem_cons_self) layout stackRegs counts
    obtain ⟨all, hall, hlength, hrest⟩ :=
      ih (fun e he ↦ h e (mem_cons_of_mem _ he)) lowered.counts
    refine ⟨lowered :: all, ?_, congrArg Nat.succ hlength, ?_⟩
    · rw [generateBlocks, hlowered]
      simp only [bind_eq_bind, bind_some, hall]
    · rw [zip_cons_cons, forall_mem_cons]
      exact ⟨hfolds, hrest⟩

/-- The sizes of the types of a program without structures. -/
def primitiveLayout : DataLayout where
  size type := type.arrayLength * match type.kind with
    | .primitive .I8 | .primitive .U8 => 1
    | .primitive .I16 | .primitive .U16 => 2
    | .primitive .I32 | .primitive .U32 | .primitive .F32 => 4
    | .primitive .VOID | .struct_ _ => 0
    | _ => 8
  memberOffset _ _ := 0

/-- Globals are laid out one page after the other. -/
def globals : WordMachine where
  layout := primitiveLayout
  symbol value := match value with
    | .global n => BitVec.ofNat 64 (0x1000 * (n + 1))
    | _ => 0

/-- `%0 = load @0; store 5, @target; %1 = add 1, %0; ret %1`. -/
def loadStoreAdd (target : GlobalId) : List Instruction :=
  [{ opcode := .LOAD, dest := some 0,
     operands := [⟨.type, Primitive.I64⟩, ⟨.global 0, Primitive.ADDR⟩] },
   { opcode := .STORE,
     operands := [⟨.intImmediate ⟨5, false⟩, Primitive.I64⟩, ⟨.global target, Primitive.ADDR⟩] },
   { opcode := .ADD, dest := some 1,
     operands := [⟨.intImmediate ⟨1, false⟩, Primitive.I64⟩, ⟨.register 0, Primitive.I64⟩] },
   { opcode := .RET, operands := [⟨.register 1, Primitive.I64⟩] }]

def loadStoreAddFunc (target : GlobalId) : Function where
  blocks := [(0, { instrs := loadStoreAdd target })]
  lastVirtualReg := 2

/-- A run of the block on a memory of zeros. -/
def zeroStates (target : GlobalId) (k : ℕ) : BlockState where
  env _ := 0
  mem := if k < 2 then fun _ ↦ 0 else
    Memory.write (fun _ ↦ 0) (BitVec.ofNat 64 (0x1000 * (target + 1))) (Memory.toBytes 5 8)

theorem trace_loadStoreAdd (target : GlobalId) :
    globals.Trace (loadStoreAdd target) (zeroStates target) := by
  intro k instr hk
  rcases k with _ | _ | _ | _ | k
  · obtain rfl := some.inj hk
    refine ⟨fun _ _ ↦ rfl, fun reg word _ hword ↦ ?_, fun mem hmem ↦ some.inj hmem⟩
    have hzero : (0 : BitVec 64) = Memory.ofBytes (Memory.read (fun _ ↦ 0) 0x1000 8) := by decide
    exact hzero.trans (some.inj hword)
  · obtain rfl := some.inj hk
    refine ⟨fun _ _ ↦ rfl, fun reg word hreg ↦ ?_, fun mem hmem ↦ some.inj hmem⟩
    cases hreg
  · obtain rfl := some.inj hk
    refine ⟨fun _ _ ↦ rfl, fun reg word _ hword ↦ ?_, fun mem hmem ↦ some.inj hmem⟩
    cases hword
  · obtain rfl := some.inj hk
    refine ⟨fun _ _ ↦ rfl, fun reg word hreg ↦ ?_, fun mem hmem ↦ some.inj hmem⟩
    cases hreg
  · cases hk

theorem inOrder_loadStoreAddFunc (target : GlobalId) :
    ∀ entry ∈ (loadStoreAddFunc target).blocks, InOrder entry.2.instrs := by
  intro entry hentry
  obtain rfl := mem_singleton.mp hentry
  exact .of_check rfl

/-- The load of the block, folded into the addition. -/
def folded : Fold := ⟨0, 2, { base := ⟨.global 0, Primitive.ADDR⟩ }, 8⟩

theorem mem_folds_of_eq {target : GlobalId} {all : List Lowering}
    (hall : lowerFunc primitiveLayout (loadStoreAddFunc target) = some all)
    (h : (lowerFunc primitiveLayout (loadStoreAddFunc target)).map (List.map Lowering.folds)
      = some [[folded]]) :
    ∃ block ∈ (loadStoreAddFunc target).blocks.zip all,
      block.1.2.instrs = loadStoreAdd target ∧ folded ∈ block.2.folds := by
  rw [hall, map_some, some.injEq, map_eq_singleton_iff] at h
  obtain ⟨lowered, rfl, hfolds⟩ := h
  refine ⟨_, mem_cons_self, rfl, ?_⟩
  rw [hfolds]
  exact mem_singleton_self _

end Banjo.Target.X8664
