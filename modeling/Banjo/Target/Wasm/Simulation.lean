import Banjo.Lib.OptionLists
import Banjo.Target.Wasm.BlockCode
import Banjo.Target.Wasm.Dispatcher
import Mathlib.Data.List.Pairwise

/-!
# The dispatcher simulates the control-flow graph

A run of the blocks of an SSA function is followed by the code the function is lowered to, as long
as no step takes the true edge of a conditional branch that leads to the same block along both
edges with different arguments: the arguments of the false edge are stored second, into the same
temporaries.
-/

open List Function
open Option (some.inj bind_some)

namespace Banjo.Target.Wasm

open SSA (SSAType Primitive Comparison VirtualRegister BlockId BasicBlock BranchTarget)
open Relation

variable {W : Type}

section Definitions

variable (ctx : Context) (data : FuncData) (func : SSA.Function) (type : FunctionType)

/-- The code of the basic blocks, without their ends. -/
def blockCodes : List (BlockId × BasicBlock) → List (List Instruction)
  | [] => []
  | (_, block) :: rest =>
    generateBasicBlock ctx data func (rest.length + 1) block :: blockCodes rest

/-- The code behind the dispatcher. -/
def returnCode : List Instruction :=
  (if type.returnType = (Primitive.VOID : SSAType) then []
    else [⟨.LOCAL_GET, [imm data.returnValueLocal]⟩]) ++ [⟨.END_FUNCTION, []⟩]

/-- In the dispatcher, at the start of a basic block whose parameters are set. -/
def atBlock (b : BlockId) (block : BasicBlock) (s : State W) : Config W where
  code := (block.instrs.filter fun instr ↦ !isUnused func instr).flatMap
      (lowerAny ctx data func (func.blocks.length - blockIndex func b)) ++
    ⟨.END_BLOCK, []⟩ :: codeFrom (blockCodes ctx data func func.blocks) (returnCode data type)
      (blockIndex func b + 1)
  labels := blockLabels (blockCodes ctx data func func.blocks) data.blockIndexLocal
    (returnCode data type) (blockIndex func b)
  state := s

end Definitions

variable {host : Host W} {ctx : Context} {data : FuncData} {func : SSA.Function}
  {type : FunctionType} {params : ℕ}

/-! ## The shape of the code -/

variable (blocks : List (BlockId × BasicBlock))

theorem length_blockCodes : (blockCodes ctx data func blocks).length = blocks.length := by
  induction blocks with
  | nil => rfl
  | cons entry blocks ih => exact congrArg (· + 1) ih

variable {b : BlockId} {block : BasicBlock}

theorem getElem?_blockCodes {blocks : List (BlockId × BasicBlock)} {k : ℕ}
    (h : blocks[k]? = some (b, block)) :
    (blockCodes ctx data func blocks)[k]?
      = some (generateBasicBlock ctx data func (blocks.length - k) block) := by
  induction blocks generalizing k with
  | nil => cases h
  | cons entry blocks ih =>
    match k with
    | 0 =>
      obtain rfl := some.inj h
      rfl
    | k + 1 =>
      rw [length_cons, Nat.add_sub_add_right]
      exact ih h

theorem flatten_blocksCode :
    (blocksCode ctx data func blocks).flatten = ended (blockCodes ctx data func blocks) := by
  induction blocks with
  | nil => rfl
  | cons entry blocks ih =>
    rw [blocksCode, blockCodes, flatten_cons, ih]
    rfl

/-- The code of a function is the loop with an index to start from. -/
theorem flatten_generateBlocks :
    (generateBlocks ctx data func type).flatten
      = [⟨.I32_CONST, [imm 0]⟩, ⟨.LOCAL_SET, [imm data.blockIndexLocal]⟩, ⟨.BLOCK, []⟩] ++
          loopCode (blockCodes ctx data func func.blocks) data.blockIndexLocal
            (returnCode data type) := by
  rw [generateBlocks, flatten_append, flatten_append, flatten_blocksCode]
  simp only [entryCode, exitCode, loopCode, codeFrom, switch, returnCode, blockTable,
    length_blockCodes, flatten_cons, flatten_nil, append_nil, append_assoc,
    cons_append, nil_append, drop_zero]

/-- Instructions other than the starts and ends of constructs. -/
theorem balanced_of_plain {code : List Instruction}
    (h : ∀ instr ∈ code, instr.opcode.isPlain = true) : Balanced code := by
  refine Balanced.of_all fun instr hinstr ↦ ?_
  have hplain := h instr hinstr
  simp only [WasmOpcode.isPlain, Bool.and_eq_true, Bool.not_eq_true'] at hplain
  exact hplain.1

theorem blockIndex_spec (hnodup : func.ids.Nodup) (h : func.find b = some block) :
    func.blocks[blockIndex func b]? = some (b, block) := by
  obtain ⟨k, hk, hget⟩ := getElem_of_mem (FuncData.mem_of_lookup h)
  have hlength : k < func.ids.length := by
    rw [SSA.Function.ids, length_map]
    exact hk
  have hid : func.ids[k] = b := by
    simp only [SSA.Function.ids, getElem_map, hget]
  have hindex : blockIndex func b = k := by
    rw [blockIndex, ← hid]
    exact hnodup.idxOf_getElem k _
  rw [hindex, getElem?_eq_getElem hk, hget]

/-! ## Terminators -/

section Terminators

variable (hsep : data.Separate func params) (hfits : params + data.locals.length + 4 < 2 ^ 64)
include hsep hfits

theorem blockIndexLocal_lt : data.blockIndexLocal < 2 ^ 64 :=
  scratch_lt hsep hfits (Or.inl rfl)

/-- Leaving a block with an index on the operand stack. -/
theorem runs_leave {codes : List (List Instruction)} {k : ℕ} {code : List Instruction}
    (tail rest : List Instruction)
    (hk : k < codes.length) (hlength : codes.length < 2 ^ 64)
    (hplain : ∀ instr ∈ code, instr.opcode.isPlain = true) {s t : State W} {v : WVal}
    (h : host.execAll code s = some (t.push v)) :
    host.Runs ⟨code ++ leave data (codes.length - k) ++ rest,
        blockLabels codes data.blockIndexLocal tail k, s⟩
      (atLoop codes data.blockIndexLocal tail
        ((t.setLocal data.blockIndexLocal v).withStack [])) := by
  have hindex : (imm data.blockIndexLocal).index = data.blockIndexLocal :=
    index_imm (blockIndexLocal_lt hsep hfits)
  have hset : host.execAll (code ++ [⟨.LOCAL_SET, [imm data.blockIndexLocal]⟩]) s
      = some (t.setLocal data.blockIndexLocal v) := by
    rw [Host.execAll_append, h, bind_some]
    change some (((t.push v).setLocal (imm data.blockIndexLocal).index v).withStack t.stack) = _
    rw [hindex]
    rfl
  have hcode : code ++ leave data (codes.length - k) ++ rest
      = (code ++ [⟨.LOCAL_SET, [imm data.blockIndexLocal]⟩]) ++
          (⟨.BR, [imm (codes.length - k)]⟩ :: rest) := by
    simp [leave]
  rw [hcode]
  refine ReflTransGen.tail (Host.runs_of_execAll _ _ ?_ hset) ?_
  · intro instr hinstr
    obtain hmem | hlast := mem_append.mp hinstr
    · exact hplain instr hmem
    · rw [mem_singleton.mp hlast]
      rfl
  · change branch _ (imm (codes.length - k)).index _ = _
    rw [index_imm (by omega), branch_loop hk]

/-- Where the arguments of a branch are. -/
structure Stored (data : FuncData) (s t : State W) (next : BasicBlock) (values : List WVal) :
    Prop where
  locals : ∀ i, ¬data.Scratch i → s.locals i = t.locals i
  world : s.world = t.world
  stack : s.stack = t.stack
  tmps : next.paramRegs.map (fun reg ↦ t.locals (data.tmpLocalOf reg)) = values

theorem storeBranchArgs_plain (target : BranchTarget) :
    ∀ instr ∈ storeBranchArgs ctx data func target, instr.opcode.isPlain = true := by
  intro instr hinstr
  obtain ⟨⟨arg, reg⟩, -, hmem⟩ := mem_flatMap.mp hinstr
  obtain hpush | hset := mem_append.mp hmem
  · exact (pushOperand_tidy hsep hfits arg).plain instr hpush
  · rw [mem_singleton.mp hset]
    rfl

variable {target : BranchTarget} {next : BasicBlock}

omit hfits in
theorem tmp_mem (hfind : func.find target.block = some next) {reg : VirtualRegister}
    (hreg : reg ∈ next.paramRegs) : data.tmpLocalOf reg ∈ data.blockArgTmpLocals.map Prod.snd :=
  hsep.tmpMem _ (FuncData.mem_of_lookup hfind) reg hreg

variable {values : List WVal} {s : State W}

omit hsep hfits in
theorem length_argValues (h : argValues host ctx data s target = some values) :
    target.args.length = values.length :=
  (OptionLists.forall₂_of_mapM h).length_eq

/-- Storing the arguments of a branch. -/
theorem storeBranchArgs_spec (hfind : func.find target.block = some next)
    (hargs : target.args.length = next.paramRegs.length)
    (hvalues : argValues host ctx data s target = some values) :
    host.execAll (storeBranchArgs ctx data func target) s
      = some ⟨setLocals s.locals ((next.paramRegs.map data.tmpLocalOf).zip values), s.stack,
          s.world⟩ := by
  have hparams : targetParams func target = next.paramRegs := by
    rw [targetParams, hfind]
    rfl
  have hmapM : (target.args.zip next.paramRegs).mapM
      (fun pair ↦ operandValue host ctx data s pair.1) = some values := by
    rw [← hvalues, argValues]
    conv_rhs => rw [← List.map_fst_zip hargs.le, List.mapM_map]
    rfl
  have hkeys : (target.args.zip next.paramRegs).map (fun pair ↦ data.tmpLocalOf pair.2)
      = next.paramRegs.map data.tmpLocalOf := by
    conv_rhs => rw [← List.map_snd_zip hargs.ge, List.map_map]
    rfl
  rw [storeBranchArgs, hparams, storeArgs_spec hsep hfits
    (fun pair hpair ↦ tmp_mem hsep hfind (of_mem_zip hpair).2) hmapM, hkeys]

omit hfits in
/-- The temporaries of a block hold what was stored last into them. -/
theorem stored_setLocals {s t : State W} (values : List WVal)
    (hfind : func.find target.block = some next) (hnodup : next.paramRegs.Nodup)
    (hlength : next.paramRegs.length = values.length)
    (hlocals : ∀ i, ¬data.Scratch i → s.locals i = t.locals i) (hworld : s.world = t.world)
    (hstack : s.stack = t.stack) :
    Stored data s ⟨setLocals t.locals ((next.paramRegs.map data.tmpLocalOf).zip values), t.stack,
      t.world⟩ next values := by
  have hkeys : ((next.paramRegs.map data.tmpLocalOf).zip values).map Prod.fst
      = next.paramRegs.map data.tmpLocalOf :=
    map_fst_zip ((length_map _).trans hlength)
  refine ⟨fun i hi ↦ (hlocals i hi).trans (setLocals_of_notMem ?_).symm, hworld, hstack, ?_⟩
  · rw [hkeys]
    intro hmem
    obtain ⟨reg, hreg, rfl⟩ := mem_map.mp hmem
    exact hi (Or.inr (tmp_mem hsep hfind hreg))
  · refine ext_getElem ((length_map _).trans hlength) fun j hj hj' ↦ ?_
    rw [getElem_map]
    refine setLocals_of_mem ?_ ?_
    · rw [hkeys]
      refine List.Nodup.map_on ?_ hnodup
      intro reg hreg reg' hreg' heq
      exact hsep.tmpInj _ (FuncData.mem_of_lookup hfind) reg hreg _ (FuncData.mem_of_lookup hfind)
        reg' hreg' heq
    · rw [mem_iff_getElem]
      refine ⟨j, by simp only [length_zip, length_map]; omega, ?_⟩
      rw [getElem_zip, getElem_map]

omit hfits in
/-- Storing the arguments for another block does not touch those already stored. -/
theorem Stored.store_other {s t : State W} (h : Stored data s t next values)
    (hfind : func.find target.block = some next) {other : BranchTarget} {next' : BasicBlock}
    (hfind' : func.find other.block = some next')
    (hdisjoint : next.paramRegs.Disjoint next'.paramRegs) (values' : List WVal) :
    Stored data s ⟨setLocals t.locals ((next'.paramRegs.map data.tmpLocalOf).zip values'), t.stack,
      t.world⟩ next values := by
  have hkey : ∀ {i : ℕ}, i ∈ ((next'.paramRegs.map data.tmpLocalOf).zip values').map Prod.fst →
      ∃ reg ∈ next'.paramRegs, data.tmpLocalOf reg = i := by
    intro i hi
    obtain ⟨⟨j, v⟩, hj, rfl⟩ := mem_map.mp hi
    exact mem_map.mp (of_mem_zip hj).1
  refine ⟨fun i hi ↦ (h.locals i hi).trans (setLocals_of_notMem fun hmem ↦ ?_).symm, h.world,
    h.stack, ?_⟩
  · obtain ⟨reg, hreg, rfl⟩ := hkey hmem
    exact hi (Or.inr (tmp_mem hsep hfind' hreg))
  · rw [← h.tmps]
    refine map_congr_left fun reg hreg ↦ setLocals_of_notMem fun hmem ↦ ?_
    obtain ⟨reg', hreg', heq⟩ := hkey hmem
    have hsame := hsep.tmpInj _ (FuncData.mem_of_lookup hfind') reg' hreg' _
      (FuncData.mem_of_lookup hfind) reg hreg heq
    exact hdisjoint hreg (hsame ▸ hreg')

/-- At the start of the loop, on the way to a block. -/
structure Arrived (data : FuncData) (s t : State W) (index : ℕ) (next : BasicBlock)
    (values : List WVal) : Prop where
  locals : ∀ i, ¬data.Scratch i → s.locals i = t.locals i
  world : s.world = t.world
  stack : t.stack = []
  index : t.locals data.blockIndexLocal = .i32 (BitVec.ofNat 32 index)
  tmps : next.paramRegs.map (fun reg ↦ t.locals (data.tmpLocalOf reg)) = values

omit hfits in
/-- Storing the index leaves the temporaries alone. -/
theorem Stored.arrived {s t : State W} (h : Stored data s t next values)
    (hfind : func.find target.block = some next) (index : ℕ) :
    Arrived data s
      ((t.setLocal data.blockIndexLocal (.i32 (BitVec.ofNat 32 index))).withStack []) index next
      values := by
  refine ⟨fun i hi ↦ ?_, h.world, rfl, update_self .., ?_⟩
  · have hne : i ≠ data.blockIndexLocal := fun heq ↦ hi (Or.inl heq)
    exact (h.locals i hi).trans (update_of_ne hne _ _).symm
  · rw [← h.tmps]
    refine map_congr_left fun reg hreg ↦ ?_
    exact update_of_ne (hsep.tmpNeIndex _ (tmp_mem hsep hfind hreg)) _ _

variable {codes : List (List Instruction)} {tail rest : List Instruction} {k : ℕ}
  (hk : k < codes.length) (hlength : codes.length < 2 ^ 64)
include hk hlength

variable (tail rest) in
/-- `JMP` arrives at its target. -/
theorem runs_jmp {instr : SSA.Instruction} (htargets : instr.targets = [target])
    (hfind : func.find target.block = some next) (hnodup : next.paramRegs.Nodup)
    (hargs : target.args.length = next.paramRegs.length)
    (hvalues : argValues host ctx data s target = some values) :
    ∃ t, host.Runs ⟨lowerJmp ctx data func (codes.length - k) instr ++ rest,
        blockLabels codes data.blockIndexLocal tail k, s⟩
      (atLoop codes data.blockIndexLocal tail t) ∧
      Arrived data s t (blockIndex func target.block) next values := by
  have hcount := length_argValues hvalues
  have hexec := storeBranchArgs_spec hsep hfits hfind hargs hvalues
  have hstored := stored_setLocals hsep values hfind hnodup (by omega)
    (fun i _ ↦ rfl : ∀ i, ¬data.Scratch i → s.locals i = s.locals i) rfl rfl
  have hcode : lowerJmp ctx data func (codes.length - k) instr
      = storeBranchArgs ctx data func target ++
          [⟨.I32_CONST, [imm (blockIndex func target.block)]⟩] ++
            leave data (codes.length - k) := by
    rw [lowerJmp, htargets]
  rw [hcode]
  refine ⟨_, runs_leave hsep hfits tail rest hk hlength ?_ (v := .i32 (BitVec.ofNat 32
    (blockIndex func target.block))) ?_, hstored.arrived hsep hfind _⟩
  · intro i hi
    obtain hmem | hlast := mem_append.mp hi
    · exact storeBranchArgs_plain hsep hfits target i hmem
    · rw [mem_singleton.mp hlast]
      rfl
  · rw [Host.execAll_append, hexec, bind_some, ← const32_imm]
    rfl

omit hk hlength in
/-- Comparing two values and selecting one of two indices. -/
theorem execAll_select {lhs rhs : SSA.Operand} {a b : WVal} {comparison : Comparison}
    {is64Bit taken : Bool} {type : SSAType} {i j : ℕ}
    (hlhs : operandValue host ctx data s lhs = some a)
    (hrhs : operandValue host ctx data s rhs = some b)
    (htype : (if isFloatComparison comparison then if is64Bit then WasmType.F64 else .F32
      else if is64Bit then .I64 else .I32) = comparedType comparison type)
    (hcompare : compareValues comparison type a b = some taken) :
    host.execAll ([⟨.I32_CONST, [imm i]⟩, ⟨.I32_CONST, [imm j]⟩] ++ pushOperand ctx data lhs ++
        pushOperand ctx data rhs ++
        [⟨lowerComparison comparison is64Bit, []⟩, ⟨.SELECT, []⟩]) s
      = some (s.push (.i32 (BitVec.ofNat 32 (if taken then i else j)))) := by
  have hconsts : host.execAll [⟨.I32_CONST, [imm i]⟩, ⟨.I32_CONST, [imm j]⟩] s
      = some ((s.push (.i32 (BitVec.ofNat 32 i))).push (.i32 (BitVec.ofNat 32 j))) := by
    rw [← const32_imm, ← const32_imm]
    rfl
  rw [Host.execAll_append, Host.execAll_append, Host.execAll_append, hconsts, bind_some,
    execAll_push hsep hfits
      (t := (s.push (.i32 (BitVec.ofNat 32 i))).push (.i32 (BitVec.ofNat 32 j))) rfl hlhs,
    bind_some,
    execAll_push hsep hfits
      (t := ((s.push (.i32 (BitVec.ofNat 32 i))).push (.i32 (BitVec.ofNat 32 j))).push a) rfl hrhs,
    bind_some, Host.execAll_cons, execPlain_comparison htype hcompare, bind_some]
  cases taken <;> rfl

variable (tail rest) in
/-- A conditional branch arrives at the target that is taken, unless it is the true one, both are
the same block, and the arguments differ. -/
theorem runs_condJmp {instr : SSA.Instruction} {is64Bit : SSAType → Bool}
    {comparison : Comparison} {a b : WVal} {taken : Bool} {targetTrue targetFalse : BranchTarget}
    {nextTrue nextFalse : BasicBlock} {valuesTrue valuesFalse : List WVal}
    (hcmp : (instr.getOperand 1).value = .comparison comparison)
    (htargets : instr.targets = [targetTrue, targetFalse])
    (hlhs : operandValue host ctx data s (instr.getOperand 0) = some a)
    (hrhs : operandValue host ctx data s (instr.getOperand 2) = some b)
    (htype : (if isFloatComparison comparison
        then if is64Bit (instr.getOperand 0).type then WasmType.F64 else .F32
        else if is64Bit (instr.getOperand 0).type then .I64 else .I32)
      = comparedType comparison (instr.getOperand 0).type)
    (hcompare : compareValues comparison (instr.getOperand 0).type a b = some taken)
    (hfindTrue : func.find targetTrue.block = some nextTrue)
    (hfindFalse : func.find targetFalse.block = some nextFalse)
    (hnodupTrue : nextTrue.paramRegs.Nodup) (hnodupFalse : nextFalse.paramRegs.Nodup)
    (hdisjoint : targetTrue.block ≠ targetFalse.block →
      nextTrue.paramRegs.Disjoint nextFalse.paramRegs)
    (hargsTrue : targetTrue.args.length = nextTrue.paramRegs.length)
    (hargsFalse : targetFalse.args.length = nextFalse.paramRegs.length)
    (hvaluesTrue : argValues host ctx data s targetTrue = some valuesTrue)
    (hvaluesFalse : argValues host ctx data s targetFalse = some valuesFalse)
    (hclean : taken = true → targetFalse.block = targetTrue.block → valuesFalse = valuesTrue) :
    ∃ t, host.Runs ⟨lowerCondJmp ctx data func is64Bit (codes.length - k) instr ++ rest,
        blockLabels codes data.blockIndexLocal tail k, s⟩
      (atLoop codes data.blockIndexLocal tail t) ∧
      Arrived data s t (blockIndex func (if taken then targetTrue else targetFalse).block)
        (if taken then nextTrue else nextFalse) (if taken then valuesTrue else valuesFalse) := by
  have hcountTrue := length_argValues hvaluesTrue
  have hcountFalse := length_argValues hvaluesFalse
  -- The arguments of the true edge are stored first.
  have hexecTrue := storeBranchArgs_spec hsep hfits hfindTrue hargsTrue hvaluesTrue
  have hstoredTrue := stored_setLocals hsep valuesTrue hfindTrue hnodupTrue (by omega)
    (fun i _ ↦ rfl : ∀ i, ¬data.Scratch i → s.locals i = s.locals i) rfl rfl
  have hexecFalse := storeBranchArgs_spec hsep hfits hfindFalse hargsFalse
    ((argValues_congr hsep (fun i hi ↦ (hstoredTrue.locals i hi).symm)
      targetFalse).trans hvaluesFalse)
  have hstoredFalse := stored_setLocals hsep valuesFalse hfindFalse hnodupFalse
    (by omega) hstoredTrue.locals
    hstoredTrue.world hstoredTrue.stack
  -- Then those of the false edge, which may be the same temporaries.
  have hstored : Stored data s
      ⟨setLocals (setLocals s.locals ((nextTrue.paramRegs.map data.tmpLocalOf).zip valuesTrue))
        ((nextFalse.paramRegs.map data.tmpLocalOf).zip valuesFalse), s.stack, s.world⟩
      (if taken then nextTrue else nextFalse) (if taken then valuesTrue else valuesFalse) := by
    cases taken with
    | false => exact hstoredFalse
    | true =>
      by_cases hsame : targetFalse.block = targetTrue.block
      · have hnext : nextFalse = nextTrue := by
          rw [hsame] at hfindFalse
          exact some.inj (hfindFalse.symm.trans hfindTrue)
        have hstored := hstoredFalse
        rw [hclean rfl hsame] at hstored ⊢
        subst hnext
        exact hstored
      · exact hstoredTrue.store_other hsep hfindTrue hfindFalse (hdisjoint (Ne.symm hsame)) _
  have hfind : func.find (if taken then targetTrue else targetFalse).block
      = some (if taken then nextTrue else nextFalse) := by
    cases taken
    · exact hfindFalse
    · exact hfindTrue
  have hcode : lowerCondJmp ctx data func is64Bit (codes.length - k) instr
      = (storeBranchArgs ctx data func targetTrue ++ storeBranchArgs ctx data func targetFalse ++
          ([⟨.I32_CONST, [imm (blockIndex func targetTrue.block)]⟩,
            ⟨.I32_CONST, [imm (blockIndex func targetFalse.block)]⟩] ++
            pushOperand ctx data (instr.getOperand 0) ++
              pushOperand ctx data (instr.getOperand 2) ++
            [⟨lowerComparison comparison (is64Bit (instr.getOperand 0).type), []⟩,
              ⟨.SELECT, []⟩])) ++ leave data (codes.length - k) := by
    simp only [lowerCondJmp, hcmp, htargets, List.append_assoc]
  have hvalue : ∀ operand, operandValue host ctx data _ operand
      = operandValue host ctx data s operand :=
    operandValue_congr hsep fun i hi ↦ (hstored.locals i hi).symm
  have hselect := execAll_select hsep hfits
    (i := blockIndex func targetTrue.block) (j := blockIndex func targetFalse.block)
    ((hvalue _).trans hlhs) ((hvalue _).trans hrhs) htype hcompare
  have hindex : (if taken then blockIndex func targetTrue.block
        else blockIndex func targetFalse.block)
      = blockIndex func (if taken then targetTrue else targetFalse).block := by
    cases taken <;> rfl
  rw [hindex] at hselect
  rw [hcode]
  refine ⟨_, runs_leave hsep hfits tail rest hk hlength ?_ ?_, hstored.arrived hsep hfind _⟩
  · intro i hi
    simp only [mem_append, or_assoc] at hi
    obtain hmem | hmem | hmem | hmem | hmem | hmem := hi
    · exact storeBranchArgs_plain hsep hfits _ i hmem
    · exact storeBranchArgs_plain hsep hfits _ i hmem
    · obtain rfl | hlast := mem_cons.mp hmem
      · rfl
      · rw [mem_singleton.mp hlast]
        rfl
    · exact (pushOperand_tidy hsep hfits _).plain i hmem
    · exact (pushOperand_tidy hsep hfits _).plain i hmem
    · obtain rfl | hlast := mem_cons.mp hmem
      · exact Tidy.plain (lowerComparison_tidy comparison _ : Tidy data _) _ mem_cons_self
      · rw [mem_singleton.mp hlast]
        rfl
  · rw [Host.execAll_append, Host.execAll_append, hexecTrue, bind_some, hexecFalse, bind_some]
    exact hselect

end Terminators

/-! ## Blocks -/

section Blocks

variable {stackRegs : List (VirtualRegister × ℕ)}

theorem not_opens_of_plain {instr : Instruction} (h : instr.opcode.isPlain = true) :
    instr.opcode.opens = false ∧ instr.opcode.closes = false := by
  simp only [WasmOpcode.isPlain, Bool.and_eq_true, Bool.not_eq_true'] at h
  exact h.1

section Shape

variable (hsep : data.Separate func params) (hfits : params + data.locals.length + 4 < 2 ^ 64)
include hsep hfits

/-- No instruction opens or closes a construct within the code of a basic block. -/
theorem lowerAny_flat {depth : ℕ} {instr : SSA.Instruction}
    (hinstr : Tidy data (lowerInstr ctx data instr)) :
    ∀ i ∈ lowerAny ctx data func depth instr, i.opcode.opens = false ∧ i.opcode.closes = false := by
  have hpush : ∀ operand, ∀ i ∈ pushOperand ctx data operand,
      i.opcode.opens = false ∧ i.opcode.closes = false := fun operand i hi ↦
    not_opens_of_plain ((pushOperand_tidy hsep hfits operand).plain i hi)
  have hstore : ∀ target, ∀ i ∈ storeBranchArgs ctx data func target,
      i.opcode.opens = false ∧ i.opcode.closes = false := fun target i hi ↦
    not_opens_of_plain (storeBranchArgs_plain hsep hfits target i hi)
  have hleave : ∀ i ∈ leave data depth, i.opcode.opens = false ∧ i.opcode.closes = false := by
    intro i hi
    obtain rfl | hlast := mem_cons.mp hi
    · exact ⟨rfl, rfl⟩
    · rw [mem_singleton.mp hlast]
      exact ⟨rfl, rfl⟩
  have hcond : ∀ is64Bit, ∀ i ∈ lowerCondJmp ctx data func is64Bit depth instr,
      i.opcode.opens = false ∧ i.opcode.closes = false := by
    intro is64Bit i hi
    unfold lowerCondJmp at hi
    split at hi
    · simp only [mem_append, List.mem_cons, List.not_mem_nil, or_false, or_assoc] at hi
      obtain hmem | hmem | rfl | rfl | hmem | hmem | rfl | rfl | hmem := hi
      · exact hstore _ i hmem
      · exact hstore _ i hmem
      · exact ⟨rfl, rfl⟩
      · exact ⟨rfl, rfl⟩
      · exact hpush _ i hmem
      · exact hpush _ i hmem
      · exact not_opens_of_plain
          (Tidy.plain (lowerComparison_tidy _ _ : Tidy data _) _ mem_cons_self)
      · exact ⟨rfl, rfl⟩
      · exact hleave i hmem
    · cases hi
  intro i hi
  unfold lowerAny at hi
  split at hi
  · unfold lowerJmp at hi
    split at hi
    · simp only [mem_append, mem_singleton, or_assoc] at hi
      obtain hmem | rfl | hmem := hi
      · exact hstore _ i hmem
      · exact ⟨rfl, rfl⟩
      · exact hleave i hmem
    · cases hi
  · exact hcond _ i hi
  · exact hcond _ i hi
  · unfold lowerRet at hi
    simp only [mem_append, mem_singleton, or_assoc] at hi
    obtain hmem | rfl | hmem := hi
    · split at hmem
      · cases hmem
      · obtain hmem | hlast := List.mem_append.mp hmem
        · exact hpush _ i hmem
        · rw [mem_singleton.mp hlast]
          exact ⟨rfl, rfl⟩
    · exact ⟨rfl, rfl⟩
    · exact hleave i hmem
  · exact not_opens_of_plain (hinstr.plain i hi)

omit hsep hfits in
theorem emitBlockPrologue_plain (block : BasicBlock) :
    ∀ instr ∈ emitBlockPrologue data block, instr.opcode.isPlain = true := by
  intro instr hinstr
  obtain ⟨reg, -, hmem⟩ := mem_flatMap.mp hinstr
  obtain rfl | hlast := mem_cons.mp hmem
  · rfl
  · rw [mem_singleton.mp hlast]
    rfl

theorem generateBasicBlock_balanced {depth : ℕ}
    (hinstrs : ∀ instr ∈ block.instrs, Tidy data (lowerInstr ctx data instr)) :
    Balanced (generateBasicBlock ctx data func depth block) := by
  refine (balanced_of_plain (emitBlockPrologue_plain block)).append (Balanced.of_all ?_)
  intro i hi
  obtain ⟨instr, hinstr, hcode⟩ := mem_flatMap.mp hi
  exact lowerAny_flat hsep hfits (hinstrs instr (mem_of_mem_filter hinstr)) i hcode

theorem blockCodes_balanced {blocks : List (BlockId × BasicBlock)}
    (h : ∀ entry ∈ blocks, ∀ instr ∈ entry.2.instrs, Tidy data (lowerInstr ctx data instr)) :
    ∀ code ∈ blockCodes ctx data func blocks, Balanced code := by
  induction blocks with
  | nil => exact fun code hcode ↦ absurd hcode not_mem_nil
  | cons entry blocks ih =>
    intro code hcode
    obtain rfl | hrest := mem_cons.mp hcode
    · exact generateBasicBlock_balanced hsep hfits (h entry mem_cons_self)
    · exact ih (fun e he ↦ h e (mem_cons_of_mem _ he)) code hrest

end Shape

variable {depth : ℕ}

theorem lowerAny_of_not_terminator {instr : SSA.Instruction} (h : instr.isTerminator = false) :
    lowerAny ctx data func depth instr = lowerInstr ctx data instr := by
  simp only [SSA.Instruction.isTerminator, SSA.Instruction.isBranching, Bool.or_eq_false_iff,
    decide_eq_false_iff_not] at h
  unfold lowerAny
  split
  · exact absurd ‹_› h.1.1.1
  · exact absurd ‹_› h.1.1.2
  · exact absurd ‹_› h.1.2
  · exact absurd ‹_› h.2
  · rfl

/-- The code of a block is that of its body and that of its terminator. -/
theorem flatMap_lowerAny {body : List SSA.Instruction}
    {last : SSA.Instruction} (hinstrs : block.instrs = body ++ [last]) (hdest : last.dest = none)
    (hbody : ∀ instr ∈ body, instr.isTerminator = false) :
    (block.instrs.filter fun instr ↦ !isUnused func instr).flatMap (lowerAny ctx data func depth)
      = bodyCode ctx data func block ++ lowerAny ctx data func depth last := by
  have hused : isUnused func last = false := by
    rw [isUnused, hdest, Bool.and_false]
  rw [bodyCode, hinstrs, filter_append, dropLast_concat, flatMap_append]
  congr 1
  · rw [flatMap, flatMap]
    congr 1
    refine map_congr_left fun instr hinstr ↦ ?_
    exact lowerAny_of_not_terminator (hbody instr (mem_of_mem_filter hinstr))
  · rw [filter_cons_of_pos (by rw [hused]; rfl)]
    exact append_nil _

end Blocks

/-! ## Steps -/

section Steps

variable {stackRegs : List (VirtualRegister × ℕ)} (h : Lowerable ctx type stackRegs func)
  (hdata : data = initFunc ctx type stackRegs func)
  (hsep : data.Separate func type.params.length)
include h hdata

theorem Lowerable.fits : type.params.length + data.locals.length + 4 < 2 ^ 64 := by
  have := h.localsFit
  rw [← hdata] at this
  omega

include hsep

theorem Lowerable.tidy : ∀ entry ∈ func.blocks, ∀ instr ∈ entry.2.instrs,
    Tidy data (lowerInstr ctx data instr) := by
  intro entry hentry instr hinstr
  refine lowerInstr_tidy hsep (h.fits hdata) ?_ (h.loadargs entry hentry instr hinstr)
  rw [hdata]
  exact h.memory entry hentry instr hinstr

theorem Lowerable.balanced : ∀ code ∈ blockCodes ctx data func func.blocks, Balanced code :=
  blockCodes_balanced hsep (h.fits hdata) (h.tidy hdata hsep)

omit hdata hsep in
theorem Lowerable.codesFit : (blockCodes ctx data func func.blocks).length + 2 < 2 ^ 32 := by
  rw [length_blockCodes]
  exact h.blocksFit

omit hdata hsep in
theorem Lowerable.blockIndex_lt {b : BlockId} {block : BasicBlock}
    (hfind : func.find b = some block) :
    blockIndex func b < (blockCodes ctx data func func.blocks).length := by
  rw [length_blockCodes]
  exact (List.getElem?_eq_some_iff.mp (blockIndex_spec h.nodup hfind)).1

variable {b : BlockId} {block : BasicBlock}

omit hdata hsep in
theorem Lowerable.params_nodup (hfind : func.find b = some block) : block.paramRegs.Nodup :=
  (nodup_flatMap.mp h.paramsNodup).1 _ (FuncData.mem_of_lookup hfind)

omit hdata hsep in
theorem Lowerable.params_disjoint {c : BlockId} {block' : BasicBlock}
    (hfind : func.find b = some block) (hfind' : func.find c = some block') (hne : b ≠ c) :
    block.paramRegs.Disjoint block'.paramRegs := by
  have hpairwise := (nodup_flatMap.mp h.paramsNodup).2
  have hne' : (b, block) ≠ (c, block') := fun heq ↦ hne (congrArg Prod.fst heq)
  have hsymm : Std.Symm (Function.onFun List.Disjoint fun entry : BlockId × BasicBlock ↦
      entry.2.paramRegs) := ⟨fun _ _ hdisjoint ↦ List.Disjoint.symm hdisjoint⟩
  exact hpairwise.forall (FuncData.mem_of_lookup hfind) (FuncData.mem_of_lookup hfind') hne'

variable {s t : State W}

variable {values : List WVal}

/-- From the start of the loop into the block whose arguments are stored. -/
theorem runs_enter {next : BasicBlock} (hfind : func.find b = some next)
    (harrived : Arrived data s t (blockIndex func b) next values) :
    ∃ t', host.Runs (atLoop (blockCodes ctx data func func.blocks) data.blockIndexLocal
        (returnCode data type) t) (atBlock ctx data func type b next t') ∧
      Agree data (enter data s next values) t' := by
  have htmps : ∀ reg ∈ next.paramRegs, data.tmpLocalOf reg ∈ data.blockArgTmpLocals.map Prod.snd :=
    hsep.tmpMem _ (FuncData.mem_of_lookup hfind)
  have hfits := h.fits hdata
  have hcode : (blockCodes ctx data func func.blocks)[blockIndex func b]?
      = some (generateBasicBlock ctx data func (func.blocks.length - blockIndex func b) next) :=
    getElem?_blockCodes (blockIndex_spec h.nodup hfind)
  have hblock := runs_block host (returnCode data type) (h.balanced hdata hsep)
    h.codesFit (blockIndexLocal_lt hsep hfits) harrived.stack harrived.index hcode
  have hcopy : host.execAll (emitBlockPrologue data next) t = _ :=
    emitBlockPrologue_spec hsep hfits htmps
  have hprologue := Host.runs_of_execAll
    ((next.instrs.filter fun instr ↦ !isUnused func instr).flatMap
        (lowerAny ctx data func (func.blocks.length - blockIndex func b)) ++
      ⟨.END_BLOCK, []⟩ :: codeFrom (blockCodes ctx data func func.blocks) (returnCode data type)
        (blockIndex func b + 1))
    (blockLabels (blockCodes ctx data func func.blocks) data.blockIndexLocal
      (returnCode data type) (blockIndex func b)) (emitBlockPrologue_plain next) hcopy
  rw [generateBasicBlock, append_assoc] at hblock
  refine ⟨_, hblock.trans hprologue, ?_⟩
  refine ⟨fun i hi ↦ ?_, harrived.stack.symm, harrived.world⟩
  change setLocals s.locals _ i = setLocals t.locals _ i
  rw [harrived.tmps]
  exact setLocals_congr (harrived.locals i hi)

variable {c : BlockConfig W}

/-- A block runs up to its terminator. -/
theorem runs_body {last : SSA.Instruction}
    (hleaves : Leaves host ctx data func c block last s) (hagree : Agree data c.state t) :
    ∃ t', Agree data s t' ∧ host.Runs (atBlock ctx data func type c.block block t)
      ⟨lowerAny ctx data func ((blockCodes ctx data func func.blocks).length -
          blockIndex func c.block) last ++
        ⟨.END_BLOCK, []⟩ :: codeFrom (blockCodes ctx data func func.blocks) (returnCode data type)
          (blockIndex func c.block + 1),
        blockLabels (blockCodes ctx data func func.blocks) data.blockIndexLocal
          (returnCode data type) (blockIndex func c.block), t'⟩ := by
  have hmem := FuncData.mem_of_lookup hleaves.find
  obtain ⟨body, last', hinstrs, -, hdest, hbody⟩ := h.shape _ hmem
  have hlast : last' = last := by
    have := hleaves.last
    dsimp only at hinstrs
    rw [hinstrs, getLast?_concat] at this
    exact some.inj this
  subst hlast
  have htidy : Tidy data (bodyCode ctx data func block) :=
    bodyCode_tidy fun instr hinstr ↦ h.tidy hdata hsep _ hmem instr (mem_of_mem_dropLast hinstr)
  obtain ⟨t', hexec, hagree'⟩ := hagree.execAll htidy hleaves.body
  refine ⟨t', hagree', ?_⟩
  rw [atBlock, flatMap_lowerAny hinstrs hdest hbody, append_assoc, length_blockCodes]
  exact Host.runs_of_execAll _ _ htidy.plain hexec

/-- **The step lemma.** A step along an edge whose arguments are not overwritten is followed. -/
theorem runs_step {c' : BlockConfig W} (hstep : CleanStep host ctx data func c c')
    (hfind : func.find c.block = some block) (hagree : Agree data c.state t) :
    ∃ block' t', func.find c'.block = some block' ∧ Agree data c'.state t' ∧
      host.Runs (atBlock ctx data func type c.block block t)
        (atBlock ctx data func type c'.block block' t') := by
  obtain ⟨hbranches, hclean⟩ := hstep
  rename_i s last target next values
  obtain ⟨⟨block', hleaves⟩, ⟨taken, htakes⟩, hreadable, hnext, hvalues⟩ := hbranches
  obtain rfl := some.inj (hleaves.find.symm.trans hfind)
  have hfits := h.fits hdata
  have hmem := FuncData.mem_of_lookup hleaves.find
  have hlast : last ∈ block'.instrs := mem_of_getLast? hleaves.last
  obtain ⟨u, hsu, hbody⟩ := runs_body h hdata hsep hleaves hagree
  have hargValues : ∀ target, argValues host ctx data u target = argValues host ctx data s target :=
    argValues_congr hsep hsu.symm.locals
  have hvalue : ∀ operand,
      operandValue host ctx data u operand = operandValue host ctx data s operand :=
    operandValue_congr hsep hsu.symm.locals
  have hk : blockIndex func c.block < (blockCodes ctx data func func.blocks).length :=
    h.blockIndex_lt hfind
  have hlength : (blockCodes ctx data func func.blocks).length + 2 < 2 ^ 32 := h.codesFit
  -- The terminator arrives at the start of the loop with the values in the temporaries.
  have harrive : ∃ v, host.Runs
      ⟨lowerAny ctx data func ((blockCodes ctx data func func.blocks).length -
          blockIndex func c.block) last ++
        ⟨.END_BLOCK, []⟩ :: codeFrom (blockCodes ctx data func func.blocks) (returnCode data type)
          (blockIndex func c.block + 1),
        blockLabels (blockCodes ctx data func func.blocks) data.blockIndexLocal
          (returnCode data type) (blockIndex func c.block), u⟩
      (atLoop (blockCodes ctx data func func.blocks) data.blockIndexLocal
        (returnCode data type) v) ∧
      Arrived data u v (blockIndex func target.block) next values := by
    have hargs : ∀ target ∈ last.targets, ∀ next, func.find target.block = some next →
        target.args.length = next.paramRegs.length := by
      intro target htarget next hnext
      obtain ⟨next', hnext', hcount⟩ := h.targets _ hmem last hlast target htarget
      rwa [some.inj (hnext'.symm.trans hnext)] at hcount
    cases htakes with
    | jmp hop htargets =>
      have hcount := hargs target (htargets ▸ mem_cons_self) next hnext
      rw [lowerAny, hop]
      exact runs_jmp hsep hfits _ _ hk (by omega) htargets hnext (h.params_nodup hnext) hcount
        ((hargValues target).trans hvalues)
    | @cond comparison a b targetTrue targetFalse _ hcond hcmp htargets hlhs hrhs hcompare =>
      have hmemTrue : targetTrue ∈ last.targets := htargets ▸ mem_cons_self
      have hmemFalse : targetFalse ∈ last.targets :=
        htargets ▸ mem_cons_of_mem _ mem_cons_self
      obtain ⟨nextTrue, hfindTrue, hcountTrue⟩ := h.targets _ hmem last hlast _ hmemTrue
      obtain ⟨nextFalse, hfindFalse, hcountFalse⟩ := h.targets _ hmem last hlast _ hmemFalse
      obtain ⟨valuesTrue, hvaluesTrue⟩ := hreadable _ hmemTrue
      obtain ⟨valuesFalse, hvaluesFalse⟩ := hreadable _ hmemFalse
      have hsame : taken = true → targetFalse.block = targetTrue.block →
          valuesFalse = valuesTrue := by
        intro htaken hblocks
        subst htaken
        by_contra hne
        refine hclean ⟨targetFalse, by rw [htargets]; rfl, hblocks, ?_⟩
        rw [if_pos rfl, hvaluesTrue, hvaluesFalse]
        exact fun heq ↦ hne (some.inj heq)
      have hnextEq : next = if taken then nextTrue else nextFalse := by
        cases taken
        · exact some.inj (hnext.symm.trans hfindFalse)
        · exact some.inj (hnext.symm.trans hfindTrue)
      have hvaluesEq : values = if taken then valuesTrue else valuesFalse := by
        cases taken
        · exact some.inj (hvalues.symm.trans hvaluesFalse)
        · exact some.inj (hvalues.symm.trans hvaluesTrue)
      have hrun : ∀ {is64Bit : SSAType → Bool},
          (if isFloatComparison comparison
            then if is64Bit (last.getOperand 0).type then WasmType.F64 else .F32
            else if is64Bit (last.getOperand 0).type then .I64 else .I32)
          = comparedType comparison (last.getOperand 0).type → _ := fun htype ↦
        runs_condJmp hsep hfits (returnCode data type)
          (⟨.END_BLOCK, []⟩ :: codeFrom (blockCodes ctx data func func.blocks)
            (returnCode data type) (blockIndex func c.block + 1)) hk (by omega) hcmp htargets
              ((hvalue _).trans hlhs)
          ((hvalue _).trans hrhs) htype hcompare hfindTrue hfindFalse (h.params_nodup hfindTrue)
          (h.params_nodup hfindFalse) (h.params_disjoint hfindTrue hfindFalse) hcountTrue
          hcountFalse ((hargValues _).trans hvaluesTrue) ((hargValues _).trans hvaluesFalse) hsame
      obtain ⟨hint, hfloat⟩ := h.comparisons _ hmem last hlast comparison hcmp
      rw [hnextEq, hvaluesEq]
      simp only [SSA.Instruction.isCondBranch, Bool.or_eq_true, decide_eq_true_eq] at hcond
      obtain hop | hop := hcond
      · rw [lowerAny, hop]
        refine hrun ?_
        rw [comparedType, hint hop]
        rfl
      · rw [lowerAny, hop]
        refine hrun ?_
        rw [comparedType, hfloat hop]
        rfl
  obtain ⟨v, hrun, harrived⟩ := harrive
  obtain ⟨t', henter, hagree'⟩ := runs_enter h hdata hsep hnext harrived
  have hmiddle : Agree data (enter data s next values) (enter data u next values) :=
    ⟨fun i hi ↦ setLocals_congr (hsu.locals i hi), rfl, hsu.world⟩
  exact ⟨next, t', hnext, hmiddle.trans hagree', (hbody.trans hrun).trans henter⟩

/-- From the start of the loop out of the function. -/
theorem runs_return (hstack : t.stack = [])
    (hindex : t.locals data.blockIndexLocal = .i32 (BitVec.ofNat 32 func.blocks.length)) :
    ∃ final, host.Runs (atLoop (blockCodes ctx data func func.blocks) data.blockIndexLocal
        (returnCode data type) t) final ∧
      final.Returned (if type.returnType = (Primitive.VOID : SSAType) then []
        else [t.locals data.returnValueLocal]) t.world := by
  have hfits := h.fits hdata
  rw [← length_blockCodes] at hindex
  have hexit := runs_exit host (returnCode data type) (h.balanced hdata hsep)
    h.codesFit (blockIndexLocal_lt hsep hfits) hstack hindex
  by_cases hvoid : type.returnType = (Primitive.VOID : SSAType)
  · refine ⟨_, hexit, ?_, rfl, ?_, rfl⟩
    · change returnCode data type = _
      rw [returnCode, if_pos hvoid]
      rfl
    · rw [if_pos hvoid]
      exact hstack
  · have hlocal : t.locals (imm data.returnValueLocal).index = t.locals data.returnValueLocal := by
      rw [index_imm (returnValue_lt hsep hfits)]
    refine ⟨⟨[⟨.END_FUNCTION, []⟩], [], t.push (t.locals data.returnValueLocal)⟩,
      hexit.tail ?_, rfl, rfl, ?_, rfl⟩
    · rw [returnCode, if_neg hvoid, ← hlocal]
      rfl
    · rw [if_neg hvoid, ← hstack]
      rfl

/-- A block that returns is followed. -/
theorem runs_of_returns {w : W} (hreturns : Returns host ctx data func c values w)
    (hfind : func.find c.block = some block) (hagree : Agree data c.state t) :
    ∃ final, host.Runs (atBlock ctx data func type c.block block t) final ∧
      final.Returned values w := by
  obtain ⟨hleaves, hop, hvalues⟩ := hreturns
  rename_i block' s last
  obtain rfl := some.inj (hleaves.find.symm.trans hfind)
  have hfits := h.fits hdata
  have hmem := FuncData.mem_of_lookup hleaves.find
  have hlast : last ∈ block'.instrs := mem_of_getLast? hleaves.last
  obtain ⟨u, hsu, hbody⟩ := runs_body h hdata hsep hleaves hagree
  have hk : blockIndex func c.block < (blockCodes ctx data func func.blocks).length :=
    h.blockIndex_lt hfind
  have hlength : (blockCodes ctx data func func.blocks).length + 2 < 2 ^ 32 := h.codesFit
  have hreturnIndex : (imm data.returnValueLocal).index = data.returnValueLocal :=
    index_imm (returnValue_lt hsep hfits)
  -- Leaving with the index behind the last block, with the value in its local.
  have hleave : ∀ {code : List Instruction} {v : State W},
      (∀ instr ∈ code, instr.opcode.isPlain = true) → host.execAll code u = some v →
      lowerAny ctx data func ((blockCodes ctx data func func.blocks).length -
          blockIndex func c.block) last
        = code ++ [⟨.I32_CONST, [imm func.blocks.length]⟩] ++
          leave data ((blockCodes ctx data func func.blocks).length - blockIndex func c.block) →
      ∃ final, host.Runs (atBlock ctx data func type c.block block' t) final ∧
        final.Returned (if type.returnType = (Primitive.VOID : SSAType) then []
          else [v.locals data.returnValueLocal]) v.world := by
    intro code v hplain hexec hcode
    rw [hcode] at hbody
    have hconst : host.execAll (code ++ [⟨.I32_CONST, [imm func.blocks.length]⟩]) u
        = some (v.push (.i32 (BitVec.ofNat 32 func.blocks.length))) := by
      rw [Host.execAll_append, hexec, bind_some, ← const32_imm]
      rfl
    have hloop := runs_leave hsep hfits (returnCode data type)
      (⟨.END_BLOCK, []⟩ :: codeFrom (blockCodes ctx data func func.blocks)
        (returnCode data type) (blockIndex func c.block + 1)) hk (by omega)
      (fun instr hinstr ↦ by
        obtain hmem | hconst := mem_append.mp hinstr
        · exact hplain instr hmem
        · rw [mem_singleton.mp hconst]
          rfl) hconst
    obtain ⟨final, hfinal, hreturned⟩ := runs_return
      (t := (v.setLocal data.blockIndexLocal
        (.i32 (BitVec.ofNat 32 func.blocks.length))).withStack []) h hdata hsep rfl
      (update_self ..)
    refine ⟨final, (hbody.trans hloop).trans hfinal, ?_⟩
    have hlocal : ((v.setLocal data.blockIndexLocal
          (.i32 (BitVec.ofNat 32 func.blocks.length))).withStack []).locals data.returnValueLocal
        = v.locals data.returnValueLocal := update_of_ne hsep.returnNeIndex _ _
    rw [hlocal] at hreturned
    exact hreturned
  have hreturn := h.returns _ hmem last hlast hop
  split_ifs at hreturn with hvoid
  · rw [hreturn] at hvalues
    obtain rfl := some.inj hvalues
    obtain ⟨final, hrun, hreturned⟩ := hleave (v := u)
      (fun instr hinstr ↦ absurd hinstr not_mem_nil) rfl (by
        rw [lowerAny, hop]
        simp only [lowerRet, hreturn])
    rw [if_pos hvoid, ← hsu.world] at hreturned
    exact ⟨final, hrun, hreturned⟩
  · obtain ⟨value, hoperands⟩ := hreturn
    rw [hoperands] at hvalues
    rw [mapM_cons, mapM_nil] at hvalues
    obtain ⟨v, hv, heq⟩ := Option.bind_eq_some_iff.mp hvalues
    obtain rfl := some.inj heq
    have hpush := pushOperand_spec hsep hfits
      ((operandValue_congr hsep hsu.symm.locals value).trans hv)
    have hset : host.execAll (pushOperand ctx data value ++
          [⟨.LOCAL_SET, [imm data.returnValueLocal]⟩]) u
        = some (u.setLocal data.returnValueLocal v) := by
      rw [Host.execAll_append, hpush, bind_some]
      change some (((u.push v).setLocal (imm data.returnValueLocal).index v).withStack u.stack) = _
      rw [hreturnIndex]
      rfl
    obtain ⟨final, hrun, hreturned⟩ := hleave (v := u.setLocal data.returnValueLocal v)
      (fun instr hinstr ↦ by
        obtain hmem | hlast := mem_append.mp hinstr
        · exact (pushOperand_tidy hsep hfits value).plain instr hmem
        · rw [mem_singleton.mp hlast]
          rfl) hset (by
        rw [lowerAny, hop]
        simp only [lowerRet, hoperands])
    rw [if_neg hvoid] at hreturned
    have hlocal : (u.setLocal data.returnValueLocal v).locals data.returnValueLocal = v :=
      update_self ..
    have hworld : (u.setLocal data.returnValueLocal v).world = s.world := hsu.world.symm
    rw [hlocal, hworld] at hreturned
    exact ⟨final, hrun, hreturned⟩

/-- The code of a function starts in its entry. -/
theorem runs_start (hs : s.stack = []) {entry : BlockId}
    (hentry : func.blocks.head? = some (entry, block)) :
    func.find entry = some block ∧
      ∃ t, host.Runs ⟨(generateBlocks ctx data func type).flatten, [], s⟩
        (atBlock ctx data func type entry block t) ∧ Agree data s t := by
  have hfits := h.fits hdata
  obtain ⟨rest, hblocks⟩ : ∃ rest, func.blocks = (entry, block) :: rest := by
    obtain ⟨rest, hrest⟩ := head?_eq_some_iff.mp hentry
    exact ⟨rest, hrest⟩
  have hfind : func.find entry = some block := by
    rw [SSA.Function.find, hblocks, lookup_cons_self]
  have hindex : blockIndex func entry = 0 := by
    rw [blockIndex, SSA.Function.ids, hblocks]
    exact idxOf_cons_self
  have hparams : block.paramRegs = [] := h.entryParams _ hentry
  have hlocal : (imm data.blockIndexLocal).index = data.blockIndexLocal :=
    index_imm (blockIndexLocal_lt hsep hfits)
  have hset : host.execAll [⟨.I32_CONST, [imm 0]⟩, ⟨.LOCAL_SET, [imm data.blockIndexLocal]⟩] s
      = some (s.setLocal data.blockIndexLocal (.i32 0)) := by
    conv_rhs => rw [← hlocal]
    rfl
  have hstart : host.Runs ⟨(generateBlocks ctx data func type).flatten, [], s⟩
      (atLoop (blockCodes ctx data func func.blocks) data.blockIndexLocal (returnCode data type)
        (s.setLocal data.blockIndexLocal (.i32 0))) := by
    rw [flatten_generateBlocks]
    refine ReflTransGen.tail (Host.runs_of_execAll (⟨.BLOCK, []⟩ ::
      loopCode (blockCodes ctx data func func.blocks) data.blockIndexLocal (returnCode data type))
      _ ?_ hset) ?_
    · intro instr hinstr
      obtain rfl | hlast := mem_cons.mp hinstr
      · rfl
      · rw [mem_singleton.mp hlast]
        rfl
    · change some (Config.mk _ [⟨afterEnd 0 (loopCode (blockCodes ctx data func func.blocks)
        data.blockIndexLocal (returnCode data type)), s.stack⟩]
        ((s.setLocal data.blockIndexLocal (.i32 0)).withStack [])) = _
      have hself : (s.setLocal data.blockIndexLocal (.i32 0)).withStack []
          = s.setLocal data.blockIndexLocal (.i32 0) := State.withStack_self hs
      rw [afterEnd_loopCode (h.balanced hdata hsep), hself, hs]
      rfl
  have harrived : Arrived data s (s.setLocal data.blockIndexLocal (.i32 0))
      (blockIndex func entry) block [] := by
    rw [hindex]
    refine ⟨fun i hi ↦ ?_, rfl, hs, update_self .., by rw [hparams]; rfl⟩
    have hne : i ≠ data.blockIndexLocal := fun heq ↦ hi (Or.inl heq)
    exact (update_of_ne hne _ _).symm
  obtain ⟨t, henter, hagree⟩ := runs_enter h hdata hsep hfind harrived
  refine ⟨hfind, t, hstart.trans henter, fun i hi ↦ ?_, hs.trans hagree.stack, hagree.world⟩
  have hlocals := hagree.locals i hi
  rw [enter, hparams] at hlocals
  exact hlocals

end Steps

/-- **The dispatcher simulates the control-flow graph.** A run from block to block, none of whose
steps takes the true edge of a conditional branch to one block along both edges with different
arguments, is followed by the code of the function: it is at the start of the same block, with the
same values in the locals of the registers, and if the block returns, it returns the same. -/
theorem lowerFunc_simulates {stackRegs : List (VirtualRegister × ℕ)}
    {stackSlots : List (BitVec 32)} {name : String} (h : Lowerable ctx type stackRegs func)
    (hnumbers : type.variadic = false ∨ type.returnType ≠ (Primitive.VOID : SSAType) ∨
      NoRegisters func)
    {entry : BlockId} {block : BasicBlock} (hentry : func.blocks.head? = some (entry, block))
    {s : State W} (hs : s.stack = []) {c : BlockConfig W}
    (hrun : ReflTransGen (CleanStep host ctx (initFunc ctx type stackRegs func)
      func) ⟨entry, s⟩ c) :
    ∃ next t, func.find c.block = some next ∧
      Agree (initFunc ctx type stackRegs func) c.state t ∧
      host.Runs ⟨(lowerFunc ctx name type stackRegs stackSlots func).blocks.flatten, [], s⟩
        (atBlock ctx (initFunc ctx type stackRegs func) func type c.block next t) ∧
      ∀ values w, Returns host ctx (initFunc ctx type stackRegs func) func c values w →
        ∃ final, host.Runs
          (atBlock ctx (initFunc ctx type stackRegs func) func type c.block next t) final ∧
          final.Returned values w := by
  have hsep : (initFunc ctx type stackRegs func).Separate func type.params.length :=
    initFunc_separate hnumbers
  have hfollow : ∃ next t, func.find c.block = some next ∧
      Agree (initFunc ctx type stackRegs func) c.state t ∧
      host.Runs ⟨(lowerFunc ctx name type stackRegs stackSlots func).blocks.flatten, [], s⟩
        (atBlock ctx (initFunc ctx type stackRegs func) func type c.block next t) := by
    induction hrun with
    | refl =>
      obtain ⟨hfind, t, hstart, hagree⟩ := runs_start h rfl hsep hs hentry
      exact ⟨block, t, hfind, hagree, hstart⟩
    | tail _ hlast ih =>
      obtain ⟨next, t, hfind, hagree, hstart⟩ := ih
      obtain ⟨next', t', hfind', hagree', hstep⟩ :=
        runs_step h rfl hsep hlast hfind hagree
      exact ⟨next', t', hfind', hagree', hstart.trans hstep⟩
  obtain ⟨next, t, hfind, hagree, hstart⟩ := hfollow
  exact ⟨next, t, hfind, hagree, hstart, fun values w hreturns ↦
    runs_of_returns h rfl hsep hreturns hfind hagree⟩

/-! ## One block along both edges -/

/-- A conditional branch on `0 == 0` to block `1` with `1` or else to a block with `2`, and two
blocks that return their parameter. -/
def branchFunc (falseBlock : BlockId) : SSA.Function where
  blocks :=
    [(0, { instrs := [{
        opcode := .CJMP
        operands := [⟨.intImmediate 0, Primitive.U32⟩, ⟨.comparison .EQ, Primitive.VOID⟩,
          ⟨.intImmediate 0, Primitive.U32⟩]
        targets := [⟨1, [⟨.intImmediate ⟨1, false⟩, Primitive.U32⟩]⟩,
          ⟨falseBlock, [⟨.intImmediate ⟨2, false⟩, Primitive.U32⟩]⟩] }] }),
      (1, { instrs := [{ opcode := .RET, operands := [⟨.register 0, Primitive.U32⟩] }]
            paramRegs := [0], paramTypes := [Primitive.U32] }),
      (2, { instrs := [{ opcode := .RET, operands := [⟨.register 1, Primitive.U32⟩] }]
            paramRegs := [1], paramTypes := [Primitive.U32] })]
  lastVirtualReg := 2

def branchContext : Context := ⟨fun _ ↦ "f", fun _ ↦ "g", fun _ ↦ 4, fun _ ↦ []⟩

def branchType : FunctionType := ⟨[], Primitive.U32, false⟩

def branchHost : Host Unit := ⟨fun _ offset ↦ offset, fun _ ↦ 0, fun _ ↦ 0, fun _ _ _ ↦ none⟩

def branchState : State Unit := ⟨fun _ ↦ .i32 0, [], ()⟩

theorem branchFunc_lowerable (hb : b = 1 ∨ b = 2) :
    Lowerable branchContext branchType [] (branchFunc b) where
  nodup := by
    change [0, 1, 2].Nodup
    decide
  entryParams := by
    intro entry hentry
    obtain rfl := some.inj hentry
    rfl
  paramsNodup := by
    change [0, 1].Nodup
    decide
  shape := by
    intro entry hentry
    simp only [branchFunc, mem_cons, not_mem_nil, or_false] at hentry
    obtain rfl | rfl | rfl := hentry <;> exact ⟨[], _, rfl, rfl, rfl, by simp⟩
  targets := by
    intro entry hentry
    simp only [branchFunc, mem_cons, not_mem_nil, or_false] at hentry
    obtain rfl | rfl | rfl := hentry <;>
      simp only [forall_eq, mem_cons, not_mem_nil, or_false, IsEmpty.forall_iff,
        implies_true, forall_eq_or_imp]
    obtain rfl | rfl := hb
    · exact ⟨⟨_, rfl, rfl⟩, ⟨_, rfl, rfl⟩⟩
    · exact ⟨⟨_, rfl, rfl⟩, ⟨_, rfl, rfl⟩⟩
  comparisons := by
    intro entry hentry
    simp only [branchFunc, mem_cons, not_mem_nil, or_false] at hentry
    obtain rfl | rfl | rfl := hentry <;> intro instr hinstr comparison hcomparison <;>
      obtain rfl := mem_singleton.mp hinstr <;> cases hcomparison
    exact ⟨fun _ ↦ rfl, fun hop ↦ by cases hop⟩
  returns := by
    intro entry hentry
    simp only [branchFunc, mem_cons, not_mem_nil, or_false] at hentry
    obtain rfl | rfl | rfl := hentry <;> intro instr hinstr hop <;>
      obtain rfl := mem_singleton.mp hinstr
    · cases hop
    · exact ⟨_, rfl⟩
    · exact ⟨_, rfl⟩
  loadargs := by
    intro entry hentry
    simp only [branchFunc, mem_cons, not_mem_nil, or_false] at hentry
    obtain rfl | rfl | rfl := hentry <;> intro instr hinstr hop <;>
      obtain rfl := mem_singleton.mp hinstr <;> cases hop
  memory := fun _ _ _ _ ↦ Tidy.nil
  blocksFit := by
    change 3 + 2 < 2 ^ 32
    decide
  localsFit := by
    change 0 + 7 < 2 ^ 32
    decide

/-- The branch goes to block `1` with `1`. -/
theorem branchFunc_branches :
    ∃ (last : SSA.Instruction) (block : BasicBlock),
      Branches branchHost branchContext (initFunc branchContext branchType [] (branchFunc b))
        (branchFunc b) ⟨0, branchState⟩ branchState last
        ⟨1, [⟨.intImmediate ⟨1, false⟩, Primitive.U32⟩]⟩ block [.i32 1] ∧
      last.targets = [⟨1, [⟨.intImmediate ⟨1, false⟩, Primitive.U32⟩]⟩,
        ⟨b, [⟨.intImmediate ⟨2, false⟩, Primitive.U32⟩]⟩] ∧
      block.paramRegs = [0] := by
  refine ⟨_, _, ⟨⟨_, rfl, rfl, rfl⟩, ⟨true, ?_⟩, ?_, rfl, rfl⟩, rfl, rfl⟩
  · exact @Takes.cond Unit branchHost branchContext _ _ _ .EQ _ _ _ _ true rfl rfl rfl rfl rfl rfl
  · intro target htarget
    obtain rfl | htarget := mem_cons.mp htarget
    · exact ⟨_, rfl⟩
    · obtain rfl := mem_singleton.mp htarget
      exact ⟨_, rfl⟩

theorem branchFunc_returns
    (hfind : (branchFunc b).find 1 = some block) :
    Returns branchHost branchContext (initFunc branchContext branchType [] (branchFunc b))
      (branchFunc b) ⟨1, enter (initFunc branchContext branchType []
        (branchFunc b)) branchState block
        [.i32 1]⟩ [.i32 1] () := by
  obtain rfl := some.inj hfind
  exact Returns.ret ⟨rfl, rfl, rfl⟩ rfl rfl

/-- With two blocks the branch returns what it should. -/
theorem lowerFunc_simulates_branchFunc :
    ∃ final, branchHost.Runs
      ⟨(lowerFunc branchContext "f" branchType [] [] (branchFunc 2)).blocks.flatten, [],
        branchState⟩ final ∧ final.Returned [.i32 1] () := by
  obtain ⟨last, block, hbranches, htargets, -⟩ := branchFunc_branches (b := 2)
  have hclean : ¬Overwrites branchHost branchContext
      (initFunc branchContext branchType [] (branchFunc 2)) branchState last
      ⟨1, [⟨.intImmediate ⟨1, false⟩, Primitive.U32⟩]⟩ := by
    rintro ⟨other, hother, hblock, -⟩
    rw [htargets] at hother
    obtain rfl := some.inj hother
    cases hblock
  have hfind : (branchFunc 2).find 1 = some block := hbranches.next
  obtain ⟨next, t, -, -, hrun, hreturns⟩ := lowerFunc_simulates
    (branchFunc_lowerable (Or.inr rfl)) (Or.inl rfl) rfl rfl
    (.single (CleanStep.branch hbranches hclean))
  obtain ⟨final, hfinal, hreturned⟩ := hreturns _ _ (branchFunc_returns hfind)
  exact ⟨final, hrun.trans hfinal, hreturned⟩

/-- With one block for both edges the argument of the false edge is what the block gets. -/
theorem not_simulates_sameBlock :
    Lowerable branchContext branchType [] (branchFunc 1) ∧
      (∃ c, ReflTransGen (BlockStep branchHost branchContext
          (initFunc branchContext branchType [] (branchFunc 1)) (branchFunc 1)) ⟨0, branchState⟩ c ∧
        Returns branchHost branchContext (initFunc branchContext branchType [] (branchFunc 1))
          (branchFunc 1) c [.i32 1] ()) ∧
      ¬∃ final, branchHost.Runs
        ⟨(lowerFunc branchContext "f" branchType [] [] (branchFunc 1)).blocks.flatten, [],
          branchState⟩ final ∧ final.Returned [.i32 1] () := by
  obtain ⟨last, block, hbranches, -, -⟩ := branchFunc_branches (b := 1)
  refine ⟨branchFunc_lowerable (Or.inl rfl), ⟨_, .single (BlockStep.branch hbranches),
    branchFunc_returns hbranches.next⟩, ?_⟩
  rintro ⟨final, hrun, hreturned⟩
  obtain ⟨other, hother, hcode, hlabels, hstack⟩ : ∃ other, branchHost.iterate 44
      ⟨(lowerFunc branchContext "f" branchType [] [] (branchFunc 1)).blocks.flatten, [],
        branchState⟩ = some other ∧ other.code = [⟨.END_FUNCTION, []⟩] ∧ other.labels = [] ∧
      other.state.stack = [.i32 2] := ⟨_, rfl, rfl, rfl, rfl⟩
  have hsame := (Host.runs_of_iterate hother).eq_of_returned hrun ⟨hcode, hlabels, hstack, rfl⟩
    hreturned
  exact absurd hsame.1 (by decide)

end Banjo.Target.Wasm
