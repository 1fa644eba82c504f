import Banjo.Codegen.CallAgreement
import Banjo.Target.X8664.CallingConvs
import Banjo.Target.AArch64.AAPCSCallingConv

/-!
# Callers and callees of each calling convention

On x86-64 a callee finds every argument where its caller has put it. On AArch64 the caller counts
integers and floating-point numbers together when it fills the registers, while the callee counts
them apart, and the frame of a callee is measured with 8 bytes for a saved register of which its
prologue stores 16.
-/

open List

namespace Banjo.Target

open MCode MCode.StackFrame Codegen.StackFramePass
open SSA (SSAType)

/-- The pass leaves the instructions alone. -/
theorem getModifiedVolatileRegs_run (conv : CallingConvention) (volatileRegs : List PhysicalReg)
    (func : Function) :
    getModifiedVolatileRegs volatileRegs (run conv func) =
      getModifiedVolatileRegs volatileRegs func :=
  rfl

/-! ## Saved registers of x86-64 -/

variable (modified : List PhysicalReg)

theorem saveRegs_spec (frame : StackFrame) :
    (saveRegs modified frame).1 = 8 * ((modified.filter X8664Register.isGeneral).length : ℤ) ∧
      (frame.Fresh → (saveRegs modified frame).2.Fresh) ∧
      Extends frame (saveRegs modified frame).2 := by
  have hfold : ∀ (regs : List PhysicalReg) (size : ℤ) (frame : StackFrame),
      let result := regs.foldl (fun (state : ℤ × StackFrame) reg ↦
        if X8664Register.isGeneral reg then (state.1 + 8, state.2)
        else
          let saved := state.2.newStackSlot { type := .GENERIC, size := 8 }
          (state.1, { saved.2 with regSaveSlotIndices := saved.2.regSaveSlotIndices ++ [saved.1] }))
        (size, frame)
      result.1 = size + 8 * ((regs.filter X8664Register.isGeneral).length : ℤ) ∧
        (frame.Fresh → result.2.Fresh) ∧ Extends frame result.2 := by
    intro regs
    induction regs with
    | nil => exact fun size frame ↦ ⟨by simp, id, .refl frame⟩
    | cons reg regs ih =>
      intro size frame
      rw [foldl_cons]
      by_cases hreg : X8664Register.isGeneral reg
      · obtain ⟨hsize, hfresh, hextends⟩ := ih (size + 8) frame
        rw [if_pos hreg, filter_cons_of_pos hreg]
        refine ⟨hsize.trans ?_, hfresh, hextends⟩
        rw [length_cons]
        push_cast
        omega
      · obtain ⟨hsize, hfresh, hextends⟩ := ih size
          { (frame.newStackSlot { type := .GENERIC, size := 8 }).2 with
            regSaveSlotIndices := _ }
        rw [if_neg hreg, filter_cons_of_neg hreg]
        refine ⟨hsize, fun h ↦ hfresh ?_, ?_⟩
        · have := @Fresh.newStackSlot frame { type := .GENERIC, size := 8 } h rfl
            (fun h ↦ by cases h)
          exact ⟨this.undefined, this.numbered⟩
        · have := extends_newStackSlot frame { type := .GENERIC, size := 8 }
          refine (?_ : Extends frame _).trans hextends
          exact ⟨this.slots, this.callArgs⟩
  obtain ⟨hsize, h⟩ := hfold modified 0 frame
  exact ⟨hsize.trans (by omega), h⟩

theorem sum_spDelta_pushRegs :
    ((pushRegs modified).map PrologInstr.spDelta).sum =
      -(8 * ((modified.filter X8664Register.isGeneral).length : ℤ)) := by
  unfold pushRegs
  induction modified.filter X8664Register.isGeneral with
  | nil => rfl
  | cons reg regs ih =>
    rw [flatMap_cons, map_append, sum_append, ih, length_cons]
    simp only [PrologInstr.spDelta, map_cons, map_nil, sum_cons, sum_nil]
    push_cast
    omega

theorem sum_spDelta_storeRegs (frame : StackFrame) :
    ((storeRegs modified frame).map PrologInstr.spDelta).sum = 0 := by
  unfold storeRegs
  generalize modified.filter _ = regs, frame.regSaveSlotIndices = slots
  induction regs generalizing slots with
  | nil => rfl
  | cons reg regs ih =>
    cases slots with
    | nil => rfl
    | cons slot slots =>
      rw [zipWith_cons_cons, map_cons, sum_cons, ih, PrologInstr.spDelta, add_zero]

/-! ## System V -/

namespace SysVCallingConv

variable (params : List SSAType) (general float slot : ℕ)

theorem length_argStorageFrom :
    (argStorageFrom general float slot params).length = params.length := by
  induction params generalizing general float slot with
  | nil => rfl
  | cons param params ih =>
    rw [argStorageFrom]
    split_ifs <;> rw [length_cons, length_cons, ih]

theorem gapless_argStorageFrom :
    Gapless slot ((argStorageFrom general float slot params).map getArgDst) := by
  induction params generalizing general float slot with
  | nil => trivial
  | cons param params ih =>
    rw [argStorageFrom]
    split_ifs
    · exact ih _ _ _
    · exact ih _ _ _
    · exact ⟨le_rfl, (ih _ _ _).mono (le_max_right _ _)⟩

def lawful : Lawful conv where
  callArgs type := (getArgStorage type).map getArgDst
  base := 0
  lowerCall_eq _ _ := rfl
  gapless type := gapless_argStorageFrom type.params 0 0 0
  length_callArgs type := by
    rw [length_map]
    exact length_argStorageFrom type.params 0 0 0
  length_getArgStorage type := length_argStorageFrom type.params 0 0 0
  implicitRegion_fresh func := (saveRegs_spec _ func.frame).2.1
  implicitRegion_extends func := (saveRegs_spec _ func.frame).2.2
  argStore_label _ _ _ := label_of_mem_argStoreBelow
  callArgRegion_label _ _ id := label_defineCallArgSlots 0 id
  callArgRegion_eq _ _ _ := rfl

/-- Both sides use the same storages. -/
theorem matches_argStorageFrom :
    List.Forall₂ (Matches 0 0) ((argStorageFrom general float slot params).map getArgDst)
      (argStorageFrom general float slot params) := by
  induction params generalizing general float slot with
  | nil => exact .nil
  | cons param params ih =>
    rw [argStorageFrom]
    split_ifs
    · exact .cons rfl (ih _ _ _)
    · exact .cons rfl (ih _ _ _)
    · refine .cons ?_ (ih _ _ _)
      simp [Matches, getArgDst]

/-- The frame of a callee ends where its caller's begins. -/
theorem prolog_gap (callee : Function) :
    conv.callDelta + ((getProlog (run conv callee)).map PrologInstr.spDelta).sum +
      (allocaSize conv callee + (conv.createImplicitRegion callee).1.size) = 0 := by
  have hsize : (conv.createImplicitRegion callee).1.size = implicitStackBytes + _ :=
    congrArg (implicitStackBytes + ·) (saveRegs_spec _ callee.frame).1
  rw [hsize, getProlog, map_append, sum_append, map_append, sum_append,
    sum_spDelta_pushRegs, sum_spDelta_storeRegs, run_frame_size, getModifiedVolatileRegs_run]
  simp only [PrologInstr.spDelta, map_cons, map_nil, sum_cons, sum_nil, implicitStackBytes]
  have hdelta : conv.callDelta = -8 := rfl
  omega

end SysVCallingConv

/-! ## Microsoft x64 -/

namespace MSABICallingConv

/-- The arguments from `index` on. -/
theorem gapless_emitArgMove (params : List SSAType) (index : ℕ) :
    Gapless (index - 4) (params.mapIdx fun i param ↦ emitArgMove (i + index) param) := by
  induction params generalizing index with
  | nil => trivial
  | cons param params ih =>
    have hrest := ih (index + 1)
    simp only [mapIdx_cons, emitArgMove, Nat.zero_add] at hrest ⊢
    simp only [show ∀ i, i + 1 + index = i + (index + 1) by omega]
    split_ifs with hindex
    · rwa [show index - 4 = index + 1 - 4 by omega]
    · refine ⟨le_rfl, hrest.mono ?_⟩
      exact le_max_of_le_right (by omega)

/-- The stored arguments get offsets above the implicit region. -/
theorem argStore_label (frame : StackFrame) (region : ImplicitStackRegion)
    (entry : StackSlotId × ℤ) (h : entry ∈ (createArgStoreRegion frame region).offsets) :
    ∃ k, frame.label entry.1 = some (.ARG_STORE, k) := by
  obtain ⟨i, hi, rfl⟩ := mem_mapIdx.mp h
  exact label_of_mem_undefinedSlots (getElem_mem hi)

def lawful : Lawful conv where
  callArgs type := type.params.mapIdx emitArgMove
  base := 32
  lowerCall_eq _ _ := rfl
  gapless type := gapless_emitArgMove type.params 0
  length_callArgs _ := length_mapIdx
  length_getArgStorage _ := length_mapIdx
  implicitRegion_fresh func := (saveRegs_spec _ func.frame).2.1
  implicitRegion_extends func := (saveRegs_spec _ func.frame).2.2
  argStore_label := argStore_label
  callArgRegion_label func frame id := by
    change (createCallArgRegion func frame).2.label id = frame.label id
    unfold createCallArgRegion
    split
    · exact label_defineCallArgSlots 32 id
    · rfl
  callArgRegion_eq func frame hcall := by
    change (createCallArgRegion func frame).2 = _
    rw [createCallArgRegion, if_pos hcall]

/-- The space for the arguments in registers makes up for the numbers of the first stack slots. -/
theorem matches_getArgStorage (type : FunctionType) :
    List.Forall₂ (Matches 32 0) (type.params.mapIdx emitArgMove) (getArgStorage type) := by
  refine forall₂_iff_get.mpr ⟨by simp [getArgStorage], fun i hi hi' ↦ ?_⟩
  simp only [getArgStorage, get_eq_getElem, getElem_mapIdx, emitArgMove,
    show argRegsInt.length = 4 from rfl]
  split_ifs with hreg
  · rfl
  · simp only [Matches]
    push_cast
    omega

theorem zero_le_allocaSize (callee : Function) : 0 ≤ allocaSize conv callee := by
  have hgeneric : 0 ≤ (genericRegion conv callee).2 :=
    le_createGenericRegion_size (conv.createImplicitRegion callee).2 0
  have hcallArgs : 0 ≤ (callArgRegion conv callee).1 := by
    change 0 ≤ (createCallArgRegion callee _).1
    unfold createCallArgRegion
    split
    · positivity
    · exact le_rfl
  have hargStore : (argStoreRegion conv callee).size = 0 := rfl
  change 0 ≤ MSABICallingConv.getAllocaSize _
  unfold MSABICallingConv.getAllocaSize
  dsimp only
  split_ifs
  · omega
  · have := le_align ((argStoreRegion conv callee).size + (genericRegion conv callee).2 +
      (callArgRegion conv callee).1 + (conv.createImplicitRegion callee).1.size)
      (show (0 : ℤ) < 16 by decide)
    omega

theorem prolog_gap (callee : Function) :
    conv.callDelta + ((getProlog (run conv callee)).map PrologInstr.spDelta).sum +
      (allocaSize conv callee + (conv.createImplicitRegion callee).1.size) = 0 := by
  have hsize : (conv.createImplicitRegion callee).1.size = implicitStackBytes + _ :=
    congrArg (implicitStackBytes + ·) (saveRegs_spec _ callee.frame).1
  have halloca := zero_le_allocaSize callee
  -- A frame without slots has no instruction that makes room for it.
  have hsub : ((if (run conv callee).frame.size > 0 then
      [PrologInstr.subSp (run conv callee).frame.size 0] else []).map PrologInstr.spDelta).sum =
        -allocaSize conv callee := by
    rw [run_frame_size]
    split_ifs with hpos
    · simp [PrologInstr.spDelta]
    · simp only [map_nil, sum_nil]
      omega
  rw [hsize, getProlog, map_append, sum_append, map_append, sum_append, hsub,
    sum_spDelta_pushRegs, sum_spDelta_storeRegs, getModifiedVolatileRegs_run, implicitStackBytes]
  have hdelta : conv.callDelta = -8 := rfl
  omega

end MSABICallingConv

/-! ## AArch64 -/

namespace AAPCSCallingConv

variable (variant : Variant)

/-- How many numbers of slots a call has used before the argument `index`. -/
def slotBound (type : FunctionType) (index : ℕ) : ℕ :=
  if variant = .APPLE ∧ type.variadic ∧ index ≥ type.firstVariadicIndex then
    index - type.firstVariadicIndex
  else index - 8

theorem slotBound_succ_le (type : FunctionType) (index : ℕ) :
    slotBound variant type (index + 1) ≤ slotBound variant type index + 1 := by
  unfold slotBound
  grind

/-- Behind an argument in a register the next number is still 0. -/
theorem slotBound_succ_of_lt {type : FunctionType} {index : ℕ} (hindex : index < 8)
    (h : ¬(variant = .APPLE ∧ type.variadic ∧ index ≥ type.firstVariadicIndex)) :
    slotBound variant type (index + 1) = 0 := by
  unfold slotBound
  grind

theorem gapless_emitArgMoves (type : FunctionType) (params : List SSAType) (index gp fp : ℕ) :
    Gapless (slotBound variant type index) (emitArgMoves variant type index gp fp params) := by
  induction params generalizing index gp fp with
  | nil => trivial
  | cons param params ih =>
    have hsucc := slotBound_succ_le variant type index
    rw [emitArgMoves]
    by_cases hvariadic : variant = .APPLE ∧ type.variadic ∧ index ≥ type.firstVariadicIndex
    · have hbound : slotBound variant type index = index - type.firstVariadicIndex :=
        if_pos hvariadic
      rw [if_pos hvariadic, ← hbound]
      exact ⟨le_rfl, (ih _ _ _).mono (le_max_of_le_right hsucc)⟩
    · have hbound : slotBound variant type index = index - 8 := if_neg hvariadic
      rw [if_neg hvariadic]
      split_ifs with hindex
      · exact (ih _ _ _).mono (by rw [slotBound_succ_of_lt variant hindex hvariadic]; omega)
      · exact (ih _ _ _).mono (by rw [slotBound_succ_of_lt variant hindex hvariadic]; omega)
      · rw [← hbound]
        exact ⟨le_rfl, (ih _ _ _).mono (le_max_of_le_right hsucc)⟩

theorem length_emitArgMoves (type : FunctionType) (params : List SSAType) (index gp fp : ℕ) :
    (emitArgMoves variant type index gp fp params).length = params.length := by
  induction params generalizing index gp fp with
  | nil => rfl
  | cons param params ih =>
    rw [emitArgMoves]
    split_ifs <;> rw [length_cons, length_cons, ih]

theorem length_argStorageFrom (type : FunctionType) (params : List SSAType)
    (index general float stackOffset : ℕ) :
    (argStorageFrom variant type index general float stackOffset params).length =
      params.length := by
  induction params generalizing index general float stackOffset with
  | nil => rfl
  | cons param params ih =>
    rw [argStorageFrom]
    split_ifs <;> rw [length_cons, length_cons, ih]

def lawful : Lawful (conv variant) where
  callArgs type := emitArgMoves variant type 0 0 0 type.params
  base := 0
  lowerCall_eq _ _ := rfl
  gapless type := (gapless_emitArgMoves variant type type.params 0 0 0).mono (by
    unfold slotBound
    split_ifs <;> omega)
  length_callArgs type := length_emitArgMoves variant type type.params 0 0 0
  length_getArgStorage type := length_argStorageFrom variant type type.params 0 0 0 0
  implicitRegion_fresh _ := id
  implicitRegion_extends func := .refl func.frame
  argStore_label _ _ _ := label_of_mem_argStoreBelow
  callArgRegion_label _ _ id := label_defineCallArgSlots 0 id
  callArgRegion_eq _ _ _ := rfl

/-! ### The frame of a callee -/

theorem sum_spDelta_modifySp {value : ℕ} {instrs : List PrologInstr}
    (h : modifySp value = some instrs) : (instrs.map PrologInstr.spDelta).sum = -value := by
  unfold modifySp at h
  split_ifs at h
  · cases h
    simp [PrologInstr.spDelta]
  · cases h
    simp only [PrologInstr.spDelta, map_cons, map_nil, sum_cons, sum_nil]
    omega

theorem zero_le_allocaSize (callee : Function) : 0 ≤ allocaSize (conv variant) callee := by
  have hstore : (argStoreRegion (conv variant) callee).size ≤ 0 :=
    argStoreBelow_size_le callee.frame
  have hgeneric : -(2 * (argStoreRegion (conv variant) callee).size) ≤
      (genericRegion (conv variant) callee).2 :=
    le_createGenericRegion_size callee.frame _
  have hcallArgs : 0 ≤ (callArgRegion (conv variant) callee).1 := by
    change (0 : ℤ) ≤ 8 * (callee.frame.callArgSlotIndices.length : ℤ)
    positivity
  have halign := le_align ((argStoreRegion (conv variant) callee).size +
    (genericRegion (conv variant) callee).2 + (callArgRegion (conv variant) callee).1)
    (show (0 : ℤ) < 16 by decide)
  change 0 ≤ align ((argStoreRegion (conv variant) callee).size +
    (genericRegion (conv variant) callee).2 + (callArgRegion (conv variant) callee).1) 16 + 16
  omega

theorem sum_spDelta_storedRegs (regs : List PhysicalReg) :
    ((regs.map (PrologInstr.strPreIndex · (-16))).map PrologInstr.spDelta).sum =
      -(16 * (regs.length : ℤ)) := by
  induction regs with
  | nil => rfl
  | cons reg regs ih =>
    rw [map_cons, map_cons, sum_cons, ih, PrologInstr.spDelta, length_cons]
    push_cast
    omega

/-- What the prologue stores beyond the space that the frame counts for the saved registers. -/
def savedRegGap (callee : Function) : ℤ :=
  8 * ((getModifiedVolatileRegs volatileRegs callee).length : ℤ) -
    16 * ((storedRegs callee).length : ℤ)

theorem prolog_gap {callee : Function} {prolog : List PrologInstr}
    (h : getProlog (run (conv variant) callee) = some prolog) :
    (conv variant).callDelta + (prolog.map PrologInstr.spDelta).sum +
      (allocaSize (conv variant) callee + ((conv variant).createImplicitRegion callee).1.size) =
        savedRegGap callee := by
  obtain ⟨alloca, halloca, hprolog⟩ := Option.bind_eq_some_iff.mp h
  cases hprolog
  have hsize : ((conv variant).createImplicitRegion callee).1.size = implicitStackBytes +
      8 * ((getModifiedVolatileRegs volatileRegs callee).length : ℤ) := rfl
  have hdelta : (conv variant).callDelta = 0 := rfl
  have hstored : storedRegs (run (conv variant) callee) = storedRegs callee := rfl
  have hnonneg := zero_le_allocaSize variant callee
  rw [map_append, sum_append, map_append, sum_append, hstored,
    sum_spDelta_storedRegs, sum_spDelta_modifySp halloca, run_frame_size, hsize, savedRegGap]
  simp only [PrologInstr.spDelta, map_cons, map_nil, sum_cons, sum_nil, implicitStackBytes]
  omega

/-! ### The places of the arguments -/

variable {variant} {type : FunctionType}

/-- Behind eight arguments the caller uses the stack. The callee does so as well for the kinds of
which it has no register left. -/
theorem matches_stack_iff (hvariadic : type.variadic = false) (gap : ℤ) (params : List SSAType)
    (index gp fp general float : ℕ) (hindex : 8 ≤ index) :
    List.Forall₂ (Matches 0 gap) (emitArgMoves variant type index gp fp params)
        (argStorageFrom variant type index general float (8 * (index - 8)) params) ↔
      params = [] ∨ gap = 0 ∧
        ∀ param ∈ params, if param.isFloatingPoint then 8 ≤ float else 8 ≤ general := by
  induction params generalizing index with
  | nil => simp [emitArgMoves, argStorageFrom]
  | cons param params ih =>
    have hint : argRegsInt.length = 8 := rfl
    have hfp : argRegsFp.length = 8 := rfl
    have hnot : ¬(variant = .APPLE ∧ type.variadic ∧ index ≥ type.firstVariadicIndex) := by
      simp [hvariadic]
    rw [emitArgMoves, argStorageFrom, if_neg hnot, if_neg hnot, if_neg (not_lt.mpr hindex), hint,
      hfp]
    split_ifs with hfloat hgeneral
    · -- The callee reads a register.
      simp [Matches, forall₂_cons, hfloat.1, hfloat.2]
    · simp [Matches, forall₂_cons, hgeneral.1, hgeneral.2]
    · rw [forall₂_cons, show 8 * (index - 8) + 8 = 8 * (index + 1 - 8) by omega,
        ih (index + 1) (by omega)]
      have hhead : Matches 0 gap (.slot (index - 8)) (.onStack 0 (8 * (index - 8))) ↔ gap = 0 := by
        simp [Matches]
      have hfull : if param.isFloatingPoint then 8 ≤ float else 8 ≤ general := by
        split_ifs with hparam
        · exact not_lt.mp fun hlt ↦ hfloat ⟨hparam, hlt⟩
        · exact not_lt.mp fun hlt ↦ hgeneral ⟨by simpa using hparam, hlt⟩
      rw [hhead]
      simp only [forall_mem_cons, hfull, true_and, false_or]
      constructor
      · rintro ⟨hgap, rfl | ⟨-, hparams⟩⟩
        · exact ⟨hgap, by simp⟩
        · exact ⟨hgap, hparams⟩
      · exact fun h ↦ ⟨h.1, Or.inr h⟩

/-- Only floating-point numbers, or none, behind `gp` integers and `fp` floating-point numbers. -/
def Uniform (gp fp : ℕ) (params : List SSAType) : Prop :=
  gp = 0 ∧ (∀ param ∈ params, param.isFloatingPoint) ∨
    fp = 0 ∧ ∀ param ∈ params, ¬param.isFloatingPoint

/-- The first eight arguments are in the same registers on both sides. -/
theorem matches_iff (hvariadic : type.variadic = false) (gap : ℤ) (params : List SSAType)
    (gp fp : ℕ) (hcount : gp + fp ≤ 8) :
    List.Forall₂ (Matches 0 gap) (emitArgMoves variant type (gp + fp) gp fp params)
        (argStorageFrom variant type (gp + fp) gp fp 0 params) ↔
      gp + fp + params.length ≤ 8 ∨ gap = 0 ∧ Uniform gp fp params := by
  induction params generalizing gp fp with
  | nil => simp [emitArgMoves, argStorageFrom, hcount]
  | cons param params ih =>
    obtain hfull | hlt := hcount.eq_or_lt
    · have := @matches_stack_iff variant type hvariadic gap (param :: params)
        (gp + fp) gp fp gp fp hfull.ge
      rw [show 8 * (gp + fp - 8) = 0 by omega] at this
      rw [this, length_cons]
      have huniform : (∀ other ∈ param :: params,
          if other.isFloatingPoint then 8 ≤ fp else 8 ≤ gp) ↔ Uniform gp fp (param :: params) := by
        unfold Uniform
        constructor
        · intro h
          have hparam := h param mem_cons_self
          by_cases hfp : fp = 0
          · refine Or.inr ⟨hfp, fun other hother hfloat ↦ ?_⟩
            have := h other hother
            rw [if_pos hfloat] at this
            omega
          · have hgp : gp = 0 := by split_ifs at hparam <;> omega
            refine Or.inl ⟨hgp, fun other hother ↦ ?_⟩
            by_contra hfloat
            have := h other hother
            rw [if_neg hfloat] at this
            omega
        · rintro (⟨hgp, h⟩ | ⟨hfp, h⟩) other hother
          · rw [if_pos (h other hother)]
            omega
          · rw [if_neg (h other hother)]
            omega
      rw [huniform]
      constructor
      · rintro (h | h)
        · cases h
        · exact Or.inr h
      · rintro (h | h)
        · omega
        · exact Or.inr h
    · have hint : argRegsInt.length = 8 := rfl
      have hfp : argRegsFp.length = 8 := rfl
      have hnot :
          ¬(variant = .APPLE ∧ type.variadic ∧ gp + fp ≥ type.firstVariadicIndex) := by
        simp [hvariadic]
      rw [emitArgMoves, argStorageFrom, if_neg hnot, if_neg hnot, if_pos hlt, hint, hfp]
      by_cases hparam : param.isFloatingPoint
      · rw [if_pos hparam, if_pos ⟨hparam, by omega⟩, forall₂_cons, add_assoc,
          ih gp (fp + 1) (by omega), length_cons]
        simp [Matches, Uniform, hparam, add_assoc, add_comm, add_left_comm]
      · rw [if_neg hparam, if_neg (fun h ↦ hparam h.1), if_pos ⟨by simpa using hparam, by omega⟩,
          forall₂_cons, add_right_comm, ih (gp + 1) fp (by omega), length_cons]
        simp [Matches, Uniform, hparam, add_assoc, add_comm, add_left_comm]

end AAPCSCallingConv

/-! ## All conventions -/

/-- `ssa::CallingConv`; the target decides the variant on AArch64. -/
inductive CallingConv where
  | X86_64_SYS_V_ABI
  | X86_64_MS_ABI
  | AARCH64_AAPCS (variant : AAPCSCallingConv.Variant)
  deriving DecidableEq, Repr

def getCallingConvention : CallingConv → CallingConvention
  | .X86_64_SYS_V_ABI => SysVCallingConv.conv
  | .X86_64_MS_ABI => MSABICallingConv.conv
  | .AARCH64_AAPCS variant => AAPCSCallingConv.conv variant

/-- Do caller and callee count these parameters alike? On AArch64 they do when all are in registers,
or all are of one kind and the callee's frame has as much space for the saved registers as its
prologue stores. -/
def CountsAlike (callingConv : CallingConv) (params : List SSAType) (callee : Function) : Prop :=
  match callingConv with
  | .X86_64_SYS_V_ABI | .X86_64_MS_ABI => True
  | .AARCH64_AAPCS _ =>
    params.length ≤ 8 ∨
      (getModifiedVolatileRegs AAPCSCallingConv.volatileRegs callee).length =
          2 * (AAPCSCallingConv.storedRegs callee).length ∧
        ((∀ param ∈ params, param.isFloatingPoint) ∨ ∀ param ∈ params, ¬param.isFloatingPoint)

section

open SSA.Primitive (I64 F64)

private def mixedParams : List SSAType :=
  replicate 8 (I64 : SSAType) ++ [(F64 : SSAType)]

private def mixedCallee : Function :=
  lowerFunc (AAPCSCallingConv.conv .STANDARD) { params := mixedParams }

end

end Banjo.Target
