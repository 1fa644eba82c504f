import Banjo.Target.Wasm.BlockSemantics

/-!
# The code of instructions, prologues and branches

What the pieces of the code of a basic block do to the locals: an operand is pushed, the body does
the same whatever is in the locals of the dispatcher, a branch stores the values its arguments had
before any of them is stored, and a prologue copies the temporaries to the parameters.
-/

open List Option
open Function (update update_self update_of_ne)

namespace Banjo.Target.Wasm

open SSA (SSAType Primitive Comparison VirtualRegister BlockId BasicBlock BranchTarget)

variable {W : Type} {host : Host W} {ctx : Context} {data : FuncData} {func : SSA.Function}
  {params : ℕ}

/-! ## Setting locals -/

section SetLocals

variable {locals locals' : ℕ → WVal} {entries : List (ℕ × WVal)}

theorem setLocals_cons (entry : ℕ × WVal) :
    setLocals locals (entry :: entries)
      = setLocals (update locals entry.1 entry.2) entries := rfl

theorem setLocals_of_notMem {i : ℕ} (h : i ∉ entries.map Prod.fst) :
    setLocals locals entries i = locals i := by
  induction entries generalizing locals with
  | nil => rfl
  | cons entry entries ih =>
    rw [List.map_cons, List.mem_cons, not_or] at h
    rw [setLocals_cons, ih h.2, update_of_ne h.1]

variable {i : ℕ}

theorem setLocals_of_mem (hnodup : (entries.map Prod.fst).Nodup) {v : WVal}
    (h : (i, v) ∈ entries) : setLocals locals entries i = v := by
  induction entries generalizing locals with
  | nil => cases h
  | cons entry entries ih =>
    rw [map_cons, nodup_cons] at hnodup
    rw [setLocals_cons]
    obtain rfl | hrest := mem_cons.mp h
    · rw [setLocals_of_notMem hnodup.1, update_self]
    · exact ih hnodup.2 hrest

/-- Setting the same locals keeps an agreement. -/
theorem setLocals_congr (h : locals i = locals' i) :
    setLocals locals entries i = setLocals locals' entries i := by
  induction entries generalizing locals locals' with
  | nil => exact h
  | cons entry entries ih =>
    rw [setLocals_cons, setLocals_cons]
    refine ih ?_
    by_cases hi : i = entry.1
    · rw [hi, update_self, update_self]
    · rw [update_of_ne hi, update_of_ne hi, h]

theorem map_fst_zip {keys : List ℕ} {values : List WVal} (h : keys.length = values.length) :
    (keys.zip values).map Prod.fst = keys :=
  List.map_fst_zip h.le

end SetLocals

/-! ## Agreement -/

namespace Agree

variable {s t u : State W}

theorem refl (s : State W) : Agree data s s := ⟨fun _ _ ↦ rfl, rfl, rfl⟩

theorem symm (h : Agree data s t) : Agree data t s :=
  ⟨fun i hi ↦ (h.locals i hi).symm, h.stack.symm, h.world.symm⟩

theorem trans (h : Agree data s t) (h' : Agree data t u) : Agree data s u :=
  ⟨fun i hi ↦ (h.locals i hi).trans (h'.locals i hi), h.stack.trans h'.stack,
    h.world.trans h'.world⟩

variable {s' : State W}

/-- Plain instructions that leave the locals of the dispatcher alone do not see them. -/
theorem execPlain {instr : Instruction} (h : Agree data s t)
    (htidy : instr.opcode ∈ [WasmOpcode.LOCAL_GET, .LOCAL_SET, .LOCAL_TEE] →
      ∀ operand ∈ instr.operands, ¬data.Scratch operand.index)
    (hs : host.execPlain instr s = some s') :
    ∃ t', host.execPlain instr t = some t' ∧ Agree data s' t' := by
  obtain ⟨opcode, operands⟩ := instr
  obtain ⟨slocals, stack, world⟩ := s
  obtain ⟨tlocals, tstack, tworld⟩ := t
  obtain ⟨hlocals, hstack, hworld⟩ := h
  dsimp only at hlocals hstack hworld htidy
  subst hstack hworld
  have hupdate : ∀ (i : ℕ) (v : WVal) (j : ℕ), ¬data.Scratch j →
      update slocals i v j = update tlocals i v j := by
    intro i v j hj
    by_cases hji : j = i
    · rw [hji, update_self, update_self]
    · rw [update_of_ne hji, update_of_ne hji, hlocals j hj]
  unfold Host.execPlain at hs ⊢
  dsimp only at hs ⊢
  split at hs
  · rename_i i
    obtain rfl := some.inj hs
    refine ⟨_, rfl, hlocals, ?_, rfl⟩
    exact congrArg (· :: stack)
      (hlocals _ (htidy (by simp) i mem_cons_self))
  · match stack, hs with
    | v :: stack, hs =>
      obtain rfl := some.inj hs
      exact ⟨_, rfl, hupdate _ v, rfl, rfl⟩
  · match stack, hs with
    | v :: stack, hs =>
      obtain rfl := some.inj hs
      exact ⟨_, rfl, hupdate _ v, rfl, rfl⟩
  · rw [map_eq_some_iff] at hs
    obtain ⟨⟨stack', world'⟩, hop, rfl⟩ := hs
    rw [hop]
    exact ⟨_, rfl, hlocals, rfl, rfl⟩

theorem execAll {code : List Instruction} (h : Agree data s t)
    (htidy : Tidy data code) (hs : host.execAll code s = some s') :
    ∃ t', host.execAll code t = some t' ∧ Agree data s' t' := by
  induction code generalizing s t with
  | nil =>
    obtain rfl := some.inj hs
    exact ⟨t, rfl, h⟩
  | cons instr code ih =>
    rw [Host.execAll_cons, bind_eq_some_iff] at hs
    obtain ⟨next, hfirst, hrest⟩ := hs
    obtain ⟨next', hfirst', hnext⟩ := h.execPlain (htidy instr mem_cons_self).2 hfirst
    obtain ⟨t', hrest', ht'⟩ := ih hnext (fun i hi ↦ htidy i (mem_cons_of_mem _ hi)) hrest
    exact ⟨t', by rw [Host.execAll_cons, hfirst']; exact hrest', ht'⟩

end Agree

/-! ## Tidy code -/

namespace Tidy

theorem nil : Tidy data [] := fun _ h ↦ absurd h not_mem_nil

theorem append {first second : List Instruction} (h : Tidy data first) (h' : Tidy data second) :
    Tidy data (first ++ second) := by
  intro instr hinstr
  obtain hfirst | hsecond := mem_append.mp hinstr
  · exact h instr hfirst
  · exact h' instr hsecond

/-- An instruction that has nothing to do with locals. -/
theorem single {instr : Instruction} (hplain : instr.opcode.isPlain = true)
    (hlocal : instr.opcode ∉ [WasmOpcode.LOCAL_GET, .LOCAL_SET, .LOCAL_TEE]) :
    Tidy data [instr] := by
  intro i hi
  obtain rfl := mem_singleton.mp hi
  exact ⟨hplain, fun h ↦ absurd h hlocal⟩

/-- An instruction on a local that is not the dispatcher's. -/
theorem onLocal {opcode : WasmOpcode} {i : ℕ} (hplain : opcode.isPlain = true)
    (hfits : i < 2 ^ 64) (hi : ¬data.Scratch i) : Tidy data [⟨opcode, [imm i]⟩] := by
  intro instr hinstr
  obtain rfl := mem_singleton.mp hinstr
  refine ⟨hplain, fun _ operand hoperand ↦ ?_⟩
  rw [mem_singleton.mp hoperand]
  change ¬data.Scratch (BitVec.ofNat 64 i).toNat
  rwa [BitVec.toNat_ofNat, Nat.mod_eq_of_lt hfits]

theorem plain {code : List Instruction} (h : Tidy data code) :
    ∀ instr ∈ code, instr.opcode.isPlain = true := fun instr hinstr ↦ (h instr hinstr).1

end Tidy

/-! ## The code of instructions -/

section Code

variable (hsep : data.Separate func params) (hfits : params + data.locals.length + 4 < 2 ^ 64)
include hsep hfits

theorem localOf_lt (reg : VirtualRegister) : data.localOf reg < 2 ^ 64 :=
  (hsep.bounds _ (Or.inr (Or.inr (Or.inr ⟨reg, rfl⟩)))).trans hfits

theorem stackPointer_lt : data.stackPointerLocal < 2 ^ 64 :=
  (hsep.bounds _ (Or.inr (Or.inl rfl))).trans hfits

theorem returnValue_lt : data.returnValueLocal < 2 ^ 64 :=
  (hsep.bounds _ (Or.inr (Or.inr (Or.inl rfl)))).trans hfits

theorem scratch_lt {i : ℕ} (h : data.Scratch i) : i < 2 ^ 64 :=
  (hsep.bounds i (Or.inl h)).trans hfits

theorem pushOperand_tidy (operand : SSA.Operand) : Tidy data (pushOperand ctx data operand) := by
  unfold pushOperand
  split
  · split
    · refine (Tidy.onLocal rfl (stackPointer_lt hsep hfits) hsep.stackPointerClean).append ?_
      exact (Tidy.single rfl (by simp)).append (Tidy.single rfl (by simp))
    · exact Tidy.onLocal rfl (localOf_lt hsep hfits _) (hsep.localClean _)
  · split_ifs <;> exact Tidy.single rfl (by simp)
  · split_ifs <;> exact Tidy.single rfl (by simp)
  · exact Tidy.single rfl (by simp)
  · exact Tidy.single rfl (by simp)
  · exact Tidy.nil

variable (instr : SSA.Instruction)

theorem setDest_tidy : Tidy data (setDest data instr) :=
  Tidy.onLocal rfl (localOf_lt hsep hfits _) (hsep.localClean _)

theorem lowerNumeric_tidy {is64Bit : SSAType → Bool} {m32 m64 : WasmOpcode}
    (h32 : Tidy data [⟨m32, []⟩]) (h64 : Tidy data [⟨m64, []⟩]) (instr : SSA.Instruction) :
    Tidy data (lowerNumeric ctx data is64Bit m32 m64 instr) := by
  refine Tidy.append (Tidy.append (Tidy.append (pushOperand_tidy hsep hfits _)
    (pushOperand_tidy hsep hfits _)) ?_) (setDest_tidy hsep hfits instr)
  split_ifs
  · exact h64
  · exact h32

theorem lowerConversion_tidy {ops : List Instruction} (hops : Tidy data ops)
    (instr : SSA.Instruction) : Tidy data (lowerConversion ctx data ops instr) :=
  ((pushOperand_tidy hsep hfits _).append hops).append (setDest_tidy hsep hfits instr)

omit hsep hfits in
theorem lowerComparison_tidy (comparison : Comparison) (is64Bit : Bool) :
    Tidy data [⟨lowerComparison comparison is64Bit, []⟩] := by
  refine Tidy.single ?_ ?_ <;> cases comparison <;> cases is64Bit <;> decide

omit hsep hfits in
theorem convertOp_tidy {size : ℕ} {isDouble : Bool} {narrow32 narrow64 wide32 wide64 : WasmOpcode}
    (h : ∀ opcode ∈ [narrow32, narrow64, wide32, wide64], Tidy data [⟨opcode, []⟩]) :
    Tidy data [convertOp size isDouble narrow32 narrow64 wide32 wide64] := by
  unfold convertOp
  split_ifs <;> exact h _ (by simp)

theorem lowerSelect_tidy : Tidy data (lowerSelect ctx data instr) := by
  unfold lowerSelect
  dsimp only
  split
  · refine Tidy.append (Tidy.append (Tidy.append (Tidy.append (Tidy.append ?_ ?_) ?_) ?_) ?_)
      (setDest_tidy hsep hfits instr)
    iterate 4 exact pushOperand_tidy hsep hfits _
    exact (lowerComparison_tidy _ _).append (Tidy.single rfl (by decide))
  · exact Tidy.nil

omit hsep hfits in
theorem truncateOps_tidy : Tidy data (truncateOps ctx instr) := by
  have hmask : ∀ mask, Tidy data [⟨.I32_CONST, [imm mask]⟩, ⟨.I32_AND, []⟩] := fun mask ↦
    (Tidy.single rfl (by simp)).append (Tidy.single rfl (by simp))
  refine Tidy.append ?_ ?_
  · split_ifs
    · exact Tidy.single rfl (by decide)
    · exact Tidy.nil
  · split_ifs
    · exact hmask _
    · exact hmask _
    · exact Tidy.nil

/-- The code of an instruction keeps to the locals of registers. -/
theorem lowerInstr_tidy {instr : SSA.Instruction} (hmemory : Tidy data (ctx.lowerMemory instr))
    (hparam : instr.opcode = .LOADARG → ∀ index,
      (instr.getOperand 1).value = .intImmediate index →
        (index.toBits.setWidth 32).toNat < params) :
    Tidy data (lowerInstr ctx data instr) := by
  have hsingle : ∀ {opcode : WasmOpcode}, opcode.isPlain = true →
      opcode ∉ [WasmOpcode.LOCAL_GET, .LOCAL_SET, .LOCAL_TEE] → Tidy data [⟨opcode, []⟩] :=
    fun hplain hlocal ↦ Tidy.single hplain hlocal
  have hconvert : ∀ {size isDouble} {a b c d : WasmOpcode},
      (∀ opcode ∈ [a, b, c, d], opcode.isPlain = true ∧
        opcode ∉ [WasmOpcode.LOCAL_GET, .LOCAL_SET, .LOCAL_TEE]) →
      Tidy data [convertOp size isDouble a b c d] :=
    fun h ↦ convertOp_tidy fun opcode ho ↦ Tidy.single (h opcode ho).1 (h opcode ho).2
  unfold lowerInstr
  dsimp only
  split
  · unfold lowerLoadarg
    split
    · rename_i hop _ index hindex
      have hlt := hparam hop index hindex
      exact Tidy.append (Tidy.onLocal rfl (by omega) (hsep.paramsClean _ hlt))
        (setDest_tidy hsep hfits instr)
    · exact Tidy.nil
  iterate 17
    exact lowerNumeric_tidy hsep hfits (hsingle rfl (by decide)) (hsingle rfl (by decide)) instr
  · exact lowerSelect_tidy hsep hfits instr
  iterate 2
    refine lowerConversion_tidy hsep hfits ?_ instr
    split_ifs
    · exact hsingle rfl (by decide)
    · exact Tidy.nil
  · exact lowerConversion_tidy hsep hfits (truncateOps_tidy instr) instr
  iterate 2 exact lowerConversion_tidy hsep hfits (hsingle rfl (by decide)) instr
  iterate 4 exact lowerConversion_tidy hsep hfits (hconvert (by decide)) instr
  iterate 5 exact hmemory
  all_goals exact Tidy.nil

omit hsep hfits in
/-- The body of a block keeps to the locals of registers. -/
theorem bodyCode_tidy {block : BasicBlock}
    (h : ∀ instr ∈ block.instrs.dropLast, Tidy data (lowerInstr ctx data instr)) :
    Tidy data (bodyCode ctx data func block) := by
  intro instr hinstr
  obtain ⟨ssaInstr, hmem, hcode⟩ := mem_flatMap.mp hinstr
  exact h ssaInstr (mem_of_mem_filter hmem) instr hcode

/-! ## Operands -/

variable {s : State W}

variable {operand : SSA.Operand} {v : WVal}

/-- Pushing an operand pushes its value. -/
theorem pushOperand_spec (h : operandValue host ctx data s operand = some v) :
    host.execAll (pushOperand ctx data operand) s = some (s.push v) := by
  have hget : ∀ {i : ℕ}, i < 2 ^ 64 →
      host.execAll [⟨.LOCAL_GET, [imm i]⟩] s = some (s.push (s.locals i)) := by
    intro i hi
    have hindex : s.locals (imm i).index = s.locals i := by
      change s.locals (BitVec.ofNat 64 i).toNat = s.locals i
      rw [BitVec.toNat_ofNat, Nat.mod_eq_of_lt hi]
    rw [← hindex]
    rfl
  unfold operandValue at h
  unfold pushOperand
  split
  · rename_i reg hreg
    simp only [hreg] at h
    split
    · rename_i slot hslot
      simp only [hslot] at h
      split at h
      · rename_i base hbase
        obtain rfl := some.inj h
        rw [show ∀ a b c : Instruction, [a, b, c] = [a] ++ [b, c] from fun _ _ _ ↦ rfl,
          Host.execAll_append, hget (stackPointer_lt hsep hfits), hbase]
        rfl
      · cases h
    · rename_i hslot
      simp only [hslot, some.injEq] at h
      subst h
      exact hget (localOf_lt hsep hfits reg)
  · rename_i immediate himmediate
    simp only [himmediate, some.injEq] at h
    subst h
    by_cases hwide : is64BitInt operand.type = true
    · rw [if_pos hwide, if_pos hwide]
      rfl
    · rw [if_neg hwide, if_neg hwide]
      rfl
  · rename_i immediate himmediate
    simp only [himmediate, some.injEq, isF64, decide_eq_true_eq] at h
    subst h
    by_cases hwide : operand.type = (Primitive.F64 : SSAType)
    · rw [if_pos hwide, if_pos hwide]
      rfl
    · rw [if_neg hwide, if_neg hwide]
      rfl
  · rename_i global hglobal
    simp only [hglobal, some.injEq] at h
    subst h
    rfl
  · rename_i f hf
    simp only [hf, some.injEq] at h
    subst h
    rfl
  · rename_i hregister hint hfp hglobal hfunc
    split at h
    · exact absurd ‹_› (hregister _)
    · exact absurd ‹_› (hint _)
    · exact absurd ‹_› (hfp _)
    · exact absurd ‹_› (hglobal _)
    · exact absurd ‹_› (hfunc _)
    · cases h

variable {t : State W}

omit hfits in
/-- The value of an operand does not depend on the locals of the dispatcher. -/
theorem operandValue_congr
    (h : ∀ i, ¬data.Scratch i → s.locals i = t.locals i) (operand : SSA.Operand) :
    operandValue host ctx data s operand = operandValue host ctx data t operand := by
  unfold operandValue
  split
  · rw [h _ hsep.stackPointerClean, h _ (hsep.localClean _)]
  all_goals rfl

omit hfits in
theorem argValues_congr (h : ∀ i, ¬data.Scratch i → s.locals i = t.locals i)
    (target : BranchTarget) :
    argValues host ctx data s target = argValues host ctx data t target := by
  unfold argValues
  congr 1
  exact funext (operandValue_congr hsep h)

/-- What is on the operand stack does not change what an operand is. -/
theorem execAll_push
    (hlocals : t.locals = s.locals) (h : operandValue host ctx data s operand = some v) :
    host.execAll (pushOperand ctx data operand) t = some (t.push v) := by
  refine pushOperand_spec hsep hfits ?_
  rw [← h]
  exact operandValue_congr hsep (fun i _ ↦ congrFun hlocals i) operand

/-- Setting the local of a register. -/
theorem execAll_setDest {instr : SSA.Instruction} {reg : VirtualRegister}
    (hdest : instr.dest = some reg) (v : WVal) :
    host.execAll (setDest data instr) (s.push v) = some (s.setLocal (data.localOf reg) v) := by
  have hindex : (BitVec.ofNat 64 (data.localOf reg)).toNat = data.localOf reg := by
    rw [BitVec.toNat_ofNat, Nat.mod_eq_of_lt (localOf_lt hsep hfits reg)]
  rw [setDest, hdest]
  change some (((s.push v).setLocal (BitVec.ofNat 64
    (data.localOf reg)).toNat v).withStack s.stack) = _
  rw [hindex]
  rfl

/-! ## Arguments and parameters -/

/-- Storing values, each computed from the locals before any of them is stored. -/
theorem storeArgs_spec {pairs : List (SSA.Operand × VirtualRegister)}
    {values : List WVal}
    (htmps : ∀ pair ∈ pairs, data.tmpLocalOf pair.2 ∈ data.blockArgTmpLocals.map Prod.snd)
    (hvalues : pairs.mapM (fun pair ↦ operandValue host ctx data s pair.1) = some values) :
    host.execAll (pairs.flatMap fun (arg, reg) ↦
        pushOperand ctx data arg ++ [⟨.LOCAL_SET, [imm (data.tmpLocalOf reg)]⟩]) s
      = some { s with
          locals := setLocals s.locals ((pairs.map fun pair ↦
            data.tmpLocalOf pair.2).zip values) } := by
  induction pairs generalizing s values with
  | nil =>
    obtain rfl := some.inj hvalues
    rfl
  | cons pair pairs ih =>
    obtain ⟨arg, reg⟩ := pair
    rw [mapM_cons] at hvalues
    obtain ⟨v, hv, hvalues⟩ := bind_eq_some_iff.mp hvalues
    obtain ⟨vs, hvs, heq⟩ := bind_eq_some_iff.mp hvalues
    obtain rfl := some.inj heq
    have hscratch : data.Scratch (data.tmpLocalOf reg) := Or.inr (htmps _ mem_cons_self)
    have hindex : (imm (data.tmpLocalOf reg)).index = data.tmpLocalOf reg := by
      change (BitVec.ofNat 64 _).toNat = _
      rw [BitVec.toNat_ofNat, Nat.mod_eq_of_lt (scratch_lt hsep hfits hscratch)]
    have hset : host.execAll [⟨.LOCAL_SET, [imm (data.tmpLocalOf reg)]⟩] (s.push v)
        = some (s.setLocal (data.tmpLocalOf reg) v) := by
      change some ((s.push v).setLocal (imm (data.tmpLocalOf reg)).index v |>.withStack s.stack) = _
      rw [hindex]
      rfl
    -- The temporary just stored is not among the locals the other arguments are read from.
    have hrest : pairs.mapM (fun pair ↦ operandValue host ctx data
        (s.setLocal (data.tmpLocalOf reg) v) pair.1) = some vs := by
      rw [← hvs]
      congr 1
      funext pair
      refine operandValue_congr hsep (fun i hi ↦ ?_) pair.1
      have hne : i ≠ data.tmpLocalOf reg := fun heq ↦ hi (heq ▸ hscratch)
      exact update_of_ne hne _ _
    rw [flatMap_cons, Host.execAll_append, Host.execAll_append, pushOperand_spec hsep hfits hv,
      bind_some, hset, bind_some, ih (fun p hp ↦ htmps p (mem_cons_of_mem _ hp)) hrest]
    rfl

/-- A prologue copies the temporaries to the parameters. -/
theorem emitBlockPrologue_spec {regs : List VirtualRegister}
    (htmps : ∀ reg ∈ regs, data.tmpLocalOf reg ∈ data.blockArgTmpLocals.map Prod.snd) :
    host.execAll (regs.flatMap fun reg ↦
        [⟨.LOCAL_GET, [imm (data.tmpLocalOf reg)]⟩, ⟨.LOCAL_SET, [imm (data.localOf reg)]⟩]) s
      = some { s with
          locals := setLocals s.locals ((regs.map data.localOf).zip
            (regs.map fun reg ↦ s.locals (data.tmpLocalOf reg))) } := by
  induction regs generalizing s with
  | nil => rfl
  | cons reg regs ih =>
    have hscratch : data.Scratch (data.tmpLocalOf reg) := Or.inr (htmps _ mem_cons_self)
    have hcopy : host.execAll [⟨.LOCAL_GET, [imm (data.tmpLocalOf reg)]⟩,
          ⟨.LOCAL_SET, [imm (data.localOf reg)]⟩] s
        = some (s.setLocal (data.localOf reg) (s.locals (data.tmpLocalOf reg))) := by
      change some (s.setLocal (BitVec.ofNat 64 (data.localOf reg)).toNat
        (s.locals (BitVec.ofNat 64 (data.tmpLocalOf reg)).toNat)) = _
      rw [BitVec.toNat_ofNat, BitVec.toNat_ofNat, Nat.mod_eq_of_lt (localOf_lt hsep hfits reg),
        Nat.mod_eq_of_lt (scratch_lt hsep hfits hscratch)]
    rw [flatMap_cons, Host.execAll_append, hcopy, bind_some,
      ih fun r hr ↦ htmps r (mem_cons_of_mem _ hr)]
    -- The parameter just set is not one of the temporaries the others are copied from.
    have hsame : (regs.map fun r ↦ update s.locals (data.localOf reg)
          (s.locals (data.tmpLocalOf reg)) (data.tmpLocalOf r))
        = regs.map fun r ↦ s.locals (data.tmpLocalOf r) := by
      refine map_congr_left fun r hr ↦ update_of_ne (fun heq ↦ ?_) _ _
      exact hsep.localClean reg (heq ▸ Or.inr (htmps r (mem_cons_of_mem _ hr)))
    change some { s with locals := setLocals (update s.locals (data.localOf reg)
        (s.locals (data.tmpLocalOf reg))) ((regs.map data.localOf).zip
          (regs.map fun r ↦ update s.locals (data.localOf reg)
            (s.locals (data.tmpLocalOf reg)) (data.tmpLocalOf r))) } = _
    rw [hsame]
    rfl

end Code

/-! ## Comparisons -/

/-- The instruction a comparison is lowered to compares the same way. -/
theorem lowerComparison_comparison (comparison : Comparison) (is64Bit : Bool) :
    (lowerComparison comparison is64Bit).comparison
      = some (if isFloatComparison comparison then if is64Bit then .F64 else .F32
          else if is64Bit then .I64 else .I32, relation comparison) := by
  cases comparison <;> cases is64Bit <;> rfl

variable {s : State W}

/-- An instruction without operands does not see the locals. -/
theorem execPlain_operate {opcode : WasmOpcode} {stack : List WVal} {world : W}
    (h : host.operate ⟨opcode, []⟩ s.stack s.world = some (stack, world)) :
    host.execPlain ⟨opcode, []⟩ s = some ⟨s.locals, stack, world⟩ := by
  unfold Host.execPlain
  split
  · cases ‹[] = [_]›
  · cases ‹[] = [_]›
  · cases ‹[] = [_]›
  · rw [h]
    rfl

/-- Comparing the two operands on the stack. -/
theorem execPlain_comparison {a b : WVal} {comparison : Comparison}
    {is64Bit holds : Bool} {type : SSAType}
    (htype : (if isFloatComparison comparison then if is64Bit then WasmType.F64 else .F32
      else if is64Bit then .I64 else .I32) = comparedType comparison type)
    (hcompare : compareValues comparison type a b = some holds) :
    host.execPlain ⟨lowerComparison comparison is64Bit, []⟩ ((s.push a).push b)
      = some (s.push (.i32 (if holds then 1 else 0))) := by
  have hspec := lowerComparison_comparison comparison is64Bit
  rw [htype] at hspec
  rw [compareValues] at hcompare
  apply execPlain_operate
  generalize lowerComparison comparison is64Bit = opcode at hspec
  cases opcode <;> first | cases hspec | skip
  all_goals
    simp only [Host.operate, hspec, State.push, hcompare, map_some]

end Banjo.Target.Wasm
