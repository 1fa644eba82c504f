import Banjo.Target.Wasm.BlockCode
import Banjo.Target.Wasm.NarrowIntegers

/-!
# The lowering of integers of 8 and 16 bits

As long as every instruction finds the upper bits of the locals as it takes them to be, the lowered
code computes the same numbers and takes the same branches as the SSA function. Nothing in the
lowering makes the upper bits what they have to be: a sum that overflows leaves its carry there.
-/

open List Option

namespace Banjo.Target.Wasm

open SSA (SSAType Primitive Comparison VirtualRegister BlockId BasicBlock BranchTarget)
open NarrowBits Relation

variable {W : Type} {host : Host W} {conv : IntToFloat} {ctx : Context} {data : FuncData}
  {func : SSA.Function} {params : ℕ} {w : ℕ} {type : SSAType}

/-! ## Widths -/

theorem intWidth_cases (h : intWidth type = some w) :
    (w = 8 ∨ w = 16 ∨ w = 32 ∨ w = 64) ∧ (is64BitInt type = true ↔ w = 64) := by
  obtain ⟨kind, arrayLength⟩ := type
  unfold intWidth at h
  split_ifs at h with hlength
  obtain rfl : arrayLength = 1 := hlength
  split at h <;> rename_i hkind <;> cases h
  all_goals
    obtain rfl : kind = _ := hkind
    exact ⟨by decide, by decide⟩

theorem narrowWidth_eq_some (h : narrowWidth type = some w) :
    intWidth type = some w ∧ (w = 8 ∨ w = 16) ∧ is64BitInt type = false := by
  obtain ⟨hwidth, hle⟩ := filter_eq_some_iff.mp h
  obtain ⟨hcases, hwide⟩ := intWidth_cases hwidth
  have hle' : w ≤ 16 := by simpa using hle
  refine ⟨hwidth, by omega, ?_⟩
  rw [Bool.eq_false_iff]
  exact fun hwide' ↦ absurd (hwide.mp hwide') (by omega)

/-! ## Operations -/

/-- A count is the same modulo 32. -/
theorem count_eq {y : BitVec 32} (hw : w = 8 ∨ w = 16) (h : (y.setWidth w).toNat < 32) :
    y.toNat % 32 = (y.setWidth w).toNat := by
  rw [BitVec.toNat_setWidth] at h ⊢
  obtain rfl | rfl := hw <;> omega

/-- A sign extension is not the least number of 32 bits. -/
theorem ne_intMin {x : BitVec 32} (hw : w = 8 ∨ w = 16) (h : SignExtended w x) :
    x ≠ BitVec.intMin 32 := by
  rintro rfl
  obtain rfl | rfl := hw <;> revert h <;> decide

/-- The opcode of an operation on 32 bits. -/
def binaryOpcode : SSA.Opcode → WasmOpcode
  | .ADD => .I32_ADD
  | .SUB => .I32_SUB
  | .MUL => .I32_MUL
  | .SDIV => .I32_DIV_S
  | .SREM => .I32_REM_S
  | .UDIV => .I32_DIV_U
  | .UREM => .I32_REM_U
  | .AND => .I32_AND
  | .OR => .I32_OR
  | .XOR => .I32_XOR
  | .LSHL => .I32_SHL
  | .LSHR => .I32_SHR_U
  | _ => .I32_SHR_S

/-- An operation that is clean computes the low bits. -/
theorem i32Binop_represents {opcode : SSA.Opcode} {x y : BitVec 32} {r : BitVec w}
    (hw : w = 8 ∨ w = 16) (hadd : opcode ≠ .ADD) (hclean : CleanBinary opcode w x y)
    (h : evalBinary opcode (x.setWidth w) (y.setWidth w) = some r) :
    ∃ z, i32Binop (binaryOpcode opcode) x y = some z ∧ z.setWidth w = r := by
  have hle : w ≤ 32 := by omega
  have hzero : ∀ {z : BitVec 32}, z.setWidth w ≠ 0 → z ≠ 0 := by
    rintro z hz rfl
    exact hz (BitVec.setWidth_zero w 32)
  unfold evalBinary at h
  split at h
  · exact absurd rfl hadd
  · obtain rfl := some.inj h
    exact ⟨_, rfl, setWidth_sub hle x y⟩
  · obtain rfl := some.inj h
    exact ⟨_, rfl, BitVec.setWidth_mul x y hle⟩
  · obtain ⟨hx, hy⟩ := hclean
    split_ifs at h with hdiv
    obtain rfl := some.inj h
    refine ⟨_, if_neg ?_, setWidth_sdiv hle hx hy⟩
    exact not_or.mpr ⟨hzero hdiv, fun hmin ↦ ne_intMin hw hx hmin.1⟩
  · obtain ⟨hx, hy⟩ := hclean
    split_ifs at h with hdiv
    obtain rfl := some.inj h
    exact ⟨_, if_neg (hzero hdiv), setWidth_srem hle hx hy⟩
  · obtain ⟨hx, hy⟩ := hclean
    split_ifs at h with hdiv
    obtain rfl := some.inj h
    exact ⟨_, if_neg (hzero hdiv), setWidth_udiv hx hy⟩
  · obtain ⟨hx, hy⟩ := hclean
    split_ifs at h with hdiv
    obtain rfl := some.inj h
    exact ⟨_, if_neg (hzero hdiv), setWidth_umod hx hy⟩
  · obtain rfl := some.inj h
    exact ⟨_, rfl, BitVec.setWidth_and⟩
  · obtain rfl := some.inj h
    exact ⟨_, rfl, BitVec.setWidth_or⟩
  · obtain rfl := some.inj h
    exact ⟨_, rfl, BitVec.setWidth_xor⟩
  · obtain rfl := some.inj h
    refine ⟨_, rfl, ?_⟩
    rw [count_eq hw hclean, BitVec.setWidth_shiftLeft_of_le hle]
  · obtain ⟨hx, hcount⟩ := hclean
    obtain rfl := some.inj h
    refine ⟨_, rfl, ?_⟩
    rw [count_eq hw hcount, setWidth_ushiftRight hx]
  · obtain ⟨hx, hcount⟩ := hclean
    obtain rfl := some.inj h
    refine ⟨_, rfl, ?_⟩
    rw [count_eq hw hcount, setWidth_sshiftRight hle hx]
  · cases h

/-- A relation depends on equality and on the order in both directions. -/
theorem Rel.int_congr {n : ℕ} {rel : Rel} {signed : Bool} {x y : BitVec n} {a b : BitVec w}
    (heq : a = b ↔ x = y)
    (hlt : if signed then a.toInt < b.toInt ↔ x.toInt < y.toInt
      else a.toNat < b.toNat ↔ x.toNat < y.toNat)
    (hgt : if signed then b.toInt < a.toInt ↔ y.toInt < x.toInt
      else b.toNat < a.toNat ↔ y.toNat < x.toNat) :
    rel.int signed x y = rel.int signed a b := by
  rw [Bool.eq_iff_iff]
  cases signed <;> cases rel <;>
    simp only [Rel.int, Bool.false_eq_true, if_false, if_true, decide_eq_true_eq, ne_eq,
      BitVec.slt_iff_toInt_lt, BitVec.sle_iff_toInt_le, BitVec.ult_iff_toNat_lt,
      BitVec.ule_iff_toNat_le] at hlt hgt ⊢ <;>
    first
      | exact heq.symm
      | exact not_congr heq.symm
      | exact hlt.symm
      | exact hgt.symm
      | (rw [← not_lt, ← not_lt]; exact not_congr hlt.symm)
      | (rw [← not_lt, ← not_lt]; exact not_congr hgt.symm)

variable {x : BitVec 32}

variable {y : BitVec 32}

/-- A comparison that is clean compares the low bits. -/
theorem compareValues_represents {comparison : Comparison} {holds : Bool}
    (htype : narrowWidth type = some w) (hclean : CleanComparison comparison w x y)
    (h : evalComparison comparison (x.setWidth w) (y.setWidth w) = some holds) :
    isFloatComparison comparison = false ∧
      compareValues comparison type (.i32 x) (.i32 y) = some holds := by
  obtain ⟨-, hw, hwide⟩ := narrowWidth_eq_some htype
  have hle : w ≤ 32 := by omega
  unfold evalComparison at h
  split_ifs at h with hfloat
  obtain rfl := some.inj h
  rw [Bool.not_eq_true] at hfloat
  refine ⟨hfloat, ?_⟩
  have hcompared : comparedType comparison type = .I32 := by
    rw [comparedType, hfloat, hwide]
    rfl
  rw [compareValues, hcompared]
  change some _ = some _
  congr 1
  unfold CleanComparison at hclean
  generalize relation comparison = rel at hclean ⊢
  obtain ⟨rel, signed⟩ := rel
  cases signed with
  | true =>
    obtain ⟨hx, hy⟩ := hclean
    refine Rel.int_congr (hx.eq_iff hy) ?_ ?_
    · rw [if_pos rfl, ← hx, ← hy]
    · rw [if_pos rfl, ← hx, ← hy]
  | false =>
    obtain ⟨hx, hy⟩ | ⟨hx, hy⟩ := hclean
    · refine Rel.int_congr (hx.eq_iff hy) ?_ ?_
      · rw [if_neg Bool.false_ne_true, hx.toNat_setWidth, hy.toNat_setWidth]
      · rw [if_neg Bool.false_ne_true, hx.toNat_setWidth, hy.toNat_setWidth]
    · refine Rel.int_congr (hx.eq_iff hy) ?_ ?_
      · rw [if_neg Bool.false_ne_true]
        exact hx.toNat_lt_iff hle hy
      · rw [if_neg Bool.false_ne_true]
        exact hy.toNat_lt_iff hle hx

/-! ## The numeric instructions of the host -/

variable {m : WasmOpcode} {stack : List WVal} {world : W}

theorem operate_binop (h : isBinop m = true) :
    (numericHost host conv).operate ⟨m, []⟩ (.i32 y :: .i32 x :: stack) world
      = (i32Binop m x y).map fun r ↦ (.i32 r :: stack, world) := by
  cases m <;> first | rfl | cases h

theorem operate_conversion (h : isConversion m = true) :
    (numericHost host conv).operate ⟨m, []⟩ (.i32 x :: stack) world
      = (i32Conversion conv m x).map fun r ↦ (r :: stack, world) := by
  cases m <;> first | rfl | cases h

theorem isBinop_binaryOpcode {opcode : SSA.Opcode} (h : opcode ≠ .ADD) :
    isBinop (binaryOpcode opcode) = true := by
  cases opcode <;> first | exact absurd rfl h | rfl

/-! ## Operands -/

section Code

variable {env : SEnv} {s : State W} {instr : SSA.Instruction}

variable {operand : SSA.Operand}

/-- The value of an operand is represented. -/
theorem operandValue_represents {v : SVal} (hholds : Holds data func env s)
    (hused : ∀ reg, operand.value = .register reg → Used func reg)
    (h : env.value operand = some v) :
    ∃ x, operandValue host ctx data s operand = some x ∧ Represents v x := by
  unfold SEnv.value at h
  unfold operandValue
  split at h
  · rename_i reg hreg
    obtain ⟨hslot, -, hrep⟩ := hholds reg v h (hused reg hreg)
    simp only [hreg, hslot]
    exact ⟨_, rfl, hrep⟩
  · rename_i immediate himmediate
    obtain ⟨w, hw, rfl⟩ := map_eq_some_iff.mp h
    obtain ⟨hcases, hwide⟩ := intWidth_cases hw
    simp only [himmediate]
    refine ⟨_, rfl, ?_⟩
    split_ifs with h64
    · obtain rfl := hwide.mp h64
      exact ⟨rfl, rfl⟩
    · have hle : w ≤ 32 := by
        have := mt hwide.mpr h64
        omega
      exact ⟨hle, BitVec.setWidth_setWidth_of_le _ hle⟩
  · cases h

variable {a : BitVec w}

theorem value_of_bits (h : env.bits w operand = some a) : env.value operand = some (.int w a) := by
  unfold SEnv.bits at h
  split at h
  · rename_i w' bits hvalue
    split_ifs at h with heq
    subst heq
    rw [BitVec.setWidth_eq] at h
    obtain rfl := some.inj h
    exact hvalue
  · cases h

/-- The local of a narrow operand. -/
theorem bits_represents (hw : w < 64) (hholds : Holds data func env s)
    (hused : ∀ reg, operand.value = .register reg → Used func reg)
    (h : env.bits w operand = some a) :
    ∃ x : BitVec 32, operandValue host ctx data s operand = some (.i32 x) ∧ x.setWidth w = a := by
  obtain ⟨x, hx, hrep⟩ : ∃ x, operandValue host ctx data s operand = some x ∧
      Represents (.int w a) x := operandValue_represents hholds hused (value_of_bits h)
  match x, hrep with
  | .i32 x, hrep => exact ⟨x, hx, hrep.2⟩
  | .i64 x, hrep => exact absurd hrep.1 (by omega)

theorem used_of_getOperand (hmem : instr ∈ func.instrs) (i : ℕ) (reg : VirtualRegister)
    (h : (instr.getOperand i).value = .register reg) : Used func reg :=
  ⟨instr, hmem, SSA.Instruction.mem_uses_of_getOperand h⟩

variable (hsep : data.Separate func params) (hfits : params + data.locals.length + 4 < 2 ^ 64)
include hsep hfits

/-! ## Instructions -/

variable {reg : VirtualRegister}

variable {b r : WVal}

/-- An operation on two operands. -/
theorem execAll_numeric {m32 m64 : WasmOpcode} {is64Bit : SSAType → Bool} {a : WVal}
    (hdest : instr.dest = some reg) (hnarrow : is64Bit (instr.getOperand 0).type = false)
    (ha : operandValue host ctx data s (instr.getOperand 0) = some a)
    (hb : operandValue host ctx data s (instr.getOperand 1) = some b)
    (hop : host.operate ⟨m32, []⟩ (b :: a :: s.stack) s.world = some (r :: s.stack, s.world)) :
    host.execAll (lowerNumeric ctx data is64Bit m32 m64 instr) s
      = some (s.setLocal (data.localOf reg) r) := by
  have hexec : host.execPlain ⟨m32, []⟩ ((s.push a).push b) = some (s.push r) :=
    execPlain_operate hop
  have hone : host.execAll [⟨m32, []⟩] ((s.push a).push b) = some (s.push r) := by
    rw [Host.execAll_cons, hexec]
    rfl
  rw [lowerNumeric, hnarrow, if_neg Bool.false_ne_true, Host.execAll_append, Host.execAll_append,
    Host.execAll_append, execAll_push hsep hfits rfl ha, bind_some,
    execAll_push hsep hfits (t := s.push a) rfl hb, bind_some, hone, bind_some]
  exact execAll_setDest hsep hfits hdest r

/-- A conversion of one operand. -/
theorem execAll_conversion {ops : List Instruction} {a : WVal} (hdest : instr.dest = some reg)
    (ha : operandValue host ctx data s (instr.getOperand 0) = some a)
    (hops : host.execAll ops (s.push a) = some (s.push r)) :
    host.execAll (lowerConversion ctx data ops instr) s
      = some (s.setLocal (data.localOf reg) r) := by
  rw [lowerConversion, Host.execAll_append, Host.execAll_append, execAll_push hsep hfits rfl ha,
    bind_some, hops, bind_some]
  exact execAll_setDest hsep hfits hdest r

variable {holds : Bool}

/-- A selection of one of two operands. -/
theorem execAll_lowerSelect {comparison : Comparison} {a t f : WVal} (hdest : instr.dest = some reg)
    (hcmp : (instr.getOperand 1).value = .comparison comparison)
    (hint : isFloatComparison comparison = false) (hfloat : isF64 (instr.getOperand 0).type = false)
    (ha : operandValue host ctx data s (instr.getOperand 0) = some a)
    (hb : operandValue host ctx data s (instr.getOperand 2) = some b)
    (ht : operandValue host ctx data s (instr.getOperand 3) = some t)
    (hf : operandValue host ctx data s (instr.getOperand 4) = some f)
    (hcompare : compareValues comparison (instr.getOperand 0).type a b = some holds) :
    host.execAll (lowerSelect ctx data instr) s
      = some (s.setLocal (data.localOf reg) (if holds then t else f)) := by
  have htype : (if isFloatComparison comparison
        then if is64BitInt (instr.getOperand 0).type || isF64 (instr.getOperand 0).type
          then WasmType.F64 else .F32
        else if is64BitInt (instr.getOperand 0).type || isF64 (instr.getOperand 0).type
          then .I64 else .I32) = comparedType comparison (instr.getOperand 0).type := by
    rw [comparedType, hint, hfloat, Bool.or_false]
    rfl
  have hselect : host.execAll [⟨lowerComparison comparison
        (is64BitInt (instr.getOperand 0).type || isF64 (instr.getOperand 0).type), []⟩,
        ⟨.SELECT, []⟩] ((((s.push t).push f).push a).push b)
      = some (s.push (if holds then t else f)) := by
    rw [Host.execAll_cons, execPlain_comparison htype hcompare, bind_some]
    cases holds <;> rfl
  rw [lowerSelect, hcmp]
  dsimp only
  rw [Host.execAll_append, Host.execAll_append, Host.execAll_append, Host.execAll_append,
    Host.execAll_append, execAll_push hsep hfits rfl ht, bind_some,
    execAll_push hsep hfits (t := s.push t) rfl hf, bind_some,
    execAll_push hsep hfits (t := (s.push t).push f) rfl ha, bind_some,
    execAll_push hsep hfits (t := ((s.push t).push f).push a) rfl hb, bind_some, hselect, bind_some]
  exact execAll_setDest hsep hfits hdest _

omit hsep hfits in
/-- The instructions that are lowered as operations on 32 bits. -/
theorem lowerInstr_binary {b r : BitVec w} (h : evalBinary instr.opcode a b = some r) :
    ∃ m64, lowerInstr ctx data instr
      = lowerNumeric ctx data is64BitInt (binaryOpcode instr.opcode) m64 instr := by
  unfold evalBinary at h
  split at h <;> first | cases h; done | skip
  all_goals
    rename_i hop
    simp only [lowerInstr, hop, binaryOpcode]
    exact ⟨_, rfl⟩

omit hsep hfits in
/-- The comparison of an instruction that is clean has the outcome of that of the numbers. -/
theorem holds_represents (hmem : instr ∈ func.instrs) (hholds : Holds data func env s)
    (hclean : ComparesClean host ctx data s instr) (h : env.holds instr = some holds) :
    ∃ comparison x y, (instr.getOperand 1).value = .comparison comparison ∧
      isFloatComparison comparison = false ∧ isF64 (instr.getOperand 0).type = false ∧
      operandValue host ctx data s (instr.getOperand 0) = some (.i32 x) ∧
      operandValue host ctx data s (instr.getOperand 2) = some (.i32 y) ∧
      compareValues comparison (instr.getOperand 0).type (.i32 x) (.i32 y) = some holds := by
  unfold SEnv.holds at h
  split at h
  · rename_i comparison w hcmp hwidth
    obtain ⟨a, ha, h⟩ := bind_eq_some_iff.mp h
    obtain ⟨b, hb, h⟩ := bind_eq_some_iff.mp h
    obtain ⟨-, hw, -⟩ := narrowWidth_eq_some hwidth
    obtain ⟨x, hx, rfl⟩ := bits_represents (by omega) hholds
      (used_of_getOperand hmem 0) ha
    obtain ⟨y, hy, rfl⟩ := bits_represents (by omega) hholds
      (used_of_getOperand hmem 2) hb
    obtain ⟨hint, hcompare⟩ := compareValues_represents hwidth
      (hclean comparison w x y hcmp hwidth hx hy) h
    have hfloat : isF64 (instr.getOperand 0).type = false := by
      rw [isF64, decide_eq_false_iff_not]
      intro heq
      rw [heq] at hwidth
      cases hwidth
    exact ⟨comparison, x, y, hcmp, hint, hfloat, hx, hy, hcompare⟩
  · cases h

/-- An operation on two narrow numbers. -/
theorem binary_represents {reg : VirtualRegister} {a b r : BitVec w} (hdest : instr.dest = some reg)
    (hmem : instr ∈ func.instrs) (hholds : Holds data func env s)
    (hwidth : narrowWidth (instr.getOperand 0).type = some w)
    (ha : env.bits w (instr.getOperand 0) = some a) (hb : env.bits w (instr.getOperand 1) = some b)
    (hclean : ∀ x y, operandValue (numericHost host conv) ctx data s (instr.getOperand 0)
        = some (.i32 x) →
      operandValue (numericHost host conv) ctx data s (instr.getOperand 1) = some (.i32 y) →
        CleanBinary instr.opcode w x y)
    (h : evalBinary instr.opcode a b = some r) :
    ∃ x, (numericHost host conv).execAll (lowerInstr ctx data instr) s
        = some (s.setLocal (data.localOf reg) x) ∧ Represents (.int w r) x := by
  obtain ⟨-, hw, hwide⟩ := narrowWidth_eq_some hwidth
  obtain ⟨x, hx, rfl⟩ := bits_represents (by omega)
    hholds (used_of_getOperand hmem 0) ha
  obtain ⟨y, hy, rfl⟩ := bits_represents (by omega)
    hholds (used_of_getOperand hmem 1) hb
  obtain ⟨m64, hlower⟩ := lowerInstr_binary h
  have hop : ∃ z, (numericHost host conv).operate ⟨binaryOpcode instr.opcode, []⟩
      (.i32 y :: .i32 x :: s.stack) s.world = some (.i32 z :: s.stack, s.world) ∧
        z.setWidth w = r := by
    by_cases hadd : instr.opcode = .ADD
    · rw [hadd] at h ⊢
      obtain rfl := some.inj h
      exact ⟨x + y, rfl, BitVec.setWidth_add x y (by omega)⟩
    · obtain ⟨z, hz, hr⟩ := i32Binop_represents hw hadd (hclean x y hx hy) h
      refine ⟨z, ?_, hr⟩
      rw [operate_binop (isBinop_binaryOpcode hadd), hz]
      rfl
  obtain ⟨z, hz, hr⟩ := hop
  rw [hlower]
  exact ⟨.i32 z, execAll_numeric hsep hfits hdest hwide hx hy hz, by omega, hr⟩

variable {d : ℕ}

/-- A truncation. -/
theorem truncate_represents (hdest : instr.dest = some reg) (hop : instr.opcode = .TRUNCATE)
    (hmem : instr ∈ func.instrs) (hholds : Holds data func env s)
    (hsizes : ∀ type w, intWidth type = some w → 8 * ctx.getSize type = w)
    (hwidth : intWidth (instr.getOperand 0).type = some w)
    (hnarrow : narrowWidth (instr.getOperand 1).type = some d)
    (ha : env.bits w (instr.getOperand 0) = some a) (hle : d ≤ w) :
    ∃ x, (numericHost host conv).execAll (lowerInstr ctx data instr) s
        = some (s.setLocal (data.localOf reg) x) ∧ Represents (.int d (a.setWidth d)) x := by
  obtain ⟨hdwidth, hd, -⟩ := narrowWidth_eq_some hnarrow
  obtain ⟨v, hv, hrep⟩ : ∃ v, operandValue (numericHost host conv) ctx data s
      (instr.getOperand 0) = some v ∧ Represents (.int w a) v :=
    operandValue_represents hholds (used_of_getOperand hmem 0) (value_of_bits ha)
  have hsrc := hsizes _ _ hwidth
  have hdst := hsizes _ _ hdwidth
  -- The 32 bits that are masked.
  obtain ⟨x, hx, hwrap⟩ : ∃ x : BitVec 32, x.setWidth d = a.setWidth d ∧
      (numericHost host conv).execAll
        (if ctx.getSize (instr.getOperand 0).type = 8 then [⟨.I32_WRAP_I64, []⟩] else [])
        (s.push v) = some (s.push (.i32 x)) := by
    match v, hrep with
    | .i32 x, hrep =>
      obtain ⟨hle', rfl⟩ := hrep
      refine ⟨x, (BitVec.setWidth_setWidth_of_le x hle).symm, ?_⟩
      rw [if_neg (by omega)]
      rfl
    | .i64 x, hrep =>
      obtain ⟨rfl, rfl⟩ := hrep
      refine ⟨x.setWidth 32, ?_, ?_⟩
      · rw [BitVec.setWidth_eq, BitVec.setWidth_setWidth_of_le x (by omega)]
      · rw [if_pos (by omega)]
        rfl
  have hmask : ∃ z : BitVec 32, z.setWidth d = x.setWidth d ∧
      (numericHost host conv).execAll (truncateOps ctx instr) (s.push v)
        = some (s.push (.i32 z)) := by
    rw [truncateOps, Host.execAll_append, hwrap, bind_some]
    obtain rfl | rfl := hd
    · refine ⟨x &&& 0xFF#32, ?_, ?_⟩
      · rw [BitVec.setWidth_and]
        exact BitVec.and_allOnes
      · rw [if_pos (by omega)]
        rfl
    · refine ⟨x &&& 0xFFFF#32, ?_, ?_⟩
      · rw [BitVec.setWidth_and]
        exact BitVec.and_allOnes
      · rw [if_neg (by omega), if_pos (by omega)]
        rfl
  obtain ⟨z, hz, hexec⟩ := hmask
  refine ⟨.i32 z, ?_, by omega, hz.trans hx⟩
  have hlower : lowerInstr ctx data instr
      = lowerConversion ctx data (truncateOps ctx instr) instr := by
    simp only [lowerInstr, hop]
  rw [hlower]
  exact execAll_conversion hsep hfits hdest hv hexec

/-- A zero or sign extension, by a function of the number. -/
theorem extend_represents {r : BitVec d} {wide : BitVec 64} (opcode : WasmOpcode)
    (hdest : instr.dest = some reg)
    (hsizes : ∀ type w, intWidth type = some w → 8 * ctx.getSize type = w)
    (hwidth : intWidth (instr.getOperand 1).type = some d)
    (hx : operandValue (numericHost host conv) ctx data s (instr.getOperand 0) = some (.i32 x))
    (hop : isConversion opcode = true) (hconvert : i32Conversion conv opcode x = some (.i64 wide))
    (hwide : d = 64 → wide.setWidth d = r) (hnarrow : d ≤ 32 → x.setWidth d = r)
    (hlower : lowerInstr ctx data instr = lowerConversion ctx data
      (if ctx.getSize (instr.getOperand 1).type = 8 then [⟨opcode, []⟩] else []) instr) :
    ∃ x, (numericHost host conv).execAll (lowerInstr ctx data instr) s
        = some (s.setLocal (data.localOf reg) x) ∧ Represents (.int d r) x := by
  obtain ⟨hcases, -⟩ := intWidth_cases hwidth
  have hsize := hsizes _ _ hwidth
  rw [hlower]
  by_cases h64 : d = 64
  · rw [if_pos (by omega)]
    refine ⟨.i64 wide, execAll_conversion hsep hfits hdest hx ?_, h64, hwide h64⟩
    have hexec : (numericHost host conv).execPlain ⟨opcode, []⟩ (s.push (.i32 x))
        = some (s.push (.i64 wide)) := by
      refine execPlain_operate ((operate_conversion hop).trans ?_)
      rw [hconvert]
      rfl
    rw [Host.execAll_cons, hexec]
    rfl
  · rw [if_neg (by omega)]
    exact ⟨.i32 x, execAll_conversion hsep hfits hdest hx rfl, by omega, hnarrow (by omega)⟩

/-- A conversion to a floating-point number. -/
theorem toFloat_represents {i : ℤ}
    (n32 n64 w32 w64 : WasmOpcode) (hdest : instr.dest = some reg)
    (hsize : ctx.getSize (instr.getOperand 0).type ≠ 8)
    (hx : operandValue (numericHost host conv) ctx data s (instr.getOperand 0) = some (.i32 x))
    (h32 : isConversion n32 = true) (h64 : isConversion n64 = true)
    (hconvert32 : i32Conversion conv n32 x = some (.f32 (conv.f32 i)))
    (hconvert64 : i32Conversion conv n64 x = some (.f64 (conv.f64 i)))
    (hlower : lowerInstr ctx data instr = lowerConversion ctx data
      [convertOp (ctx.getSize (instr.getOperand 0).type) (isF64 (instr.getOperand 1).type)
        n32 n64 w32 w64] instr) :
    ∃ x, (numericHost host conv).execAll (lowerInstr ctx data instr) s
        = some (s.setLocal (data.localOf reg) x) ∧
      Represents (toFloat conv (instr.getOperand 1).type i) x := by
  rw [hlower, convertOp, if_neg hsize, toFloat]
  by_cases hdouble : isF64 (instr.getOperand 1).type = true
  · rw [if_pos hdouble, if_pos hdouble]
    refine ⟨.f64 (conv.f64 i), execAll_conversion hsep hfits hdest hx ?_, rfl⟩
    have hexec : (numericHost host conv).execPlain ⟨n64, []⟩ (s.push (.i32 x))
        = some (s.push (.f64 (conv.f64 i))) := by
      refine execPlain_operate ((operate_conversion h64).trans ?_)
      rw [hconvert64]
      rfl
    rw [Host.execAll_cons, hexec]
    rfl
  · rw [if_neg hdouble, if_neg hdouble]
    refine ⟨.f32 (conv.f32 i), execAll_conversion hsep hfits hdest hx ?_, rfl⟩
    have hexec : (numericHost host conv).execPlain ⟨n32, []⟩ (s.push (.i32 x))
        = some (s.push (.f32 (conv.f32 i))) := by
      refine execPlain_operate ((operate_conversion h32).trans ?_)
      rw [hconvert32]
      rfl
    rw [Host.execAll_cons, hexec]
    rfl

/-- **The instruction lemma.** An instruction that is clean sets the local of its register to a
representation of what it computes. -/
theorem lowerInstr_represents {reg : VirtualRegister} {v : SVal} (hdest : instr.dest = some reg)
    (hmem : instr ∈ func.instrs) (hholds : Holds data func env s)
    (hsizes : ∀ type w, intWidth type = some w → 8 * ctx.getSize type = w)
    (hclean : Clean (numericHost host conv) ctx data s instr) (h : env.eval conv instr = some v) :
    ∃ x, (numericHost host conv).execAll (lowerInstr ctx data instr) s
        = some (s.setLocal (data.localOf reg) x) ∧ Represents v x := by
  have hused := used_of_getOperand hmem
  unfold SEnv.eval at h
  unfold Clean at hclean
  split at h
  · rename_i hop
    simp only [hop] at hclean
    obtain ⟨holds, hh, h⟩ := bind_eq_some_iff.mp h
    obtain ⟨t, ht, h⟩ := bind_eq_some_iff.mp h
    obtain ⟨f, hf, h⟩ := bind_eq_some_iff.mp h
    obtain rfl := some.inj h
    obtain ⟨comparison, x, y, hcmp, hint, hfloat, hx, hy, hcompare⟩ :=
      holds_represents hmem hholds hclean hh
    obtain ⟨xt, hxt, ht⟩ := operandValue_represents
      hholds (hused 3) ht
    obtain ⟨xf, hxf, hf⟩ := operandValue_represents
      hholds (hused 4) hf
    have hlower : lowerInstr ctx data instr = lowerSelect ctx data instr := by
      simp only [lowerInstr, hop]
    rw [hlower]
    refine ⟨_, execAll_lowerSelect hsep hfits hdest hcmp hint hfloat hx hy hxt hxf hcompare, ?_⟩
    cases holds
    · exact hf
    · exact ht
  · rename_i hop
    obtain ⟨d, hd, h⟩ := bind_eq_some_iff.mp h
    obtain ⟨w, hw, h⟩ := bind_eq_some_iff.mp h
    obtain ⟨a, ha, h⟩ := bind_eq_some_iff.mp h
    split_ifs at h with hle
    obtain rfl := some.inj h
    exact truncate_represents hsep hfits hdest hop hmem hholds hsizes hw hd ha hle
  · rename_i hop
    obtain ⟨w, hw, h⟩ := bind_eq_some_iff.mp h
    obtain ⟨d, hd, h⟩ := bind_eq_some_iff.mp h
    obtain ⟨a, ha, h⟩ := bind_eq_some_iff.mp h
    split_ifs at h with hle
    obtain rfl := some.inj h
    obtain ⟨-, hcases, -⟩ := narrowWidth_eq_some hw
    obtain ⟨x, hx, rfl⟩ := bits_represents (by omega)
      hholds (hused 0) ha
    simp only [hop, hd] at hclean
    have hext : x.setWidth (min d 32) = (x.setWidth w).setWidth (min d 32) := hclean w x hw hx
    refine extend_represents hsep hfits .I64_EXTEND_I32_U hdest hsizes hd hx rfl rfl
      ?_ ?_ (by simp only [lowerInstr, hop])
    · rintro rfl
      have hext' : x.setWidth 32 = (x.setWidth w).setWidth 32 := hext
      have heq := congrArg BitVec.toNat hext'
      apply BitVec.eq_of_toNat_eq
      simp only [BitVec.toNat_setWidth] at heq ⊢
      have := x.isLt
      obtain rfl | rfl := hcases <;> omega
    · intro h32
      rwa [Nat.min_eq_left h32] at hext
  · rename_i hop
    obtain ⟨w, hw, h⟩ := bind_eq_some_iff.mp h
    obtain ⟨d, hd, h⟩ := bind_eq_some_iff.mp h
    obtain ⟨a, ha, h⟩ := bind_eq_some_iff.mp h
    split_ifs at h with hle
    obtain rfl := some.inj h
    obtain ⟨-, hcases, -⟩ := narrowWidth_eq_some hw
    obtain ⟨x, hx, rfl⟩ := bits_represents (by omega)
      hholds (hused 0) ha
    simp only [hop, hd] at hclean
    have hext : x.setWidth (min d 32) = (x.setWidth w).signExtend (min d 32) := hclean w x hw hx
    refine extend_represents hsep hfits .I64_EXTEND_I32_S hdest hsizes hd hx rfl rfl
      ?_ ?_ (by simp only [lowerInstr, hop])
    · rintro rfl
      have heq : x = (x.setWidth w).signExtend 32 := (BitVec.setWidth_eq x).symm.trans hext
      rw [BitVec.setWidth_eq]
      apply BitVec.eq_of_toInt_eq
      conv_lhs => rw [heq]
      rw [BitVec.toInt_signExtend_of_le (by omega), BitVec.toInt_signExtend_of_le (by omega),
        BitVec.toInt_signExtend_of_le (by omega)]
    · intro h32
      rwa [Nat.min_eq_left h32] at hext
  · rename_i hop
    obtain ⟨w, hw, h⟩ := bind_eq_some_iff.mp h
    obtain ⟨a, ha, h⟩ := bind_eq_some_iff.mp h
    obtain rfl := some.inj h
    obtain ⟨hwidth, hcases, -⟩ := narrowWidth_eq_some hw
    have hsize := hsizes _ _ hwidth
    obtain ⟨x, hx, rfl⟩ := bits_represents (by omega)
      hholds (hused 0) ha
    simp only [hop] at hclean
    have hint : x.toInt = (x.setWidth w).toNat := hclean w x hw hx
    exact toFloat_represents hsep hfits .F32_CONVERT_I32_S .F64_CONVERT_I32_S
      .F32_CONVERT_I64_S .F64_CONVERT_I64_S hdest (by omega) hx rfl rfl (by rw [← hint]; rfl)
      (by rw [← hint]; rfl) (by simp only [lowerInstr, hop])
  · rename_i hop
    obtain ⟨w, hw, h⟩ := bind_eq_some_iff.mp h
    obtain ⟨a, ha, h⟩ := bind_eq_some_iff.mp h
    obtain rfl := some.inj h
    obtain ⟨hwidth, hcases, -⟩ := narrowWidth_eq_some hw
    have hsize := hsizes _ _ hwidth
    obtain ⟨x, hx, rfl⟩ := bits_represents (by omega)
      hholds (hused 0) ha
    simp only [hop] at hclean
    have hint : (x.toNat : ℤ) = (x.setWidth w).toInt := hclean w x hw hx
    exact toFloat_represents hsep hfits .F32_CONVERT_I32_U .F64_CONVERT_I32_U
      .F32_CONVERT_I64_U .F64_CONVERT_I64_U hdest (by omega) hx rfl rfl (by rw [← hint]; rfl)
      (by rw [← hint]; rfl) (by simp only [lowerInstr, hop])
  · rename_i hselect htruncate huextend hsextend hutof hstof
    obtain ⟨w, hw, h⟩ := bind_eq_some_iff.mp h
    obtain ⟨a, ha, h⟩ := bind_eq_some_iff.mp h
    obtain ⟨b, hb, h⟩ := bind_eq_some_iff.mp h
    obtain ⟨r, hr, h⟩ := bind_eq_some_iff.mp h
    obtain rfl := some.inj h
    refine binary_represents hsep hfits hdest hmem hholds hw ha hb (fun x y hx hy ↦ ?_) hr
    split at hclean
    · exact absurd ‹_› hselect
    · exact absurd ‹_› htruncate
    · exact absurd ‹_› huextend
    · exact absurd ‹_› hsextend
    · exact absurd ‹_› hutof
    · exact absurd ‹_› hstof
    · exact hclean w x y hw hx hy

end Code

/-! ## Blocks -/

section Blocks

variable {env : SEnv} {s : State W}

/-- A register and its local are set. -/
theorem Holds.set {reg : VirtualRegister} {v : SVal} {x : WVal}
    (hinj : ∀ r ∈ data.vregs2locals.map Prod.fst, ∀ r' ∈ data.vregs2locals.map Prod.fst,
      data.localOf r = data.localOf r' → r = r')
    (h : Holds data func env s) (hslot : data.stackRegs.lookup reg = none)
    (hmapped : reg ∈ data.vregs2locals.map Prod.fst) (hrep : Represents v x) {t : State W}
    (ht : t.locals = Function.update s.locals (data.localOf reg) x) :
    Holds data func (Function.update env reg (some v)) t := by
  intro r v' hr hused
  rw [ht]
  by_cases heq : r = reg
  · subst heq
    rw [Function.update_self] at hr
    obtain rfl := some.inj hr
    rw [Function.update_self]
    exact ⟨hslot, hmapped, hrep⟩
  · rw [Function.update_of_ne heq] at hr
    obtain ⟨hslot', hmapped', hrep'⟩ := h r v' hr hused
    rw [Function.update_of_ne fun hlocal ↦ heq (hinj r hmapped' reg hmapped hlocal)]
    exact ⟨hslot', hmapped', hrep'⟩

theorem eval_ne_alloca {instr : SSA.Instruction} {v : SVal} (h : env.eval conv instr = some v) :
    instr.opcode ≠ .ALLOCA := by
  intro hop
  simp [SEnv.eval, hop, evalBinary] at h

variable {values : List SVal}

/-- Setting parameters keeps the registers in their locals. -/
theorem Holds.enter
    (hinj : ∀ r ∈ data.vregs2locals.map Prod.fst, ∀ r' ∈ data.vregs2locals.map Prod.fst,
      data.localOf r = data.localOf r' → r = r') {regs : List VirtualRegister}
    (hregs : ∀ reg ∈ regs, data.stackRegs.lookup reg = none ∧
      reg ∈ data.vregs2locals.map Prod.fst) {xs : List WVal}
    (hrep : List.Forall₂ Represents values xs) (h : Holds data func env s) {s' : State W}
    (hs' : s'.locals = setLocals s.locals ((regs.map data.localOf).zip xs)) :
    Holds data func ((regs.zip values).foldl
      (fun env entry ↦ Function.update env entry.1 (some entry.2)) env) s' := by
  induction hrep generalizing regs env s with
  | nil =>
    rw [zip_nil_right] at hs' ⊢
    intro r v hr hused
    rw [hs']
    exact h r v hr hused
  | @cons v x values xs hv _ ih =>
    match regs with
    | [] =>
      intro r v hr hused
      rw [hs']
      exact h r v hr hused
    | reg :: regs =>
      obtain ⟨hslot, hmapped⟩ := hregs reg mem_cons_self
      exact ih (fun r hr ↦ hregs r (mem_cons_of_mem _ hr))
        (h.set hinj hslot hmapped hv (t := s.setLocal (data.localOf reg) x) rfl) hs'

/-- The arguments of a branch are represented. -/
theorem args_represent {args : List SSA.Operand} (hholds : Holds data func env s)
    (hused : ∀ arg ∈ args, ∀ reg, arg.value = .register reg → Used func reg)
    (h : args.mapM env.value = some values) :
    ∃ xs, args.mapM (operandValue host ctx data s) = some xs ∧
      List.Forall₂ Represents values xs := by
  induction args generalizing values with
  | nil =>
    obtain rfl := some.inj h
    exact ⟨[], rfl, .nil⟩
  | cons arg args ih =>
    rw [mapM_cons] at h
    obtain ⟨v, hv, h⟩ := bind_eq_some_iff.mp h
    obtain ⟨vs, hvs, h⟩ := bind_eq_some_iff.mp h
    obtain rfl := some.inj h
    obtain ⟨x, hx, hrep⟩ : ∃ x, operandValue host ctx data s arg = some x ∧ Represents v x :=
      operandValue_represents hholds (hused arg mem_cons_self) hv
    obtain ⟨xs, hxs, hreps⟩ := ih (fun a ha ↦ hused a (mem_cons_of_mem _ ha)) hvs
    refine ⟨x :: xs, ?_, .cons hrep hreps⟩
    rw [mapM_cons, hx, hxs]
    rfl

variable (hsep : data.Separate func params) (hfits : params + data.locals.length + 4 < 2 ^ 64)
  (hsizes : ∀ type w, intWidth type = some w → 8 * ctx.getSize type = w)
  (hinj : ∀ r ∈ data.vregs2locals.map Prod.fst, ∀ r' ∈ data.vregs2locals.map Prod.fst,
    data.localOf r = data.localOf r' → r = r')
include hsep hfits hsizes hinj

/-- **The body lemma.** The instructions of a block, those that are not used left out. -/
theorem body_represents {env' : SEnv} {instrs : List SSA.Instruction}
    (hmem : ∀ instr ∈ instrs, instr ∈ func.instrs)
    (hdests : ∀ instr ∈ instrs, instr.opcode ≠ .ALLOCA → ∀ dest, instr.dest = some dest →
      data.stackRegs.lookup dest = none ∧ dest ∈ data.vregs2locals.map Prod.fst)
    (hholds : Holds data func env s)
    (hclean : CleanBody (numericHost host conv) ctx data func instrs s)
    (h : env.run conv instrs = some env') :
    ∃ s', (numericHost host conv).execAll ((instrs.filter fun instr ↦ !isUnused func instr).flatMap
        (lowerInstr ctx data)) s = some s' ∧ Holds data func env' s' := by
  induction instrs generalizing env s with
  | nil =>
    obtain rfl := some.inj h
    exact ⟨s, rfl, hholds⟩
  | cons instr instrs ih =>
    rw [SEnv.run, List.foldlM_cons] at h
    obtain ⟨next, hnext, h⟩ := bind_eq_some_iff.mp h
    obtain ⟨dest, hdest, hnext⟩ := bind_eq_some_iff.mp hnext
    obtain ⟨v, hv, hnext⟩ := bind_eq_some_iff.mp hnext
    obtain rfl := some.inj hnext
    have hrest := fun i hi ↦ hmem i (mem_cons_of_mem instr hi)
    have hdests' := fun i hi ↦ hdests i (mem_cons_of_mem instr hi)
    obtain ⟨hslot, hmapped⟩ :=
      hdests instr mem_cons_self (eval_ne_alloca hv) dest hdest
    rw [CleanBody] at hclean
    split_ifs at hclean with hunused
    · -- What is skipped defines a register that is not read.
      have hnotUsed : ¬Used func dest := by
        rintro ⟨user, huser, huse⟩
        simp only [isUnused, hdest, Bool.and_eq_true, Bool.not_eq_true', List.any_eq_false,
          decide_eq_true_eq] at hunused
        exact hunused.2 user huser huse
      have hskip : Holds data func (Function.update env dest (some v)) s := by
        intro r v' hr hused
        have hne : r ≠ dest := fun heq ↦ hnotUsed (heq ▸ hused)
        rw [Function.update_of_ne hne] at hr
        exact hholds r v' hr hused
      rw [List.filter_cons_of_neg (by simp [hunused])]
      exact ih hrest hdests' hskip hclean h
    · obtain ⟨x, hexec, hrep⟩ := lowerInstr_represents hsep hfits hdest
        (hmem instr mem_cons_self) hholds hsizes hclean.1 hv
      obtain ⟨s', hexec', hholds'⟩ := ih hrest hdests'
        (hholds.set hinj hslot hmapped hrep (t := s.setLocal (data.localOf dest) x) rfl)
        (hclean.2 _ hexec) h
      refine ⟨s', ?_, hholds'⟩
      rw [List.filter_cons_of_pos (by simp [hunused]), List.flatMap_cons,
        Host.execAll_append, hexec]
      exact hexec'

end Blocks

/-! ## Runs -/

section Runs

variable {stackRegs : List (VirtualRegister × ℕ)} {type : FunctionType}

theorem mem_instrs_of_find {b : BlockId} {block : BasicBlock} (h : func.find b = some block)
    {instr : SSA.Instruction} (hinstr : instr ∈ block.instrs) : instr ∈ func.instrs :=
  mem_flatMap.mpr ⟨(b, block), FuncData.mem_of_lookup h, hinstr⟩

variable {c : BlockConfig W}

/-- **The step lemma.** From a block that is clean both functions take the same branch. -/
theorem narrowStep_represents (h : NarrowLowerable ctx type stackRegs func)
    (hnumbers : type.variadic = false ∨ type.returnType ≠ (Primitive.VOID : SSAType) ∨
      NoRegisters func)
    {p q : BlockId × SEnv} (hblock : p.1 = c.block)
    (hholds : Holds (initFunc ctx type stackRegs func) func p.2 c.state)
    (hclean : CleanBlock (numericHost host conv) ctx (initFunc ctx type stackRegs func) func c)
    (hstep : NarrowStep conv func p q) :
    ∃ c', BlockStep (numericHost host conv) ctx (initFunc ctx type stackRegs func) func c c' ∧
      q.1 = c'.block ∧ Holds (initFunc ctx type stackRegs func) func q.2 c'.state := by
  obtain ⟨hfind, hlast, hrun, htakes, hreadable, hnext, hvalues⟩ := hstep
  rename_i b env env' block next last target values
  obtain rfl : b = c.block := hblock
  have hinj : ∀ r ∈ (initFunc ctx type stackRegs func).vregs2locals.map Prod.fst,
      ∀ r' ∈ (initFunc ctx type stackRegs func).vregs2locals.map Prod.fst,
        (initFunc ctx type stackRegs func).localOf r
          = (initFunc ctx type stackRegs func).localOf r' → r = r' :=
    fun r hr r' hr' heq ↦ initFunc_localInj hr hr' heq
  have hsep : (initFunc ctx type stackRegs func).Separate func type.params.length :=
    initFunc_separate hnumbers
  have hfits : type.params.length + (initFunc ctx type stackRegs func).locals.length
    + 4 < 2 ^ 64 := by
    have := h.lowerable.localsFit
    omega
  have hslots : (initFunc ctx type stackRegs func).stackRegs = stackRegs :=
    (initFunc_spec ctx type stackRegs func).2.stackRegs
  have hentry := FuncData.mem_of_lookup hfind
  have hlastMem : last ∈ func.instrs :=
    mem_instrs_of_find hfind (mem_of_getLast? hlast)
  -- The body.
  obtain ⟨hbodyClean, hbranchClean⟩ := hclean block hfind
  obtain ⟨s, hexec, hs⟩ := body_represents hsep hfits h.sizes hinj
    (fun instr hinstr ↦ mem_instrs_of_find hfind (mem_of_mem_dropLast hinstr))
    (fun instr hinstr hop dest hdest ↦ ⟨by
        rw [hslots]
        exact h.dests _ hentry instr (mem_of_mem_dropLast hinstr) hop dest hdest,
      initFunc_dests hentry (mem_of_mem_dropLast hinstr) hop hdest⟩)
    hholds hbodyClean hrun
  have hleaves : Leaves (numericHost host conv) ctx (initFunc ctx type stackRegs func) func c block
      last s := ⟨hfind, hlast, hexec⟩
  -- The terminator.
  have harg : ∀ target ∈ last.targets, ∀ arg ∈ target.args, ∀ reg, arg.value = .register reg →
      Used func reg := fun target htarget arg harg reg hreg ↦
    ⟨last, hlastMem, SSA.Instruction.mem_uses_of_arg htarget harg hreg⟩
  have htarget : target ∈ last.targets ∧ ∃ taken, Takes (numericHost host conv) ctx
      (initFunc ctx type stackRegs func) s last target taken := by
    cases htakes with
    | jmp hop htargets =>
      exact ⟨htargets ▸ mem_cons_self, true, Takes.jmp hop htargets⟩
    | @cond targetTrue targetFalse taken hop htargets hholdsCmp =>
      obtain ⟨comparison, x, y, hcmp, -, -, hx, hy, hcompare⟩ :=
        holds_represents hlastMem hs (hbranchClean last s hleaves hop) hholdsCmp
      have hcond : last.isCondBranch = true := by
        rw [SSA.Instruction.isCondBranch, hop]
        rfl
      refine ⟨?_, taken, Takes.cond hcond hcmp htargets hx hy hcompare⟩
      rw [htargets]
      cases taken
      · exact mem_cons_of_mem _ mem_cons_self
      · exact mem_cons_self
  obtain ⟨htargetMem, htaken⟩ := htarget
  obtain ⟨xs, hxs, hrep⟩ : ∃ xs, argValues (numericHost host conv) ctx
      (initFunc ctx type stackRegs func) s target = some xs ∧ List.Forall₂ Represents values xs :=
    args_represent hs (harg target htargetMem) hvalues
  refine ⟨⟨target.block, enter _ s next xs⟩, BlockStep.branch ⟨⟨block, hleaves⟩, htaken,
    fun other hother ↦ ?_, hnext, hxs⟩, rfl, ?_⟩
  · obtain ⟨vs, hvs⟩ := hreadable other hother
    obtain ⟨ys, hys, -⟩ : ∃ ys, argValues (numericHost host conv) ctx
        (initFunc ctx type stackRegs func) s other = some ys ∧ List.Forall₂ Represents vs ys :=
      args_represent hs (harg other hother) hvs
    exact ⟨ys, hys⟩
  · refine Holds.enter hinj (fun reg hreg ↦ ⟨?_, ?_⟩) hrep hs rfl
    · rw [hslots]
      exact h.params _ (FuncData.mem_of_lookup hnext) reg hreg
    · obtain ⟨⟨i, hi⟩, -⟩ :=
        initFunc_params ctx type stackRegs (FuncData.mem_of_lookup hnext) hreg
      exact mem_map.mpr ⟨_, hi, rfl⟩

/-- A block has one successor in a state. -/
theorem BlockStep.unique {c' c'' : BlockConfig W} (h : BlockStep host ctx data func c c')
    (h' : BlockStep host ctx data func c c'') : c' = c'' := by
  obtain ⟨⟨block, hleaves⟩, ⟨taken, htakes⟩, -, hnext, hvalues⟩ := h
  obtain ⟨⟨block', hleaves'⟩, ⟨taken', htakes'⟩, -, hnext', hvalues'⟩ := h'
  obtain rfl := some.inj (hleaves.find.symm.trans hleaves'.find)
  obtain rfl := some.inj (hleaves.last.symm.trans hleaves'.last)
  obtain rfl := some.inj (hleaves.body.symm.trans hleaves'.body)
  have htarget : ∀ {s : State W} {instr : SSA.Instruction} {t t' : BranchTarget} {k k' : Bool},
      Takes host ctx data s instr t k → Takes host ctx data s instr t' k' → t = t' := by
    intro s instr t t' k k' ht ht'
    cases ht with
    | jmp hop htargets =>
      cases ht' with
      | jmp _ htargets' => exact (cons.inj (htargets.symm.trans htargets')).1
      | cond hcond => simp [SSA.Instruction.isCondBranch, hop] at hcond
    | cond hcond hcmp htargets ha hb hcompare =>
      cases ht' with
      | jmp hop _ => simp [SSA.Instruction.isCondBranch, hop] at hcond
      | cond _ hcmp' htargets' ha' hb' hcompare' =>
        obtain rfl := some.inj (ha.symm.trans ha')
        obtain rfl := some.inj (hb.symm.trans hb')
        obtain rfl := SSA.Value.comparison.inj (hcmp.symm.trans hcmp')
        obtain rfl := some.inj (hcompare.symm.trans hcompare')
        obtain ⟨rfl, hrest⟩ := cons.inj (htargets.symm.trans htargets')
        obtain ⟨rfl, -⟩ := cons.inj hrest
        rfl
  obtain rfl := htarget htakes htakes'
  obtain rfl := some.inj (hnext.symm.trans hnext')
  obtain rfl := some.inj (hvalues.symm.trans hvalues')
  rfl

end Runs

/-! ## A sum that overflows -/

/-- A sum with `10` of 8 bits, and a branch on whether it is less than `50`. -/
def sumFunc (a : BitVec 64) : SSA.Function where
  blocks :=
    [(0, { instrs :=
        [{ opcode := .ADD
           dest := some 0
           operands := [⟨.intImmediate ⟨a, false⟩, Primitive.U8⟩,
             ⟨.intImmediate ⟨10, false⟩, Primitive.U8⟩] },
          { opcode := .CJMP
            operands := [⟨.register 0, Primitive.U8⟩, ⟨.comparison .ULT, Primitive.VOID⟩,
              ⟨.intImmediate ⟨50, false⟩, Primitive.U8⟩]
            targets := [⟨1, []⟩, ⟨2, []⟩] }] }),
      (1, { instrs := [{ opcode := .RET }] }),
      (2, { instrs := [{ opcode := .RET }] })]
  lastVirtualReg := 1

def sumContext : Context :=
  ⟨fun _ ↦ "f", fun _ ↦ "g", fun type ↦ (intWidth type).getD 32 / 8, fun _ ↦ []⟩

def sumType : FunctionType := ⟨[], Primitive.VOID, false⟩

def sumHost : Host Unit := ⟨fun _ offset ↦ offset, fun _ ↦ 0, fun _ ↦ 0, fun _ _ _ ↦ none⟩

def sumConversion : IntToFloat := ⟨fun _ ↦ 0, fun _ ↦ 0⟩

def sumState : State Unit := ⟨fun _ ↦ .i32 0, [], ()⟩

def sumEnv : SEnv := fun _ ↦ none

variable (a : BitVec 64)

theorem sumFunc_lowerable :
    NarrowLowerable sumContext sumType [] (sumFunc a) where
  lowerable := {
    nodup := by
      change [0, 1, 2].Nodup
      decide
    entryParams := by
      intro entry hentry
      obtain rfl := some.inj hentry
      rfl
    paramsNodup := nodup_nil
    shape := by
      intro entry hentry
      simp only [sumFunc, mem_cons, not_mem_nil, or_false] at hentry
      obtain rfl | rfl | rfl := hentry
      · exact ⟨[_], _, rfl, rfl, rfl, by simp [SSA.Instruction.isTerminator,
          SSA.Instruction.isBranching]⟩
      · exact ⟨[], _, rfl, rfl, rfl, by simp⟩
      · exact ⟨[], _, rfl, rfl, rfl, by simp⟩
    targets := by
      intro entry hentry instr hinstr target htarget
      simp only [sumFunc, mem_cons, not_mem_nil, or_false] at hentry
      obtain rfl | rfl | rfl := hentry
      · obtain rfl | hlast := mem_cons.mp hinstr
        · cases htarget
        · obtain rfl := mem_singleton.mp hlast
          obtain rfl | hfalse := mem_cons.mp htarget
          · exact ⟨_, rfl, rfl⟩
          · obtain rfl := mem_singleton.mp hfalse
            exact ⟨_, rfl, rfl⟩
      · obtain rfl := mem_singleton.mp hinstr
        cases htarget
      · obtain rfl := mem_singleton.mp hinstr
        cases htarget
    comparisons := by
      intro entry hentry instr hinstr comparison hcomparison
      simp only [sumFunc, mem_cons, not_mem_nil, or_false] at hentry
      obtain rfl | rfl | rfl := hentry
      · obtain rfl | hlast := mem_cons.mp hinstr
        · cases hcomparison
        · obtain rfl := mem_singleton.mp hlast
          cases hcomparison
          exact ⟨fun _ ↦ rfl, fun hop ↦ by cases hop⟩
      · obtain rfl := mem_singleton.mp hinstr
        cases hcomparison
      · obtain rfl := mem_singleton.mp hinstr
        cases hcomparison
    returns := by
      intro entry hentry instr hinstr hop
      simp only [sumFunc, mem_cons, not_mem_nil, or_false] at hentry
      change instr.operands = []
      obtain rfl | rfl | rfl := hentry
      · obtain rfl | hlast := mem_cons.mp hinstr
        · cases hop
        · obtain rfl := mem_singleton.mp hlast
          cases hop
      · obtain rfl := mem_singleton.mp hinstr
        rfl
      · obtain rfl := mem_singleton.mp hinstr
        rfl
    loadargs := by
      intro entry hentry instr hinstr hop
      simp only [sumFunc, mem_cons, not_mem_nil, or_false] at hentry
      obtain rfl | rfl | rfl := hentry
      · obtain rfl | hlast := mem_cons.mp hinstr
        · cases hop
        · obtain rfl := mem_singleton.mp hlast
          cases hop
      · obtain rfl := mem_singleton.mp hinstr
        cases hop
      · obtain rfl := mem_singleton.mp hinstr
        cases hop
    memory := fun _ _ _ _ ↦ Tidy.nil
    blocksFit := by
      change 3 + 2 < 2 ^ 32
      decide
    localsFit := by
      change 0 + 3 < 2 ^ 32
      decide }
  sizes := by
    intro type w hw
    obtain ⟨hcases, -⟩ := intWidth_cases hw
    change 8 * ((intWidth type).getD 32 / 8) = w
    rw [hw]
    obtain rfl | rfl | rfl | rfl := hcases <;> rfl
  dests := fun _ _ _ _ _ _ _ ↦ rfl
  params := fun _ _ _ _ ↦ rfl

theorem sumFunc_holds :
    Holds (initFunc sumContext sumType [] (sumFunc a)) (sumFunc a) sumEnv sumState :=
  fun _ _ h ↦ by cases h

end Banjo.Target.Wasm
