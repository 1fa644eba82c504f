import Banjo.Passes.PeepholeOptimizer
import Banjo.Passes.Precomputing.Arithmetic

/-!
# Rewritten arithmetic

The optimizer takes an integer instruction with an immediate operand out or puts a shift in its
place, and goes on. What the instruction computes is compared with the value that takes its place,
for operands of any width; a register may hold anything.
-/

open List Option
open BitVec (twoPow toNat_twoPow_of_lt)

namespace Banjo.Passes.PeepholeOptimizer

open SSA

variable {n : ℕ}

/-- What becomes of the current instruction. -/
inductive Rewrite where
  | eliminate (instr : Instruction) (value : Operand)
  | advance (instr : Instruction)

namespace Rewrite

def apply (w : Walk) : Rewrite → Option Walk
  | .eliminate instr value => w.eliminate instr value
  | .advance instr => some (w.advance [instr])

end Rewrite

/-- The instruction or the shift in its place. -/
def shiftOr (instr : Instruction) (opcode : Opcode) (value : BitVec 64)
    (type : SSAType) : Rewrite :=
  if isPowerOfTwo value then
    .advance (shiftInstr instr opcode (instr.getOperand 0) value type)
  else .advance instr

/-- `process_add`, `process_sub`, `process_mul`, `process_sdiv` and `process_udiv`, apart from the
walk. -/
def rewrite (original : Instruction) : Rewrite :=
  let type := (original.getOperand 0).type
  match original.opcode with
  | .ADD =>
    let instr := canonicalize original
    if (instr.getOperand 1).value = .intImmediate 0 then .eliminate instr (instr.getOperand 0)
    else .advance instr
  | .SUB =>
    if (original.getOperand 1).value = .intImmediate 0 then
      .eliminate original (original.getOperand 0)
    else .advance original
  | .MUL =>
    let instr := canonicalize original
    match (instr.getOperand 1).value with
    | .intImmediate immediate =>
      if immediate.toBits = 0 then .eliminate instr ⟨.intImmediate 0, type⟩
      else if immediate.toBits = 1 then .eliminate instr (instr.getOperand 0)
      else shiftOr instr .LSHL immediate.toBits type
    | _ => .advance instr
  | .SDIV | .UDIV =>
    match (original.getOperand 1).value with
    | .intImmediate immediate =>
      if immediate.toBits = 1 then .eliminate original (original.getOperand 0)
      else shiftOr original (if original.opcode = .SDIV then .ASHR else .LSHR) immediate.toBits type
    | _ => .advance original
  | _ => .advance original

def isRewritten (opcode : Opcode) : Bool := opcode ∈ [.ADD, .SUB, .MUL, .SDIV, .UDIV]

theorem dest_canonicalize (instr : Instruction) : (canonicalize instr).dest = instr.dest := by
  rw [canonicalize]
  split_ifs <;> rfl

variable {instr : Instruction} {value : BitVec 64}

theorem apply_shiftOr (w : Walk) {opcode : Opcode} {type : SSAType} (hdest : instr.dest.isSome) :
    (if isPowerOfTwo value then instr.dest.map fun _ ↦
        w.advance [shiftInstr instr opcode (instr.getOperand 0) value type]
      else some (w.advance [instr])) = (shiftOr instr opcode value type).apply w := by
  obtain ⟨dest, hdest⟩ := isSome_iff_exists.mp hdest
  rw [shiftOr, hdest]
  split_ifs <;> rfl

/-- The optimizer processes an integer instruction by its rewrite. -/
theorem process_eq_apply (opt : PeepholeOptimizer) (stack : StackLayout) (w : Walk)
    (hopcode : isRewritten instr.opcode = true) (hdest : instr.dest.isSome) :
    opt.process stack w instr = (rewrite instr).apply w := by
  have hcases : instr.opcode ∈ [Opcode.ADD, .SUB, .MUL, .SDIV, .UDIV] := of_decide_eq_true hopcode
  simp only [mem_cons, not_mem_nil, or_false] at hcases
  have hdest' : (canonicalize instr).dest.isSome := by rwa [dest_canonicalize]
  have hdiv : ∀ opcode, processDiv opcode w instr = Rewrite.apply w
      (match (instr.getOperand 1).value with
      | .intImmediate immediate =>
        if immediate.toBits = 1 then .eliminate instr (instr.getOperand 0)
        else shiftOr instr opcode immediate.toBits (instr.getOperand 0).type
      | _ => .advance instr) := by
    intro opcode
    rw [processDiv]
    cases (instr.getOperand 1).value with
    | intImmediate immediate =>
      simp only [apply_shiftOr w hdest]
      split_ifs <;> rfl
    | _ => rfl
  rcases hcases with h | h | h | h | h <;> simp only [process, rewrite, h]
  · rw [processAdd]
    split_ifs <;> rfl
  · rw [processSub]
    split_ifs <;> rfl
  · rw [processMul]
    cases ((canonicalize instr).getOperand 1).value with
    | intImmediate immediate =>
      simp only [apply_shiftOr w hdest']
      split_ifs <;> rfl
    | _ => rfl
  · exact hdiv .ASHR
  · exact hdiv .LSHR

/-! ## Results -/

section Results

variable (env : VirtualRegister → BitVec n)

def evalOperand (operand : Operand) : Option (BitVec n) :=
  match operand.value with
  | .register reg => some (env reg)
  | .intImmediate immediate => some (immediate.ofWidth n)
  | _ => none

/-- What an instruction on two operands computes, unless it traps. -/
def evalInstr (instr : Instruction) : Option (BitVec n) := do
  let x ← evalOperand env (instr.getOperand 0)
  let y ← evalOperand env (instr.getOperand 1)
  instr.opcode.evalInt x y

def Rewrite.eval : Rewrite → Option (BitVec n)
  | .eliminate _ value => evalOperand env value
  | .advance instr => evalInstr env instr

/-- Something else takes the place of the instruction. -/
def Rewrite.Replaces (instr : Instruction) : Rewrite → Prop
  | .eliminate _ _ => True
  | .advance instr' => instr'.opcode ≠ instr.opcode

/-- The result is the same, and only an instruction that does not trap is replaced. -/
def KeepsResult (instr : Instruction) : Prop :=
  (rewrite instr).eval env = evalInstr env instr ∧
    ((rewrite instr).Replaces instr → evalInstr env instr ≠ none)

end Results

/-- When a power of two may become the count of a shift: `x` is what is multiplied or divided. -/
def PowerSafe (opcode : Opcode) (x : BitVec n) (value : BitVec 64) : Prop :=
  match opcode with
  | .MUL => value.toNat < 2 ^ n
  | .UDIV => 0 < value.toNat ∧ value.toNat < 2 ^ n
  | .SDIV => 0 < value.toNat ∧ value.toNat < 2 ^ n ∧
      (0 ≤ x.toInt ∨ 2 * value.toNat < 2 ^ n ∧ (value.toNat : ℤ) ∣ x.toInt)
  | _ => True

/-- The immediate of the instruction is safe. -/
def RewriteSafe (x : BitVec n) (instr : Instruction) : Prop :=
  ∀ immediate,
    ((if instr.opcode = .MUL then canonicalize instr else instr).getOperand 1).value
      = .intImmediate immediate →
    isPowerOfTwo immediate.toBits = true → PowerSafe instr.opcode x immediate.toBits

/-! ## Powers of two -/

theorem exists_twoPow (h : isPowerOfTwo value = true) (hne : value ≠ 0) :
    ∃ k < 64, value = twoPow 64 k := by
  have hnat : value.toNat ≠ 0 := fun hzero ↦ hne (BitVec.eq_of_toNat_eq hzero)
  have hand : value.toNat &&& (value.toNat - 1) = 0 := by
    have hbits := congrArg BitVec.toNat (of_decide_eq_true h)
    have hone : (1 : BitVec 64) ≤ value := BitVec.le_def.mpr (Nat.one_le_iff_ne_zero.mpr hnat)
    rwa [BitVec.toNat_and, BitVec.toNat_sub_of_le hone] at hbits
  obtain ⟨k, hk⟩ := (Nat.and_sub_one_eq_zero_iff_isPowerOfTwo hnat).mp hand
  have hlt : k < 64 := by
    have h := value.isLt
    rw [hk] at h
    exact (Nat.pow_lt_pow_iff_right (by decide)).mp h
  exact ⟨k, hlt, BitVec.eq_of_toNat_eq (by rw [hk, toNat_twoPow_of_lt hlt])⟩

variable {k : ℕ}

theorem firstBitSet_twoPow (hk : k < 64) :
    firstBitSet (twoPow 64 k) = BitVec.ofNat 64 k := by
  have hne : twoPow 64 k ≠ 0 := by
    intro h
    have hnat := congrArg BitVec.toNat h
    rw [toNat_twoPow_of_lt hk] at hnat
    exact absurd hnat (Nat.two_pow_pos k).ne'
  rw [firstBitSet, if_neg hne, toNat_twoPow_of_lt hk, Nat.log2_two_pow]

theorem setWidth_twoPow (hk : k < 64) : (twoPow 64 k).setWidth n = twoPow n k := by
  rw [← BitVec.toNat_inj, BitVec.toNat_setWidth, toNat_twoPow_of_lt hk, BitVec.toNat_twoPow]

theorem setWidth_one : (1 : BitVec 64).setWidth n = 1#n := by
  rw [← BitVec.toNat_inj, BitVec.toNat_setWidth, BitVec.toNat_ofNat]
  rfl

theorem twoPow_eq_zero (hk : n ≤ k) : twoPow n k = 0 :=
  BitVec.eq_of_toNat_eq (BitVec.toNat_twoPow_of_le hk)

theorem twoPow_ne_zero (hk : k < n) : twoPow n k ≠ 0 := by
  intro h
  have hnat := congrArg BitVec.toNat h
  rw [toNat_twoPow_of_lt hk] at hnat
  exact absurd hnat (Nat.two_pow_pos k).ne'

/-- A division rounds to zero and a shift down. -/
theorem sdiv_twoPow_eq_iff (hn : 2 ≤ n) (hk : k < n) (x : BitVec n) :
    x.sdiv (twoPow n k) = x.sshiftRight k ↔ 0 ≤ x.toInt ∨ k + 1 < n ∧ (2 ^ k : ℤ) ∣ x.toInt := by
  have hpos : (0 : ℤ) < 2 ^ k := by
    exact_mod_cast Nat.two_pow_pos k
  have hdivisor : (twoPow n k).toInt = if k + 1 = n then -2 ^ k else 2 ^ k := by
    rw [BitVec.toInt_twoPow, if_neg (by omega)]
    push_cast
    rfl
  have hne : twoPow n k ≠ -1#n := by
    intro h
    have hnat := congrArg BitVec.toNat h
    rw [toNat_twoPow_of_lt hk, BitVec.neg_one_eq_allOnes, BitVec.toNat_allOnes] at hnat
    have hle : 2 ^ k ≤ 2 ^ (n - 1) := Nat.pow_le_pow_right (by decide) (by omega)
    have htwo : 2 ^ 1 ≤ 2 ^ (n - 1) := Nat.pow_le_pow_right (by decide) (by omega)
    have hsplit : 2 ^ n = 2 * 2 ^ (n - 1) := by rw [← pow_succ', Nat.sub_add_cancel (by omega)]
    omega
  rw [← BitVec.toInt_inj, BitVec.toInt_sdiv_of_ne_or_ne _ _ (Or.inr hne), BitVec.toInt_sshiftRight,
    Int.shiftRight_eq_div_pow, hdivisor]
  push_cast
  by_cases hlast : k + 1 = n
  · rw [if_pos hlast]
    have hlow := BitVec.le_toInt x
    have hhigh := BitVec.toInt_lt (x := x)
    rw [show n - 1 = k by omega] at hlow hhigh
    by_cases hsign : 0 ≤ x.toInt
    · rw [Int.tdiv_neg, Int.tdiv_eq_zero_of_lt hsign hhigh, Int.ediv_eq_zero_of_lt hsign hhigh]
      exact iff_of_true neg_zero (Or.inl hsign)
    · -- the quotient is not negative, and the shifted number is
      have hquotient : 0 ≤ x.toInt.tdiv (-2 ^ k) :=
        Int.tdiv_nonneg_of_nonpos_of_nonpos (by omega) (by omega)
      have hshift : x.toInt / 2 ^ k < 0 := Int.ediv_neg_of_neg_of_pos (by omega) hpos
      exact iff_of_false (by omega) (by omega)
  · rw [if_neg hlast, Int.tdiv_eq_ediv, Int.sign_eq_one_of_pos hpos]
    split_ifs with hexact
    · exact iff_of_true (add_zero _) (hexact.imp_right fun h ↦ ⟨by omega, h⟩)
    · refine iff_of_false (by omega) ?_
      rintro (hsign | ⟨-, hdvd⟩)
      · exact hexact (Or.inl hsign)
      · exact hexact (Or.inr hdvd)

/-! ## Rewrites -/

section Rewrites

variable {env : VirtualRegister → BitVec n} {opcode : Opcode} {dest : VirtualRegister}
  {lhs rhs : Operand} {x y : BitVec n}

/-- An instruction on two operands. -/
def binary (opcode : Opcode) (dest : VirtualRegister) (lhs rhs : Operand) : Instruction where
  opcode := opcode
  dest := some dest
  operands := [lhs, rhs]

theorem evalInstr_binary (hx : evalOperand env lhs = some x) (hy : evalOperand env rhs = some y) :
    evalInstr env (binary opcode dest lhs rhs) = opcode.evalInt x y := by
  have hlhs : evalOperand env ((binary opcode dest lhs rhs).getOperand 0) = some x := hx
  have hrhs : evalOperand env ((binary opcode dest lhs rhs).getOperand 1) = some y := hy
  rw [evalInstr, hlhs, hrhs]
  rfl

theorem canonicalize_binary :
    canonicalize (binary opcode dest lhs rhs) = binary opcode dest lhs rhs ∨
    canonicalize (binary opcode dest lhs rhs) = binary opcode dest rhs lhs := by
  rw [canonicalize]
  split_ifs
  · exact Or.inr rfl
  · exact Or.inl rfl

theorem evalOperand_of_intImmediate {immediate : LargeInt} (h : rhs.value = .intImmediate immediate)
    (hy : evalOperand env rhs = some y) : y = immediate.toBits.setWidth n := by
  rw [evalOperand, h, some.injEq] at hy
  exact hy.symm

variable {instr : Instruction}

variable {type : SSAType}

/-- A shift by the logarithm of a power of two. -/
theorem evalInstr_shiftInstr (hk : k < 64) (hx : evalOperand env lhs = some x) :
    evalInstr env (shiftInstr instr opcode lhs (twoPow 64 k) type)
      = opcode.evalInt x (BitVec.ofNat n k) := by
  have hcount : evalOperand env ⟨.intImmediate ⟨firstBitSet (twoPow 64 k), false⟩, type⟩
      = some (BitVec.ofNat n k) := by
    rw [firstBitSet_twoPow hk, evalOperand, some.injEq, LargeInt.ofWidth,
      LargeInt.toBits_mk_false, ← BitVec.toNat_inj]
    rw [BitVec.toNat_setWidth, BitVec.toNat_ofNat, BitVec.toNat_ofNat,
      Nat.mod_eq_of_lt (show k < 2 ^ 64 by omega)]
  have hlhs : evalOperand env ((shiftInstr instr opcode lhs (twoPow 64 k) type).getOperand 0)
      = some x := hx
  have hrhs : evalOperand env ((shiftInstr instr opcode lhs (twoPow 64 k) type).getOperand 1)
      = some (BitVec.ofNat n k) := hcount
  rw [evalInstr, hlhs, hrhs]
  rfl

theorem toNat_ofNat_of_lt {k : ℕ} (hn : 8 ≤ n) (hk : k < 64) : (BitVec.ofNat n k).toNat = k := by
  have hpow : 2 ^ 8 ≤ 2 ^ n := Nat.pow_le_pow_right (by decide) hn
  rw [BitVec.toNat_ofNat, Nat.mod_eq_of_lt (by omega)]

variable {v : BitVec n}

/-- An instruction that computes something is kept, whatever takes its place, if the value is. -/
theorem keepsResult_iff_of_eq (h : evalInstr env instr = some v) :
    KeepsResult env instr ↔ (rewrite instr).eval env = some v := by
  rw [KeepsResult, h]
  exact and_iff_left fun _ ↦ some_ne_none v

/-- The operands of a sum or a product may be swapped. -/
theorem canonicalize_spec (hx : evalOperand env lhs = some x) (hy : evalOperand env rhs = some y)
    (hcomm : opcode.evalInt x y = opcode.evalInt y x) :
    ∃ l r x' y', canonicalize (binary opcode dest lhs rhs) = binary opcode dest l r ∧
      evalOperand env l = some x' ∧ evalOperand env r = some y' ∧
      opcode.evalInt x y = opcode.evalInt x' y' := by
  have hor : canonicalize (binary opcode dest lhs rhs) = binary opcode dest lhs rhs ∨
      canonicalize (binary opcode dest lhs rhs) = binary opcode dest rhs lhs := canonicalize_binary
  rcases hor with h | h
  · exact ⟨lhs, rhs, x, y, h, hx, hy, rfl⟩
  · exact ⟨rhs, lhs, y, x, h, hy, hx, hcomm⟩

theorem rewrite_add (h : canonicalize (binary .ADD dest lhs rhs) = instr) :
    rewrite (binary .ADD dest lhs rhs) =
      if (instr.getOperand 1).value = .intImmediate 0 then .eliminate instr (instr.getOperand 0)
      else .advance instr := by
  rw [← h]
  rfl

theorem rewrite_mul (h : canonicalize (binary .MUL dest lhs rhs) = instr) :
    rewrite (binary .MUL dest lhs rhs) =
      match (instr.getOperand 1).value with
      | .intImmediate immediate =>
        if immediate.toBits = 0 then .eliminate instr ⟨.intImmediate 0, lhs.type⟩
        else if immediate.toBits = 1 then .eliminate instr (instr.getOperand 0)
        else shiftOr instr .LSHL immediate.toBits lhs.type
      | _ => .advance instr := by
  rw [← h]
  rfl

theorem evalOperand_zero (h : rhs.value = .intImmediate 0) (hy : evalOperand env rhs = some y) :
    y = 0 := by
  rw [evalOperand_of_intImmediate h hy, LargeInt.toBits_zero]
  exact BitVec.setWidth_zero ..

/-- A zero on the right of a sum or a difference is taken out. -/
theorem eval_of_zero (h : instr = binary opcode dest lhs rhs)
    (hzero : opcode.evalInt x 0 = some x) (hx : evalOperand env lhs = some x)
    (hy : evalOperand env rhs = some y) :
    (if (instr.getOperand 1).value = .intImmediate 0 then Rewrite.eliminate instr
      (instr.getOperand 0)
      else .advance instr).eval env = opcode.evalInt x y := by
  subst h
  split_ifs with hrhs
  · rw [evalOperand_zero hrhs hy, hzero]
    exact hx
  · exact evalInstr_binary hx hy

theorem keepsResult_add (hx : evalOperand env lhs = some x) (hy : evalOperand env rhs = some y) :
    KeepsResult env (binary .ADD dest lhs rhs) := by
  have hcomm : Opcode.ADD.evalInt x y = Opcode.ADD.evalInt y x :=
    congrArg some (BitVec.add_comm x y)
  obtain ⟨l, r, x', y', hcanonical, hl, hr, heq⟩ := canonicalize_spec hx hy hcomm
  rw [keepsResult_iff_of_eq ((evalInstr_binary hx hy).trans heq), rewrite_add hcanonical]
  exact eval_of_zero rfl (congrArg some (BitVec.add_zero x')) hl hr

theorem keepsResult_sub (hx : evalOperand env lhs = some x) (hy : evalOperand env rhs = some y) :
    KeepsResult env (binary .SUB dest lhs rhs) := by
  rw [keepsResult_iff_of_eq (evalInstr_binary hx hy)]
  exact eval_of_zero rfl (congrArg some (BitVec.sub_zero x)) hx hy

/-- A shift in the place of an instruction computes the same exactly if its count is below the
width and it shifts to the same value. -/
theorem eval_shiftOr_iff {shift : Opcode} {value : BitVec 64}
    {shifted : ℕ → BitVec n} (hx : evalOperand env lhs = some x)
    (hinstr : evalInstr env (binary opcode dest lhs rhs) = some v) (hvalue : value ≠ 0)
    (hshift : ∀ k < 64, shift.evalInt x (BitVec.ofNat n k) = if k < n then some
      (shifted k) else none) :
    (shiftOr (binary opcode dest lhs rhs) shift value type).eval env = some v ↔
      (isPowerOfTwo value = true → value.toNat < 2 ^ n ∧ shifted value.toNat.log2 = v) := by
  rw [shiftOr]
  split_ifs with hpower
  · obtain ⟨k, hk, rfl⟩ := exists_twoPow hpower hvalue
    have heval : (Rewrite.advance (shiftInstr (binary opcode dest lhs rhs) shift
        ((binary opcode dest lhs rhs).getOperand 0) (twoPow 64 k) type)).eval env
        = shift.evalInt x (BitVec.ofNat n k) := evalInstr_shiftInstr hk hx
    rw [heval, hshift k hk, toNat_twoPow_of_lt hk, Nat.log2_two_pow,
      Nat.pow_lt_pow_iff_right (by decide)]
    split_ifs with hlt
    · simp [hlt, hpower]
    · simp [hlt, hpower]
  · exact iff_of_true hinstr fun h ↦ absurd h hpower

theorem evalInt_shift (hn : 8 ≤ n) (x : BitVec n) {k : ℕ} (hk : k < 64) :
    Opcode.LSHL.evalInt x (BitVec.ofNat n k) = (if k < n then some (x <<< k) else none) ∧
    Opcode.LSHR.evalInt x (BitVec.ofNat n k) = (if k < n then some (x >>> k) else none) ∧
    Opcode.ASHR.evalInt x (BitVec.ofNat n k)
      = (if k < n then some (x.sshiftRight k) else none) := by
  simp only [Opcode.evalInt, toNat_ofNat_of_lt hn hk, and_self]

theorem keepsResult_mul_iff (hn : 8 ≤ n) (hx : evalOperand env lhs = some x)
    (hy : evalOperand env rhs = some y) :
    KeepsResult env (binary .MUL dest lhs rhs) ↔ RewriteSafe x (binary .MUL dest lhs rhs) := by
  have hcomm : Opcode.MUL.evalInt x y = Opcode.MUL.evalInt y x :=
    congrArg some (BitVec.mul_comm x y)
  obtain ⟨l, r, x', y', hcanonical, hl, hr, heq⟩ := canonicalize_spec hx hy hcomm
  have hinstr : evalInstr env (binary .MUL dest l r) = some (x' * y') := evalInstr_binary hl hr
  have hsafe : RewriteSafe x (binary .MUL dest lhs rhs) ↔ ∀ immediate,
      r.value = .intImmediate immediate → isPowerOfTwo immediate.toBits = true →
        immediate.toBits.toNat < 2 ^ n := by
    change (∀ immediate, ((canonicalize (binary .MUL dest lhs rhs)).getOperand
      1).value = _ → _ → _) ↔ _
    rw [hcanonical]
    rfl
  rw [keepsResult_iff_of_eq ((evalInstr_binary hx hy).trans heq), rewrite_mul hcanonical, hsafe]
  have hoperand : ((binary .MUL dest l r).getOperand 1).value = r.value := rfl
  rw [hoperand]
  cases hvalue : r.value with
  | intImmediate immediate =>
    have hy' := evalOperand_of_intImmediate hvalue hr
    have hpow : 2 ^ 8 ≤ 2 ^ n := Nat.pow_le_pow_right (by decide) hn
    simp only [Value.intImmediate.injEq, forall_eq']
    split_ifs with hzero hone
    · rw [hzero] at hy' ⊢
      refine iff_of_true ?_ fun _ ↦ Nat.two_pow_pos n
      have hy0 : y' = 0#n := hy'.trans (BitVec.setWidth_zero ..)
      rw [hy0, BitVec.mul_zero]
      exact congrArg some (BitVec.setWidth_zero ..)
    · rw [hone] at hy' ⊢
      refine iff_of_true ?_ fun _ ↦ (show 1 < 2 ^ n by omega)
      have hy1 : y' = 1#n := hy'.trans setWidth_one
      rw [hy1, BitVec.mul_one]
      exact hl
    · rw [eval_shiftOr_iff hl hinstr hzero fun k hk ↦ (evalInt_shift hn x' hk).1]
      refine imp_congr_right fun hpower ↦ and_iff_left ?_
      obtain ⟨k, hk, hvalue'⟩ := exists_twoPow hpower hzero
      rw [hy', hvalue', setWidth_twoPow hk, BitVec.mul_twoPow_eq_shiftLeft, toNat_twoPow_of_lt hk,
        Nat.log2_two_pow]
  | _ =>
    refine iff_of_true hinstr fun _ h ↦ ?_
    cases h

/-- A division by an immediate: `shifted` is what the shift in its place computes. -/
theorem keepsResult_div_iff (shift : Opcode) (quotient : BitVec n → BitVec n)
    (shifted : ℕ → BitVec n) (safe : ℕ → Prop) (hn : 8 ≤ n) (hx : evalOperand env lhs = some x)
    (hy : evalOperand env rhs = some y)
    (hrewrite : rewrite (binary opcode dest lhs rhs) =
      match rhs.value with
      | .intImmediate immediate =>
        if immediate.toBits = 1 then .eliminate (binary opcode dest lhs rhs) lhs
        else shiftOr (binary opcode dest lhs rhs) shift immediate.toBits lhs.type
      | _ => .advance (binary opcode dest lhs rhs))
    (heval : opcode.evalInt x y = if y = 0 then none else some (quotient y))
    (hone : quotient 1#n = x) (hsafeOne : safe 0) (hne : shift ≠ opcode)
    (hshift : ∀ k < 64, shift.evalInt x (BitVec.ofNat n k) = if k < n then some
      (shifted k) else none)
    (hquotient : ∀ k < n, quotient (twoPow n k) = shifted k ↔ safe k) :
    KeepsResult env (binary opcode dest lhs rhs) ↔
      ∀ immediate, rhs.value = .intImmediate immediate → isPowerOfTwo immediate.toBits = true →
        0 < immediate.toBits.toNat ∧ immediate.toBits.toNat < 2 ^ n ∧
          safe immediate.toBits.toNat.log2 := by
  have hinstr : evalInstr env (binary opcode dest lhs rhs)
      = if y = 0 then none else some (quotient y) := (evalInstr_binary hx hy).trans heval
  have hpow : 2 ^ 8 ≤ 2 ^ n := Nat.pow_le_pow_right (by decide) hn
  rw [KeepsResult, hrewrite]
  cases hvalue : rhs.value with
  | intImmediate immediate =>
    have hy' := evalOperand_of_intImmediate hvalue hy
    simp only [Value.intImmediate.injEq, forall_eq']
    by_cases hbits : immediate.toBits = 1
    · have hy1 : y = 1#n := by rw [hy', hbits, setWidth_one]
      have hy0 : y ≠ 0 := by
        rw [hy1, ← BitVec.twoPow_zero]
        exact twoPow_ne_zero (by omega)
      rw [if_pos hbits, hinstr, if_neg hy0, hy1, hone, hbits]
      refine iff_of_true ⟨hx, fun _ ↦ some_ne_none x⟩ fun _ ↦ ⟨by decide, ?_, hsafeOne⟩
      exact (show 1 < 2 ^ n by omega)
    · rw [if_neg hbits]
      by_cases hzero : immediate.toBits = 0
      · -- a division by zero becomes a shift
        have hy0 : y = 0 := by
          rw [hy', hzero]
          exact BitVec.setWidth_zero ..
        have hnone : evalInstr env (binary opcode dest lhs rhs) = none := by rw [hinstr, if_pos hy0]
        rw [hzero, hnone]
        refine iff_of_false ?_ ?_
        · rintro ⟨-, hreplaces⟩
          exact hreplaces hne rfl
        · exact fun h ↦ absurd (h rfl).1 (by decide)
      · have hpos : 0 < immediate.toBits.toNat := by
          rw [Nat.pos_iff_ne_zero]
          exact fun h ↦ hzero (BitVec.eq_of_toNat_eq h)
        by_cases hpower : isPowerOfTwo immediate.toBits = true
        · obtain ⟨k, hk, hvalue'⟩ := exists_twoPow hpower hzero
          have hyk : y = twoPow n k := by rw [hy', hvalue', setWidth_twoPow hk]
          have hreplaces : (shiftOr (binary opcode dest lhs rhs) shift immediate.toBits
              lhs.type).Replaces (binary opcode dest lhs rhs) := by
            rw [shiftOr, if_pos hpower]
            exact hne
          rw [imp_iff_right hreplaces, imp_iff_right hpower, and_iff_right hpos]
          by_cases hlt : k < n
          · have hsome : evalInstr env (binary opcode dest lhs rhs)
                = some (quotient (twoPow n k)) := by
              rw [hinstr, hyk, if_neg (twoPow_ne_zero hlt)]
            rw [hsome, eval_shiftOr_iff hx hsome hzero hshift, imp_iff_right hpower, hvalue',
              toNat_twoPow_of_lt hk, Nat.log2_two_pow, eq_comm, hquotient k hlt]
            exact and_iff_left (some_ne_none _)
          · have hnone : evalInstr env (binary opcode dest lhs rhs) = none := by
              rw [hinstr, hyk, if_pos (twoPow_eq_zero (Nat.le_of_not_lt hlt))]
            rw [hnone, hvalue', toNat_twoPow_of_lt hk, Nat.pow_lt_pow_iff_right (by decide)]
            exact iff_of_false (fun h ↦ h.2 rfl) fun h ↦ hlt h.1
        · rw [shiftOr, if_neg hpower]
          exact iff_of_true ⟨rfl, fun h ↦ absurd rfl h⟩ fun h ↦ absurd h hpower
  | _ =>
    refine iff_of_true ⟨rfl, fun h ↦ absurd rfl h⟩ fun _ h ↦ ?_
    cases h

theorem keepsResult_udiv_iff (hn : 8 ≤ n) (hx : evalOperand env lhs = some x)
    (hy : evalOperand env rhs = some y) :
    KeepsResult env (binary .UDIV dest lhs rhs) ↔ RewriteSafe x (binary .UDIV dest lhs rhs) := by
  rw [keepsResult_div_iff .LSHR (x / ·) (x >>> ·)
    (fun _ ↦ True) hn hx hy rfl rfl BitVec.udiv_one trivial (by decide)
    (fun k hk ↦ (evalInt_shift hn x hk).2.1) fun k hk ↦ iff_true_intro
    (BitVec.udiv_twoPow_eq_of_lt hk)]
  simp only [and_true]
  rfl

theorem keepsResult_sdiv_iff (hn : 8 ≤ n) (hx : evalOperand env lhs = some x)
    (hy : evalOperand env rhs = some y) :
    KeepsResult env (binary .SDIV dest lhs rhs) ↔ RewriteSafe x (binary .SDIV dest lhs rhs) := by
  rw [keepsResult_div_iff .ASHR x.sdiv x.sshiftRight
    (fun k ↦ 0 ≤ x.toInt ∨ k + 1 < n ∧ (2 ^ k : ℤ) ∣ x.toInt) hn hx hy rfl rfl
    BitVec.sdiv_one (Or.inr ⟨by omega, one_dvd _⟩) (by decide)
    (fun k hk ↦ (evalInt_shift hn x hk).2.2) fun k hk ↦ sdiv_twoPow_eq_iff (by omega) hk x]
  refine forall_congr' fun immediate ↦ imp_congr_right fun _ ↦ imp_congr_right fun hpower ↦ ?_
  refine and_congr_right fun hpos ↦ and_congr_right fun _ ↦ or_congr_right ?_
  obtain ⟨k, hk, hvalue⟩ := exists_twoPow hpower fun h ↦ by
    rw [h] at hpos
    exact absurd hpos (by decide)
  rw [hvalue, toNat_twoPow_of_lt hk, Nat.log2_two_pow, ← pow_succ',
    Nat.pow_lt_pow_iff_right (by decide)]
  push_cast
  rfl

/-- **When a rewrite is right**: the optimizer replaces a sum, a product or a division by what
computes the same for the operands exactly when a power of two on the right is below `2 ^ n`, a
divisor among them is not zero, and a signed dividend is not negative or, unless the divisor is
`2 ^ (n - 1)`, divided without a remainder. -/
theorem rewrite_right_iff (opt : PeepholeOptimizer) (stack : StackLayout) (w : Walk) (hn : 8 ≤ n)
    (hopcode : isRewritten opcode = true) (hx : evalOperand env lhs = some x)
    (hy : evalOperand env rhs = some y) :
    opt.process stack w (binary opcode dest lhs rhs)
        = (rewrite (binary opcode dest lhs rhs)).apply w ∧
      (KeepsResult env (binary opcode dest lhs rhs) ↔
        RewriteSafe x (binary opcode dest lhs rhs)) := by
  refine ⟨process_eq_apply opt stack w hopcode rfl, ?_⟩
  have hcases : opcode ∈ [Opcode.ADD, .SUB, .MUL, .SDIV, .UDIV] := of_decide_eq_true hopcode
  simp only [mem_cons, not_mem_nil, or_false] at hcases
  rcases hcases with rfl | rfl | rfl | rfl | rfl
  · exact iff_of_true (keepsResult_add hx hy) fun _ _ _ ↦ trivial
  · exact iff_of_true (keepsResult_sub hx hy) fun _ _ _ ↦ trivial
  · exact keepsResult_mul_iff hn hx hy
  · exact keepsResult_sdiv_iff hn hx hy
  · exact keepsResult_udiv_iff hn hx hy

end Rewrites

/-- An optimizer for a module without structures and functions. -/
def plain : PeepholeOptimizer where
  fp := Precomputing.noFloats
  layout := ⟨fun _ ↦ 8, fun _ _ ↦ 0⟩
  registerSize := 8
  structs := ⟨fun _ ↦ [], fun _ ↦ false, fun _ ↦ 0, @StructTable.nested_nil⟩
  externFuncName _ := ""
  externalFunctions := []
  stringSize _ := none

/-- A walk at its only instruction. -/
def Walk.single (instr : Instruction) : Walk where
  visited := []
  id := 0
  paramRegs := []
  paramTypes := []
  done := []
  rest := [instr]
  later := []
  lastVirtualReg := 2
  stackValues _ := none

/-- `%0 / 4` in a byte with a sign. -/
def quarter : Instruction :=
  binary .SDIV 1 ⟨.register 0, Primitive.I8⟩ ⟨.intImmediate ⟨4, false⟩, Primitive.I8⟩

/-- `8 / 4` is a shift. -/
theorem rewrite_right_iff_quarter :
    plain.process {} (.single quarter) quarter = (rewrite quarter).apply (.single quarter) ∧
      (KeepsResult (fun _ ↦ 8#8) quarter ↔ RewriteSafe 8#8 quarter) :=
  rewrite_right_iff plain {} (.single quarter) le_rfl rfl rfl rfl

/-- `-7 / 4` is `-1`, and the shift in its place computes `-2`. -/
theorem not_keepsResult_negative : ¬∀ (n : ℕ) (env : VirtualRegister → BitVec n) (opcode : Opcode)
    (dest : VirtualRegister) (lhs rhs : Operand) (x y : BitVec n), n ∈ [8, 16, 32, 64] →
    isRewritten opcode = true → evalOperand env lhs = some x → evalOperand env rhs = some y →
    KeepsResult env (binary opcode dest lhs rhs) := by
  intro h
  have hkeeps := h 8 (fun _ ↦ -7#8) .SDIV 1 ⟨.register 0, Primitive.I8⟩
    ⟨.intImmediate ⟨4, false⟩, Primitive.I8⟩ (-7#8) 4#8 (by decide) rfl rfl rfl
  exact absurd hkeeps.1 (by decide)

end Banjo.Passes.PeepholeOptimizer
