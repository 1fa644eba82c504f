import Banjo.Lib.MovedBytes
import Banjo.Passes.PeepholeOptimizer

/-!
# Calls of the C library

The optimizer knows `memcpy`, `memmove` and `strlen` by their names. A call of the first two with a
size that is an immediate becomes a `LOAD` and a `STORE` or a `COPY`, of the lower 32 bits of the
size. The `LOAD` and the `STORE` are not looked at again, so that a value is still remembered for a
member they write to. A call of `strlen` with a global becomes the size of its string without the
last byte, wherever the first NUL is, and there has to be a string.
-/

open List Option

namespace Banjo.Passes.PeepholeOptimizer

open SSA PassUtils StackLayout

variable (opt : PeepholeOptimizer) (stack : StackLayout) (M : WordMachine)

/-! ## What the calls do -/

inductive LibraryFunc where
  | memcpy | memmove | strlen
  deriving DecidableEq, Repr

def libraryFunc (instr : Instruction) : Option LibraryFunc :=
  match (instr.getOperand 0).value with
  | .externFunc callee =>
    if opt.externFuncName callee = "memcpy" then some .memcpy
    else if opt.externFuncName callee = "memmove" then some .memmove
    else if opt.externFuncName callee = "strlen" then some .strlen
    else none
  | _ => none

/-- The memory after a call that moves bytes. -/
def movedByCall (env : VirtualRegister → BitVec 64) (instr : Instruction) (mem : Memory) : Memory :=
  mem.moved (M.value env (instr.getOperand 1)) (M.value env (instr.getOperand 2))
    (M.value env (instr.getOperand 3)).toNat

/-- The number of bytes before the first NUL. -/
structure IsStringLength (mem : Memory) (addr : Address) (length : ℕ) : Prop where
  lt : length < 2 ^ 64
  nul : mem (addr + BitVec.ofNat 64 length) = 0
  before : ∀ i < length, mem (addr + BitVec.ofNat 64 i) ≠ 0

/-! ## What takes their place -/

/-- From any memory the instructions move what the call does, and they keep the registers. -/
def Moves (w : Walk) (env : VirtualRegister → BitVec 64) (instr : Instruction)
    (code : List Instruction) : Prop :=
  ∀ states, M.Trace code states → (states 0).env = env →
    (states code.length).mem = movedByCall M env instr (states 0).mem ∧
      ∀ reg < w.lastVirtualReg, (states code.length).env reg = env reg

/-- Nothing is remembered for a member that the call changes in some memory. -/
def NothingStale (w : Walk) (env : VirtualRegister → BitVec 64) (instr : Instruction) : Prop :=
  ∀ member ∈ stack.slots.flatMap Prod.snd, (w.stackValues member.index).isSome = true →
    ∀ mem a, Memory.Within (env member.slot + member.offset.setWidth 64)
      (M.layout.size member.type) a → movedByCall M env instr mem a = mem a

/-- A call that moves bytes is kept, perhaps as one of the other function, or it is replaced by
instructions that the walk is done with, or by ones that it is still to look at. -/
inductive RightMove (w w' : Walk) (env : VirtualRegister → BitVec 64) (instr : Instruction) : Prop
  | kept : w' = w.advance [instr] → RightMove w w' env instr
  | renamed (callee : FuncId) : opt.externFuncName callee = "memcpy" →
      w' = w.advance [{ instr with
        operands := instr.operands.set 0 ⟨.externFunc callee, Primitive.VOID⟩ }] →
      RightMove w w' env instr
  | done (code : List Instruction) : w'.done = w.done ++ code → w'.rest = w.rest.tail →
      Moves M w env instr code → NothingStale stack M w' env instr → RightMove w w' env instr
  | pending (code : Instruction) : w'.done = w.done → w'.rest = code :: w.rest.tail →
      Moves M w env instr [code] →
      (∀ w'', opt.step stack w' = some w'' → ∀ index, w''.stackValues index = none) →
      RightMove w w' env instr

/-- The constant for a string of some number of bytes. -/
def lengthOperand (size : ℕ) : Operand :=
  ⟨.intImmediate ⟨((BitVec.ofNat 64 size - 1).setWidth 32).setWidth 64, false⟩, Primitive.U64⟩

/-- The call is kept, or its result is replaced by the length of the string if there is one. -/
def RightLength (w w' : Walk) (s : BlockState) (instr : Instruction) : Prop :=
  w' = w.advance [instr] ∨ ∃ global size, (instr.getOperand 1).value = .global global ∧
    opt.stringSize global = some size ∧ w.eliminate instr (lengthOperand size) = some w' ∧
    ∀ length, IsStringLength s.mem (M.value s.env (instr.getOperand 1)) length →
      M.value s.env (lengthOperand size) = BitVec.ofNat 64 length

/-- The optimizer does not fail at a call, and what takes its place does what the function does. -/
def RightCall (w : Walk) (s : BlockState) (instr : Instruction) : Prop :=
  ∃ w', opt.processCall stack w instr = some w' ∧
    match opt.libraryFunc instr with
    | some .memcpy | some .memmove => RightMove opt stack M w w' s.env instr
    | some .strlen => RightLength opt M w w' s instr
    | none => w' = w.advance [instr]

/-! ## When this is right -/

/-- The form of the calls that are looked at. -/
def IsMove (instr : Instruction) : Prop :=
  instr.operands.length = 4 ∧ instr.dest = none ∧ (instr.getOperand 1).value.isRegister = true ∧
    (instr.getOperand 2).value.isRegister = true

instance (instr : Instruction) : Decidable (IsMove instr) := inferInstanceAs (Decidable (_ ∧ _))

/-- The bytes are moved to where they are, or the size has 32 bits and, if the move becomes a `LOAD`
and a `STORE`, is of bytes for which nothing is remembered. -/
def MoveFits (w : Walk) (env : VirtualRegister → BitVec 64) (instr : Instruction)
    (size : LargeInt) : Prop :=
  let dst := M.value env (instr.getOperand 1)
  dst = M.value env (instr.getOperand 2) ∨
    size.magnitude.toNat < 2 ^ 32 ∧
      (size.magnitude.toNat < opt.registerSize → size.magnitude.toNat ∈ [1, 2, 4, 8] →
        ∀ member ∈ stack.slots.flatMap Prod.snd, (w.stackValues member.index).isSome = true →
          ∀ a, Memory.Within (env member.slot + member.offset.setWidth 64)
            (M.layout.size member.type) a → ¬Memory.Within dst size.magnitude.toNat a)

def MemcpyCondition (w : Walk) (env : VirtualRegister → BitVec 64) (instr : Instruction) : Prop :=
  IsMove instr → ∀ size, (instr.getOperand 3).value = .intImmediate size → size.negative = false →
    MoveFits opt stack M w env instr size

/-- The size is no number with a fraction, the pointers can be followed, and `memcpy` is declared if
it takes the place of `memmove`. -/
def MemmoveCondition (w : Walk) (env : VirtualRegister → BitVec 64) (instr : Instruction) : Prop :=
  IsMove instr → (∀ immediate, (instr.getOperand 3).value ≠ .fpImmediate immediate) ∧
    ∀ dst src size, (instr.getOperand 1).value = .register dst →
      (instr.getOperand 2).value = .register src →
      (instr.getOperand 3).value = .intImmediate size →
      ∃ nonOverlapping, stack.isNonOverlapping opt.layout w.func dst src
          (size.magnitude.setWidth 32) = some nonOverlapping ∧
        (nonOverlapping = true →
          (∃ f ∈ opt.externalFunctions, opt.externFuncName f = "memcpy") ∧
          (size.negative = false → MoveFits opt stack M w env instr size))

/-- Where the last byte of a string is. -/
def lastByte (size : ℕ) : ℕ := ((BitVec.ofNat 64 size - 1).setWidth 32).toNat

/-- A global whose length is asked for has a string, in which the first NUL is the last byte. -/
def StrlenCondition (s : BlockState) (instr : Instruction) : Prop :=
  instr.operands.length = 2 → instr.dest ≠ none → ∀ global,
    (instr.getOperand 1).value = .global global → ∃ size, opt.stringSize global = some size ∧
      ∀ length, IsStringLength s.mem (M.value s.env (instr.getOperand 1)) length →
        length = lastByte size

def CallCondition (w : Walk) (s : BlockState) (instr : Instruction) : Prop :=
  match opt.libraryFunc instr with
  | some .memcpy => MemcpyCondition opt stack M w s.env instr
  | some .memmove => MemmoveCondition opt stack M w s.env instr
  | some .strlen => StrlenCondition opt M s instr
  | none => True

/-! ## Straight code -/

section Effects

variable {opt stack M} {w : Walk} {env : VirtualRegister → BitVec 64} {instr : Instruction}

/-- One state an instruction may leave. -/
def perform (M : WordMachine) (s : BlockState) (instr : Instruction) : BlockState where
  env reg := if instr.dest = some reg then (M.result s instr).getD 0 else s.env reg
  mem := (M.stored s instr).getD s.mem

theorem performs_perform (s : BlockState) (instr : Instruction) :
    M.Performs instr s (perform M s instr) where
  env reg h := if_neg h
  dest reg word hdest hword := by
    have henv : (perform M s instr).env reg = (M.result s instr).getD 0 := if_pos hdest
    rw [henv, hword]
    rfl
  mem mem h := by
    rw [perform, h]
    rfl

/-- Instructions can be executed from every state. -/
theorem exists_trace (code : List Instruction) (s : BlockState) :
    ∃ states, M.Trace code states ∧ states 0 = s := by
  refine ⟨fun k ↦ (code.take k).foldl (perform M) s, fun k instr hk ↦ ?_, rfl⟩
  have hnext : code.take (k + 1) = code.take k ++ [instr] := by
    rw [take_add_one, hk]
    rfl
  have hstep : (code.take (k + 1)).foldl (perform M) s
      = perform M ((code.take k).foldl (perform M) s) instr := by
    rw [hnext, foldl_append]
    rfl
  change M.Performs instr _ ((code.take (k + 1)).foldl (perform M) s)
  rw [hstep]
  exact performs_perform _ _

/-- Instructions that move some number of bytes do what the call does if it is the right number, or
if there is nothing to move. -/
theorem moves_iff {code : List Instruction} {size : ℕ}
    (hsize : size ≤ (M.value env (instr.getOperand 3)).toNat)
    (heffect : ∀ states, M.Trace code states → (states 0).env = env →
      (states code.length).mem = (states 0).mem.moved (M.value env (instr.getOperand 1))
        (M.value env (instr.getOperand 2)) size ∧
      ∀ reg < w.lastVirtualReg, (states code.length).env reg = env reg) :
    Moves M w env instr code ↔
      M.value env (instr.getOperand 1) = M.value env (instr.getOperand 2) ∨
        size = (M.value env (instr.getOperand 3)).toNat := by
  have hcongr := @Memory.forall_moved_congr_iff (M.value env (instr.getOperand 1))
    (M.value env (instr.getOperand 2)) _ _ hsize (M.value env (instr.getOperand 3)).isLt.le
  rw [← hcongr]
  constructor
  · intro hmoves mem
    obtain ⟨states, htrace, hstart⟩ := @exists_trace M code ⟨env, mem⟩
    have henv : (states 0).env = env := by rw [hstart]
    have hmem : (states 0).mem = mem := by rw [hstart]
    have hcall := (hmoves states htrace henv).1
    rw [(heffect states htrace henv).1, hmem] at hcall
    exact hcall
  · intro hall states htrace henv
    obtain ⟨hmem, hregs⟩ := heffect states htrace henv
    exact ⟨hmem.trans (hall _), hregs⟩

variable (hbytes : ∀ size, M.layout.size (bytesType size) = size.toNat)

include hbytes

theorem moves_copy_iff {size : BitVec 32}
    (hsize : size.toNat ≤ (M.value env (instr.getOperand 3)).toNat) :
    Moves M w env instr
        [{ opcode := .COPY,
           operands := [instr.getOperand 1, instr.getOperand 2, ⟨.type, bytesType size⟩] }] ↔
      M.value env (instr.getOperand 1) = M.value env (instr.getOperand 2) ∨
        size.toNat = (M.value env (instr.getOperand 3)).toNat := by
  refine moves_iff hsize fun states htrace henv ↦ ?_
  have hcopy := htrace 0 _ rfl
  have hmem := hcopy.mem _ rfl
  refine ⟨?_, fun reg _ ↦ ?_⟩
  · rw [length_singleton, hmem, henv]
    change (states 0).mem.write (M.value env (instr.getOperand 1)) ((states 0).mem.read
      (M.value env (instr.getOperand 2)) (M.layout.size (bytesType size))) = _
    rw [hbytes, Memory.moved]
  · rw [length_singleton, hcopy.env reg (by simp), henv]

/-- The word that is loaded has the bytes that are stored. -/
theorem moves_loadStore_iff {size : BitVec 32}
    (hsize : size.toNat ≤ (M.value env (instr.getOperand 3)).toNat) (hsmall : size.toNat ≤ 8)
    (hfresh : ∀ reg, (instr.getOperand 1).value = .register reg → reg < w.lastVirtualReg) :
    Moves M w env instr
        [{ opcode := .LOAD, dest := some w.lastVirtualReg,
           operands := [⟨.type, bytesType size⟩, instr.getOperand 2] },
         { opcode := .STORE,
           operands := [⟨.register w.lastVirtualReg, bytesType size⟩, instr.getOperand 1] }] ↔
      M.value env (instr.getOperand 1) = M.value env (instr.getOperand 2) ∨
        size.toNat = (M.value env (instr.getOperand 3)).toNat := by
  refine moves_iff hsize fun states htrace henv ↦ ?_
  have hload := htrace 0 _ rfl
  have hstore := htrace 1 _ rfl
  have hkeeps : ∀ reg < w.lastVirtualReg, (states 1).env reg = env reg := by
    intro reg hreg
    rw [hload.env reg fun heq ↦ hreg.ne (some.inj heq).symm, henv]
  have hword : (states 1).env w.lastVirtualReg
      = Memory.ofBytes ((states 0).mem.read (M.value env (instr.getOperand 2)) size.toNat) := by
    rw [← hbytes size, ← henv]
    exact hload.dest _ _ rfl rfl
  have hdst : M.value (states 1).env (instr.getOperand 1) = M.value env (instr.getOperand 1) :=
    WordMachine.value_congr fun reg hreg ↦ hkeeps reg (hfresh reg hreg)
  have hstored : Memory.toBytes ((states 1).env w.lastVirtualReg) size.toNat
      = (states 0).mem.read (M.value env (instr.getOperand 2)) size.toNat := by
    have hlength := (states 0).mem.length_read (M.value env (instr.getOperand 2)) size.toNat
    rw [hword]
    nth_rewrite 2 [← hlength]
    exact Memory.toBytes_ofBytes (hlength.trans_le hsmall)
  refine ⟨?_, fun reg hreg ↦ ?_⟩
  · have hmem : (states 2).mem = (states 1).mem.write (M.value (states 1).env (instr.getOperand 1))
        (Memory.toBytes ((states 1).env w.lastVirtualReg) (M.layout.size (bytesType size))) :=
      hstore.mem _ rfl
    have hload_mem : (states 1).mem = (states 0).mem := hload.mem _ rfl
    change (states 2).mem = _
    rw [hmem, hbytes, hstored, hdst, hload_mem, Memory.moved]
  · change (states 2).env reg = env reg
    rw [hstore.env reg (by simp), hkeeps reg hreg]

end Effects

/-! ## Calls that are kept -/

section Kept

variable {opt stack} {w : Walk} {instr : Instruction}

theorem IsMove.registers (h : IsMove instr) : ∃ dst src,
    (instr.getOperand 1).value = .register dst ∧ (instr.getOperand 2).value = .register src := by
  have hregister : ∀ {value : Value}, value.isRegister = true → ∃ reg, value = .register reg := by
    intro value hvalue
    cases value with
    | register reg => exact ⟨reg, rfl⟩
    | _ => cases hvalue
  obtain ⟨dst, hdst⟩ := hregister h.2.2.1
  obtain ⟨src, hsrc⟩ := hregister h.2.2.2
  exact ⟨dst, src, hdst, hsrc⟩

theorem getOperand_set (instr : Instruction) (callee : Operand) (i : ℕ) :
    ({ instr with operands := instr.operands.set 0 callee } : Instruction).getOperand (i + 1)
      = instr.getOperand (i + 1) := by
  rw [Instruction.getOperand, Instruction.getOperand, getD_eq_getElem?_getD,
    getD_eq_getElem?_getD, getElem?_set_ne (Nat.succ_ne_zero i).symm]

theorem processMemcpy_of_isMove (h : IsMove instr) {size : LargeInt}
    (hsize : (instr.getOperand 3).value = .intImmediate size) :
    opt.processMemcpy w instr = if size.negative then w.advance [instr]
      else opt.expandMemcpy w (instr.getOperand 1) (instr.getOperand 2)
        (size.magnitude.setWidth 32) := by
  obtain ⟨dst, src, hdst, hsrc⟩ := h.registers
  rw [processMemcpy, if_neg (by rw [h.1, h.2.1]; simp), hdst, hsrc, hsize]

/-- A call of another form is kept. -/
theorem processMemcpy_of_not_isMove (h : ¬IsMove instr) :
    opt.processMemcpy w instr = w.advance [instr] := by
  rw [processMemcpy]
  split_ifs with hform
  · rfl
  · push Not at hform
    cases hdst : (instr.getOperand 1).value <;> try rfl
    cases hsrc : (instr.getOperand 2).value <;> try rfl
    refine absurd ⟨hform.1, hform.2, ?_, ?_⟩ h
    · rw [hdst, Value.isRegister]
    · rw [hsrc, Value.isRegister]

theorem processMemcpy_of_not_int (h : ∀ size, (instr.getOperand 3).value ≠ .intImmediate size) :
    opt.processMemcpy w instr = w.advance [instr] := by
  rw [processMemcpy]
  split_ifs with hform
  · rfl
  · cases hdst : (instr.getOperand 1).value <;> try rfl
    cases hsrc : (instr.getOperand 2).value <;> try rfl
    cases hsize : (instr.getOperand 3).value <;> try rfl
    exact absurd hsize (h _)

theorem processMemmove_of_isMove (h : IsMove instr) {dst src : VirtualRegister} {size : LargeInt}
    (hdst : (instr.getOperand 1).value = .register dst)
    (hsrc : (instr.getOperand 2).value = .register src)
    (hsize : (instr.getOperand 3).value = .intImmediate size) :
    opt.processMemmove stack w instr = (stack.isNonOverlapping opt.layout w.func dst src
        (size.magnitude.setWidth 32)).bind fun nonOverlapping ↦
      if nonOverlapping then
        (opt.externalFunctions.find? fun f ↦ opt.externFuncName f = "memcpy").map fun memcpy ↦
          opt.processMemcpy w { instr with
            operands := instr.operands.set 0 ⟨.externFunc memcpy, Primitive.VOID⟩ }
      else some (w.advance [instr]) := by
  rw [processMemmove, if_neg (by rw [h.1, h.2.1]; simp), hdst, hsrc, hsize]

theorem processMemmove_of_not_isMove (h : ¬IsMove instr) :
    opt.processMemmove stack w instr = some (w.advance [instr]) := by
  rw [processMemmove]
  split_ifs with hform
  · rfl
  · push Not at hform
    cases hdst : (instr.getOperand 1).value <;> try rfl
    cases hsrc : (instr.getOperand 2).value <;> try rfl
    refine absurd ⟨hform.1, hform.2, ?_, ?_⟩ h
    · rw [hdst, Value.isRegister]
    · rw [hsrc, Value.isRegister]

end Kept

/-! ## Moves -/

section MoveCalls

variable {opt stack M} {w w' : Walk} {env : VirtualRegister → BitVec 64} {instr : Instruction}

/-- The next turn forgets everything at a `COPY`. -/
theorem stackValues_step_copy {operands rest} (h : w.rest = { opcode := .COPY, operands } :: rest)
    {w' : Walk} (hstep : opt.step stack w = some w') (index : ℕ) : w'.stackValues index = none := by
  have hvisit : opt.step stack w = some (forget (w.advance [{ opcode := .COPY, operands }])) := by
    rw [step, h]
    rfl
  obtain rfl := some.inj (hvisit.symm.trans hstep)
  have hlast : (w.advance [{ opcode := .COPY, operands }]).done.getLast?
      = some { opcode := .COPY, operands } := getLast?_concat
  rw [forget, hlast]
  rfl

theorem ne_advance_of_done (hdone : w'.done = w.done) (one : Instruction) :
    w' ≠ w.advance [one] := by
  rintro rfl
  have hnil : w.done ++ [one] = w.done := hdone
  exact cons_ne_nil _ _ (append_right_eq_self.mp hnil)

/-- What a move that is still to be looked at has to be. -/
theorem rightMove_pending_iff {code : Instruction} (hdone : w'.done = w.done)
    (hrest : w'.rest = code :: w.rest.tail)
    (hforget : ∀ w'', opt.step stack w' = some w'' → ∀ index, w''.stackValues index = none) :
    RightMove opt stack M w w' env instr ↔ Moves M w env instr [code] := by
  constructor
  · intro h
    cases h with
    | kept heq => exact absurd heq (ne_advance_of_done hdone _)
    | renamed callee _ heq => exact absurd heq (ne_advance_of_done hdone _)
    | done code' _ hrest' _ _ =>
      have hlength := congrArg List.length (hrest.symm.trans hrest')
      rw [length_cons] at hlength
      omega
    | pending code' _ hrest' hmoves _ =>
      have hcode := head_eq_of_cons_eq (hrest.symm.trans hrest')
      rwa [hcode]
  · exact fun h ↦ .pending code hdone hrest h hforget

/-- What moves that the walk is done with have to be. There are more than the one call. -/
theorem rightMove_done_iff {code : List Instruction} (hlength : 1 < code.length)
    (hdone : w'.done = w.done ++ code) (hrest : w'.rest = w.rest.tail) :
    RightMove opt stack M w w' env instr ↔
      Moves M w env instr code ∧ NothingStale stack M w' env instr := by
  have hne : ∀ one, w' ≠ w.advance [one] := by
    rintro one rfl
    have hone : w.done ++ [one] = w.done ++ code := hdone
    rw [append_cancel_left_eq] at hone
    rw [← hone, length_singleton] at hlength
    exact lt_irrefl 1 hlength
  constructor
  · intro h
    cases h with
    | kept heq => exact absurd heq (hne _)
    | renamed callee _ heq => exact absurd heq (hne _)
    | done code' hdone' _ hmoves hstale =>
      have hcode := append_cancel_left (hdone.symm.trans hdone')
      exact ⟨hcode ▸ hmoves, hstale⟩
    | pending code' hdone' _ _ _ =>
      have hnil := append_right_eq_self.mp (hdone.symm.trans hdone')
      rw [hnil] at hlength
      exact absurd hlength (by decide)
  · exact fun h ↦ .done code hdone hrest h.1 h.2

/-- What is remembered is of other bytes. -/
theorem nothingStale_iff (h : w'.stackValues = w.stackValues) :
    NothingStale stack M w' env instr ↔
      M.value env (instr.getOperand 1) = M.value env (instr.getOperand 2) ∨
      ∀ member ∈ stack.slots.flatMap Prod.snd, (w.stackValues member.index).isSome = true →
        ∀ a, Memory.Within (env member.slot + member.offset.setWidth 64)
          (M.layout.size member.type) a →
          ¬Memory.Within (M.value env (instr.getOperand 1))
            (M.value env (instr.getOperand 3)).toNat a := by
  have hbyte : ∀ a, (∀ mem, movedByCall M env instr mem a = mem a) ↔
      M.value env (instr.getOperand 1) = M.value env (instr.getOperand 2) ∨
        ¬Memory.Within (M.value env (instr.getOperand 1))
          (M.value env (instr.getOperand 3)).toNat a := fun a ↦ Memory.forall_moved_eq_iff
  rw [NothingStale, h]
  constructor
  · intro hall
    by_cases heq : M.value env (instr.getOperand 1) = M.value env (instr.getOperand 2)
    · exact .inl heq
    · exact .inr fun member hmember hsome a ha ↦
        ((hbyte a).mp fun mem ↦ hall member hmember hsome mem a ha).resolve_left heq
  · rintro (heq | hother) member hmember hsome mem a ha
    · exact (hbyte a).mpr (.inl heq) mem
    · exact (hbyte a).mpr (.inr (hother member hmember hsome a ha)) mem

variable (hbytes : ∀ size, M.layout.size (bytesType size) = size.toNat)
  (hfresh : ∀ reg ∈ instr.uses, reg < w.lastVirtualReg)

include hbytes hfresh

theorem rightMove_expandMemcpy_iff {size : LargeInt}
    (hsize : (instr.getOperand 3).value = .intImmediate size) (hpos : size.negative = false) :
    RightMove opt stack M w
        (opt.expandMemcpy w (instr.getOperand 1) (instr.getOperand 2) (size.magnitude.setWidth 32))
        env instr ↔ MoveFits opt stack M w env instr size := by
  have hvalue : (M.value env (instr.getOperand 3)).toNat = size.magnitude.toNat := by
    rw [WordMachine.value, hsize]
    exact congrArg _ (LargeInt.toBits_of_not_negative hpos)
  have hlow : (size.magnitude.setWidth 32).toNat = size.magnitude.toNat % 2 ^ 32 :=
    BitVec.toNat_setWidth ..
  have hle : (size.magnitude.setWidth 32).toNat ≤ (M.value env (instr.getOperand 3)).toNat := by
    rw [hvalue, hlow]
    exact Nat.mod_le _ _
  have hexact : (size.magnitude.setWidth 32).toNat = (M.value env (instr.getOperand 3)).toNat ↔
      size.magnitude.toNat < 2 ^ 32 := by
    rw [hvalue, hlow]
    exact ⟨fun h ↦ h ▸ Nat.mod_lt _ (by decide), Nat.mod_eq_of_lt⟩
  rw [expandMemcpy, MoveFits]
  by_cases hsmall : (size.magnitude.setWidth 32).toNat < opt.registerSize ∧
      (size.magnitude.setWidth 32).toNat ∈ [1, 2, 4, 8]
  · have hle8 : (size.magnitude.setWidth 32).toNat ≤ 8 := by
      have hmem := hsmall.2
      simp only [List.mem_cons, List.not_mem_nil, or_false] at hmem
      omega
    rw [if_pos hsmall]
    refine (rightMove_done_iff ?_ rfl rfl).trans ?_
    · exact Nat.lt_succ_self 1
    rw [nothingStale_iff rfl, moves_loadStore_iff hbytes hle hle8 fun reg hreg ↦
        hfresh reg (Instruction.mem_uses_of_getOperand hreg), hexact, hvalue]
    by_cases heq : M.value env (instr.getOperand 1) = M.value env (instr.getOperand 2)
    · simp only [heq, true_or, and_self]
    · simp only [heq, false_or]
      refine and_congr_right fun hlt ↦ ?_
      rw [Nat.mod_eq_of_lt hlt] at hlow
      rw [hlow] at hsmall
      exact ⟨fun h _ _ ↦ h, fun h ↦ h hsmall.1 hsmall.2⟩
  · rw [if_neg hsmall]
    let copy : Instruction :=
      { opcode := .COPY,
        operands := [instr.getOperand 1, instr.getOperand 2,
          ⟨.type, bytesType (size.magnitude.setWidth 32)⟩] }
    let w' : Walk := { w with rest := copy :: w.rest.tail }
    have hpending : RightMove opt stack M w w' env instr ↔ Moves M w env instr [copy] :=
      rightMove_pending_iff rfl rfl fun w'' hstep ↦ stackValues_step_copy rfl hstep
    refine hpending.trans ?_
    rw [moves_copy_iff hbytes hle, hexact]
    refine or_congr_right ⟨fun hlt ↦ ⟨hlt, fun hreg hmem ↦ ?_⟩, And.left⟩
    rw [Nat.mod_eq_of_lt hlt] at hlow
    rw [hlow] at hsmall
    exact absurd ⟨hreg, hmem⟩ hsmall

theorem rightMove_processMemcpy_iff :
    RightMove opt stack M w (opt.processMemcpy w instr) env instr ↔
      MemcpyCondition opt stack M w env instr := by
  rw [MemcpyCondition]
  by_cases hmove : IsMove instr
  · rw [forall_prop_of_true hmove]
    cases hvalue : (instr.getOperand 3).value with
    | intImmediate size =>
      rw [processMemcpy_of_isMove hmove hvalue]
      simp only [Value.intImmediate.injEq, forall_eq']
      cases hnegative : size.negative with
      | true => exact iff_of_true (.kept rfl) nofun
      | false =>
        rw [forall_prop_of_true rfl]
        exact rightMove_expandMemcpy_iff hbytes hfresh hvalue hnegative
    | _ =>
      refine iff_of_true (.kept ?_) nofun
      exact processMemcpy_of_not_int fun size hsize ↦ by rw [hvalue] at hsize; cases hsize
  · refine iff_of_true (.kept ?_) fun h ↦ absurd h hmove
    exact processMemcpy_of_not_isMove hmove

/-- What becomes of a `memmove` that may be a `memcpy`. -/
theorem exists_rightMove_renamed_iff (hmove : IsMove instr) {size : LargeInt}
    (hsize : (instr.getOperand 3).value = .intImmediate size) :
    (∃ w', (opt.externalFunctions.find? fun f ↦ opt.externFuncName f = "memcpy").map (fun memcpy ↦
        opt.processMemcpy w { instr with
          operands := instr.operands.set 0 ⟨.externFunc memcpy, Primitive.VOID⟩ }) = some w' ∧
      RightMove opt stack M w w' env instr) ↔
    (∃ f ∈ opt.externalFunctions, opt.externFuncName f = "memcpy") ∧
      (size.negative = false → MoveFits opt stack M w env instr size) := by
  cases hfind : opt.externalFunctions.find? fun f ↦ opt.externFuncName f = "memcpy" with
  | none =>
    refine iff_of_false (by rintro ⟨_, h, _⟩; cases h) fun h ↦ ?_
    obtain ⟨f, hf, hname⟩ := h.1
    exact find?_eq_none.mp hfind f hf (decide_eq_true hname)
  | some memcpy =>
    have hname : opt.externFuncName memcpy = "memcpy" := by
      have hfound := find?_some hfind
      rwa [decide_eq_true_eq] at hfound
    rw [and_iff_right ⟨memcpy, mem_of_find?_eq_some hfind, hname⟩, map_some]
    simp only [some.injEq, exists_eq_left']
    have hmove' : IsMove { instr with
        operands := instr.operands.set 0 ⟨.externFunc memcpy, Primitive.VOID⟩ } := by
      refine ⟨length_set.trans hmove.1, hmove.2.1, ?_, ?_⟩
      · rw [getOperand_set]
        exact hmove.2.2.1
      · rw [getOperand_set]
        exact hmove.2.2.2
    rw [processMemcpy_of_isMove hmove' ((congrArg _ (getOperand_set instr _ 2)).trans hsize)]
    cases hnegative : size.negative with
    | true => exact iff_of_true (.renamed memcpy hname rfl) (by simp)
    | false =>
      rw [forall_prop_of_true rfl, if_neg Bool.false_ne_true, getOperand_set, getOperand_set]
      exact rightMove_expandMemcpy_iff hbytes hfresh hsize hnegative

theorem exists_rightMove_processMemmove_iff :
    (∃ w', opt.processMemmove stack w instr = some w' ∧ RightMove opt stack M w w' env instr) ↔
      MemmoveCondition opt stack M w env instr := by
  have hkept : opt.processMemmove stack w instr = some (w.advance [instr]) →
      ∃ w', opt.processMemmove stack w instr = some w' ∧ RightMove opt stack M w w' env instr :=
    fun h ↦ ⟨_, h, .kept rfl⟩
  rw [MemmoveCondition]
  by_cases hmove : IsMove instr
  · rw [forall_prop_of_true hmove]
    obtain ⟨dst, src, hdst, hsrc⟩ := hmove.registers
    cases hvalue : (instr.getOperand 3).value with
    | intImmediate size =>
      rw [processMemmove_of_isMove hmove hdst hsrc hvalue, hdst, hsrc]
      simp only [Value.intImmediate.injEq, Value.register.injEq, ne_eq, reduceCtorEq,
        not_false_eq_true, implies_true, true_and]
      have hnamed : ∀ P : VirtualRegister → VirtualRegister → LargeInt → Prop,
          (∀ dst' src' size', dst = dst' → src = src' → size = size' → P dst' src' size') ↔
            P dst src size :=
        fun P ↦ ⟨fun h ↦ h _ _ _ rfl rfl rfl, by rintro h _ _ _ rfl rfl rfl; exact h⟩
      rw [hnamed]
      cases stack.isNonOverlapping opt.layout w.func dst src (size.magnitude.setWidth 32) with
      | none => exact iff_of_false (by rintro ⟨_, h, _⟩; cases h) (by rintro ⟨_, h, _⟩; cases h)
      | some nonOverlapping =>
        rw [bind_some]
        simp only [some.injEq, exists_eq_left']
        cases nonOverlapping with
        | false => exact iff_of_true ⟨_, rfl, .kept rfl⟩ (by simp)
        | true =>
          rw [if_pos rfl, forall_prop_of_true rfl]
          exact exists_rightMove_renamed_iff hbytes hfresh hmove hvalue
    | fpImmediate immediate =>
      have hfails : opt.processMemmove stack w instr = none := by
        rw [processMemmove, if_neg (by rw [hmove.1, hmove.2.1]; simp), hdst, hsrc, hvalue]
      rw [hfails]
      exact iff_of_false (by rintro ⟨_, h, _⟩; cases h) fun h ↦ h.1 immediate rfl
    | _ =>
      refine iff_of_true (hkept ?_) ⟨by simp, by simp⟩
      rw [processMemmove, if_neg (by rw [hmove.1, hmove.2.1]; simp), hdst, hsrc, hvalue]
  · exact iff_of_true (hkept (processMemmove_of_not_isMove hmove)) fun h ↦ absurd h hmove

end MoveCalls

/-! ## Lengths of strings -/

section Lengths

variable {opt stack M} {w w' : Walk} {s : BlockState} {instr : Instruction}

theorem value_lengthOperand_iff {env : VirtualRegister → BitVec 64} {size length : ℕ}
    (h : length < 2 ^ 64) :
    M.value env (lengthOperand size) = BitVec.ofNat 64 length ↔ length = lastByte size := by
  have hvalue : (M.value env (lengthOperand size)).toNat = lastByte size := by
    have hlt := ((BitVec.ofNat 64 size - 1).setWidth 32).isLt
    change ((((BitVec.ofNat 64 size - 1).setWidth 32).setWidth 64)).toNat = _
    rw [BitVec.toNat_setWidth, lastByte, Nat.mod_eq_of_lt (by omega)]
  rw [← BitVec.toNat_inj, hvalue, BitVec.toNat_ofNat, Nat.mod_eq_of_lt h]
  exact eq_comm

theorem ne_advance_of_eliminate {value : Operand} (h : w.eliminate instr value = some w') :
    w' ≠ w.advance [instr] := by
  rintro rfl
  rw [Walk.eliminate, map_eq_some_iff] at h
  obtain ⟨dest, -, heq⟩ := h
  have hlength := congrArg (fun w ↦ w.done.length) heq
  simp [Walk.advance, Walk.replaceInFunc, Walk.replaceInBlock] at hlength

theorem exists_rightLength_processStrlen_iff :
    (∃ w', opt.processStrlen w instr = some w' ∧ RightLength opt M w w' s instr) ↔
      StrlenCondition opt M s instr := by
  rw [StrlenCondition, processStrlen]
  by_cases hform : instr.operands.length = 2 ∧ instr.dest ≠ none
  · rw [if_neg (by rw [hform.1]; simpa using hform.2), forall_prop_of_true hform.1,
      forall_prop_of_true hform.2]
    cases hvalue : (instr.getOperand 1).value with
    | global global =>
      simp only [Value.global.injEq, forall_eq']
      cases hsize : opt.stringSize global with
      | none => exact iff_of_false (by rintro ⟨_, h, _⟩; cases h) (by rintro ⟨_, h, _⟩; cases h)
      | some size =>
        obtain ⟨dest, hdest⟩ := Option.ne_none_iff_exists'.mp hform.2
        have heliminate : w.eliminate instr (lengthOperand size)
            = some ((w.replaceInFunc dest (lengthOperand size)).advance []) := by
          rw [Walk.eliminate, hdest]
          rfl
        rw [Option.bind_some]
        change (∃ w', w.eliminate instr (lengthOperand size) = some w' ∧ _) ↔ _
        constructor
        · rintro ⟨w', hw', hkept | ⟨global', size', hglobal', hsize', -, hlength⟩⟩
          · exact absurd hkept (ne_advance_of_eliminate hw')
          · rw [hvalue, Value.global.injEq] at hglobal'
            rw [← hglobal', hsize, Option.some.injEq] at hsize'
            rw [← hsize'] at hlength
            exact ⟨size, rfl, fun length h ↦ (value_lengthOperand_iff h.lt).mp (hlength length h)⟩
        · rintro ⟨size', hsize', hlength⟩
          obtain rfl := Option.some.inj hsize'
          exact ⟨_, heliminate, .inr ⟨global, size, hvalue, hsize, heliminate, fun length h ↦
            (value_lengthOperand_iff h.lt).mpr (hlength length h)⟩⟩
    | _ => exact iff_of_true ⟨_, rfl, .inl rfl⟩ nofun
  · have hkept : instr.operands.length ≠ 2 ∨ instr.dest = none := by
      rwa [not_and_or, not_not] at hform
    rw [if_pos hkept]
    exact iff_of_true ⟨_, rfl, .inl rfl⟩ fun hlength hdest ↦ absurd ⟨hlength, hdest⟩ hform

end Lengths

/-! ## Every call -/

/-- A module with one string, whose functions have one name. -/
def libraryOptimizer (name : String) (size : ℕ) : PeepholeOptimizer where
  fp := ⟨fun x _ ↦ x, fun x _ ↦ x, fun x _ ↦ x, fun x _ ↦ x, id, fun _ _ ↦ false, fun word ↦ ⟨word⟩⟩
  layout := ⟨fun type ↦ type.arrayLength, fun _ _ ↦ 0⟩
  registerSize := 8
  structs := ⟨fun _ ↦ [], fun _ ↦ false, fun _ ↦ 0, @StructTable.nested_nil⟩
  externFuncName _ := name
  externalFunctions := [0]
  stringSize _ := some size

/-- Bytes have the size that they are, and the string is at `0x1000`. -/
def stringMachine : WordMachine where
  layout := ⟨fun type ↦ type.arrayLength, fun _ _ ↦ 0⟩
  symbol _ := 0x1000

/-- `%0 = call strlen, @string`. -/
def strlenCall : Instruction where
  opcode := .CALL
  dest := some 0
  operands := [⟨.externFunc 0, Primitive.VOID⟩, ⟨.global 0, Primitive.ADDR⟩]

def strlenWalk : Walk where
  visited := []
  id := 0
  paramRegs := []
  paramTypes := []
  done := []
  rest := [strlenCall]
  later := []
  lastVirtualReg := 1
  stackValues _ := none

/-- The bytes of a string from `0x1000` on. -/
def stringState (bytes : List (BitVec 8)) : BlockState where
  env _ := 0
  mem a := bytes.getD (a - 0x1000).toNat 0

end Banjo.Passes.PeepholeOptimizer
