import Banjo.Target.Wasm.WasmMcode

/-!
# What WebAssembly code does

A small-step machine for a list of instructions. Entering a block or a loop puts a label on a
stack: where a branch to it goes on (behind the end of a block, at the start of a loop) and the
operands below it. The structured instructions, locals, constants, `I32_ADD`, `SELECT` and the
comparisons have their meaning here; what the other instructions do to the operands and to the
world (memory, globals, other functions) is left to a host.
-/

open List Option

namespace Banjo.Target.Wasm

inductive WVal where
  | i32 (bits : BitVec 32)
  | i64 (bits : BitVec 64)
  | f32 (bits : BitVec 32)
  | f64 (bits : BitVec 64)
  deriving DecidableEq, Repr

/-! ## Comparisons -/

inductive Rel where
  | eq | ne | gt | ge | lt | le
  deriving DecidableEq, Repr

namespace Rel

def int (rel : Rel) (signed : Bool) {w : ℕ} (a b : BitVec w) : Bool :=
  match rel with
  | .eq => a = b
  | .ne => a ≠ b
  | .gt => if signed then b.slt a else b.ult a
  | .ge => if signed then b.sle a else b.ule a
  | .lt => if signed then a.slt b else a.ult b
  | .le => if signed then a.sle b else a.ule b

/-- A number that orders the bits of floating-point numbers as their values are ordered; both zeros
are `0`. -/
def floatKey {w : ℕ} (bits : BitVec w) : ℤ :=
  if bits.msb then 2 ^ (w - 1) - (bits.toNat : ℤ) else bits.toNat

/-- A comparison of floating-point numbers, given the bits of infinity: everything above is a NaN,
which is unequal to everything. -/
def float (rel : Rel) (infinity : ℕ) {w : ℕ} (a b : BitVec w) : Bool :=
  let ordered := (floatKey a).natAbs ≤ infinity && (floatKey b).natAbs ≤ infinity
  match rel with
  | .eq => ordered && floatKey a = floatKey b
  | .ne => !(ordered && floatKey a = floatKey b)
  | .gt => ordered && floatKey b < floatKey a
  | .ge => ordered && floatKey b ≤ floatKey a
  | .lt => ordered && floatKey a < floatKey b
  | .le => ordered && floatKey a ≤ floatKey b

end Rel

/-- Comparing two values of a type. -/
def WVal.compare (type : WasmType) (rel : Rel) (signed : Bool) : WVal → WVal → Option Bool
  | .i32 a, .i32 b => if type = .I32 then some (rel.int signed a b) else none
  | .i64 a, .i64 b => if type = .I64 then some (rel.int signed a b) else none
  | .f32 a, .f32 b => if type = .F32 then some (rel.float 0x7F800000 a b) else none
  | .f64 a, .f64 b => if type = .F64 then some (rel.float 0x7FF0000000000000 a b) else none
  | _, _ => none

/-- The type, the relation and the signedness of a comparison. -/
def WasmOpcode.comparison : WasmOpcode → Option (WasmType × Rel × Bool)
  | .I32_EQ => some (.I32, .eq, false)
  | .I32_NE => some (.I32, .ne, false)
  | .I32_LT_S => some (.I32, .lt, true)
  | .I32_LT_U => some (.I32, .lt, false)
  | .I32_GT_S => some (.I32, .gt, true)
  | .I32_GT_U => some (.I32, .gt, false)
  | .I32_LE_S => some (.I32, .le, true)
  | .I32_LE_U => some (.I32, .le, false)
  | .I32_GE_S => some (.I32, .ge, true)
  | .I32_GE_U => some (.I32, .ge, false)
  | .I64_EQ => some (.I64, .eq, false)
  | .I64_NE => some (.I64, .ne, false)
  | .I64_LT_S => some (.I64, .lt, true)
  | .I64_LT_U => some (.I64, .lt, false)
  | .I64_GT_S => some (.I64, .gt, true)
  | .I64_GT_U => some (.I64, .gt, false)
  | .I64_LE_S => some (.I64, .le, true)
  | .I64_LE_U => some (.I64, .le, false)
  | .I64_GE_S => some (.I64, .ge, true)
  | .I64_GE_U => some (.I64, .ge, false)
  | .F32_EQ => some (.F32, .eq, false)
  | .F32_NE => some (.F32, .ne, false)
  | .F32_LT => some (.F32, .lt, false)
  | .F32_GT => some (.F32, .gt, false)
  | .F32_LE => some (.F32, .le, false)
  | .F32_GE => some (.F32, .ge, false)
  | .F64_EQ => some (.F64, .eq, false)
  | .F64_NE => some (.F64, .ne, false)
  | .F64_LT => some (.F64, .lt, false)
  | .F64_GT => some (.F64, .gt, false)
  | .F64_LE => some (.F64, .le, false)
  | .F64_GE => some (.F64, .ge, false)
  | _ => none

/-! ## Plain instructions -/

structure State (W : Type) where
  locals : ℕ → WVal
  stack : List WVal
  world : W

structure Host (W : Type) where
  /-- The offset from the stack pointer of a place in a stack slot. -/
  stackOffset : ℕ → BitVec 32 → BitVec 32
  /-- What a relocated symbol stands for. -/
  symbol : Symbol → BitVec 32
  /-- The nearest number of single precision. -/
  toF32 : Double → BitVec 32
  /-- What the remaining instructions do to the operands and the world; `none` is a trap. -/
  other : Instruction → List WVal → W → Option (List WVal × W)

variable {W : Type}

namespace State

def push (s : State W) (v : WVal) : State W := { s with stack := v :: s.stack }

def setLocal (s : State W) (i : ℕ) (v : WVal) : State W :=
  { s with locals := Function.update s.locals i v }

def withStack (s : State W) (stack : List WVal) : State W := { s with stack := stack }

end State

/-- The local an operand names, and the label. -/
def Operand.index : Operand → ℕ
  | .intImmediate immediate => immediate.magnitude.toNat
  | _ => 0

namespace Host

def const32 (host : Host W) : Operand → BitVec 32
  | .intImmediate immediate => immediate.toBits.setWidth 32
  | .symbol symbol => host.symbol symbol
  | .stackOffset slot offset => host.stackOffset slot offset
  | .fpImmediate _ => 0

/-- What an instruction does to the operands and the world. -/
def operate (host : Host W) (instr : Instruction) (stack : List WVal) (w : W) :
    Option (List WVal × W) :=
  match instr.opcode, instr.operands with
  | .I32_CONST, [value] => some (.i32 (host.const32 value) :: stack, w)
  | .I64_CONST, [.intImmediate value] => some (.i64 value.toBits :: stack, w)
  | .F32_CONST, [.fpImmediate value] => some (.f32 (host.toF32 value) :: stack, w)
  | .F64_CONST, [.fpImmediate value] => some (.f64 value.bits :: stack, w)
  | .I32_ADD, [] =>
    match stack with
    | .i32 b :: .i32 a :: stack => some (.i32 (a + b) :: stack, w)
    | _ => none
  | .SELECT, [] =>
    match stack with
    | .i32 condition :: b :: a :: stack => some ((if condition = 0 then b else a) :: stack, w)
    | _ => none
  | opcode, _ =>
    match opcode.comparison with
    | some (type, rel, signed) =>
      match stack with
      | b :: a :: stack =>
        (a.compare type rel signed b).map fun holds ↦ (.i32 (if holds then 1 else 0) :: stack, w)
      | _ => none
    | none => host.other instr stack w

/-- An instruction that is not structured. -/
def execPlain (host : Host W) (instr : Instruction) (s : State W) : Option (State W) :=
  match instr.opcode, instr.operands with
  | .LOCAL_GET, [i] => some (s.push (s.locals i.index))
  | .LOCAL_SET, [i] =>
    match s.stack with
    | v :: stack => some ((s.setLocal i.index v).withStack stack)
    | [] => none
  | .LOCAL_TEE, [i] =>
    match s.stack with
    | v :: _ => some (s.setLocal i.index v)
    | [] => none
  | _, _ => (host.operate instr s.stack s.world).map fun (stack, world) ↦ ⟨s.locals, stack, world⟩

/-- Straight-line code. -/
def execAll (host : Host W) (code : List Instruction) (s : State W) : Option (State W) :=
  code.foldlM (fun s instr ↦ host.execPlain instr s) s

end Host

/-! ## Structured instructions -/

def WasmOpcode.opens (opcode : WasmOpcode) : Bool := opcode = .BLOCK || opcode = .LOOP

def WasmOpcode.closes (opcode : WasmOpcode) : Bool := opcode = .END_BLOCK || opcode = .END_LOOP

def WasmOpcode.isPlain (opcode : WasmOpcode) : Bool :=
  !opcode.opens && !opcode.closes &&
    opcode ∉ [WasmOpcode.BR, .BR_IF, .BR_TABLE, .END_FUNCTION]

/-- The code behind the end of the construct some constructs further out. -/
def afterEnd : ℕ → List Instruction → List Instruction
  | _, [] => []
  | depth, instr :: rest =>
    if instr.opcode.opens then afterEnd (depth + 1) rest
    else if instr.opcode.closes then
      match depth with
      | 0 => rest
      | depth + 1 => afterEnd depth rest
    else afterEnd depth rest

structure Label where
  /-- Where a branch to the label goes on. -/
  target : List Instruction
  /-- The operands below the construct. -/
  below : List WVal

/-- The code that is left, the labels of the constructs around it, and the state. -/
structure Config (W : Type) where
  code : List Instruction
  labels : List Label
  state : State W

/-- The function has returned. -/
def Config.Returned (c : Config W) (values : List WVal) (w : W) : Prop :=
  c.code = [⟨.END_FUNCTION, []⟩] ∧ c.labels = [] ∧ c.state.stack = values ∧ c.state.world = w

/-- A branch to the label some labels further out. -/
def branch (labels : List Label) (depth : ℕ) (s : State W) : Option (Config W) :=
  match labels.drop depth with
  | label :: outer => some ⟨label.target, outer, s.withStack label.below⟩
  | [] => none

/-- The label a table of labels has at an index; the last one is the default. -/
def tableLabel (table : List Operand) (i : ℕ) : ℕ :=
  (table[min i (table.length - 1)]?.map Operand.index).getD 0

namespace Host

def step (host : Host W) (c : Config W) : Option (Config W) :=
  match c.code with
  | [] => none
  | instr :: rest =>
    match instr.opcode, instr.operands with
    | .BLOCK, _ => some ⟨rest, ⟨afterEnd 0 rest, c.state.stack⟩ :: c.labels, c.state.withStack []⟩
    | .LOOP, _ => some ⟨rest, ⟨c.code, c.state.stack⟩ :: c.labels, c.state.withStack []⟩
    | .END_BLOCK, _ | .END_LOOP, _ =>
      match c.labels with
      | label :: outer => some ⟨rest, outer, c.state.withStack (c.state.stack ++ label.below)⟩
      | [] => none
    | .BR, [depth] => branch c.labels depth.index c.state
    | .BR_TABLE, table =>
      match c.state.stack with
      | .i32 i :: stack => branch c.labels (tableLabel table i.toNat) (c.state.withStack stack)
      | _ => none
    | .BR, _ | .BR_IF, _ | .END_FUNCTION, _ => none
    | _, _ => (host.execPlain instr c.state).map fun s ↦ ⟨rest, c.labels, s⟩

/-- The runs of the machine. -/
def Runs (host : Host W) : Config W → Config W → Prop :=
  Relation.ReflTransGen fun c c' ↦ host.step c = some c'

/-- Some steps. -/
def iterate (host : Host W) : ℕ → Config W → Option (Config W)
  | 0, c => some c
  | n + 1, c => (host.step c).bind (host.iterate n)

/-! ## Runs -/

variable {host : Host W}

variable {c c' : Config W}

theorem runs_of_iterate {n : ℕ} (h : host.iterate n c = some c') : host.Runs c c' := by
  induction n generalizing c with
  | zero =>
    obtain rfl := some.inj h
    exact .refl
  | succ n ih =>
    obtain ⟨next, hstep, hrest⟩ := bind_eq_some_iff.mp h
    exact .head hstep (ih hrest)

variable {s : State W}

variable {instr : Instruction} {rest : List Instruction}

theorem step_plain {labels : List Label} (h : instr.opcode.isPlain = true) :
    host.step ⟨instr :: rest, labels, s⟩
      = (host.execPlain instr s).map fun s' ↦ ⟨rest, labels, s'⟩ := by
  unfold step
  split
  · rename_i heq
    cases heq
  · rename_i heq
    obtain ⟨rfl, rfl⟩ := cons.inj heq
    split <;> simp_all [WasmOpcode.isPlain, WasmOpcode.opens, WasmOpcode.closes]

theorem execAll_cons :
    host.execAll (instr :: rest) s = (host.execPlain instr s).bind (host.execAll rest) :=
  foldlM_cons

theorem execAll_append {first second : List Instruction} :
    host.execAll (first ++ second) s = (host.execAll first s).bind (host.execAll second) :=
  foldlM_append

/-- Plain code runs to its end. -/
theorem runs_of_execAll {code : List Instruction} (rest : List Instruction) (labels : List Label)
    {s' : State W} (hplain : ∀ instr ∈ code, instr.opcode.isPlain = true)
    (h : host.execAll code s = some s') :
    host.Runs ⟨code ++ rest, labels, s⟩ ⟨rest, labels, s'⟩ := by
  induction code generalizing s with
  | nil =>
    obtain rfl := some.inj h
    exact .refl
  | cons instr code ih =>
    rw [execAll_cons, bind_eq_some_iff] at h
    obtain ⟨next, hfirst, hrest⟩ := h
    refine .head ?_ (ih (fun i hi ↦ hplain i (mem_cons_of_mem _ hi)) hrest)
    rw [cons_append, step_plain (hplain instr mem_cons_self), hfirst]
    rfl

theorem Runs.eq_of_returned {start : Config W} {values values' : List WVal}
    {w w' : W} (h : host.Runs start c) (h' : host.Runs start c') (hc : c.Returned values w)
    (hc' : c'.Returned values' w') : values = values' ∧ w = w' := by
  have hstuck : ∀ {d : Config W} {vs w}, d.Returned vs w → host.step d = none := by
    rintro ⟨code, labels, s⟩ vs w ⟨hcode, -⟩
    obtain rfl : code = [⟨.END_FUNCTION, []⟩] := hcode
    rfl
  have hfun : Relator.RightUnique fun c c' ↦ host.step c = some c' := by
    intro a b b' hb hb'
    exact some.inj (hb.symm.trans hb')
  have hend : ∀ {d e : Config W}, host.step d = none → host.Runs d e → e = d := by
    intro d e hd hrun
    obtain rfl | ⟨f, hf, -⟩ := hrun.cases_head
    · rfl
    · exact absurd (hd.symm.trans hf) (some_ne_none f).symm
  have heq : c = c' := by
    obtain hrun | hrun := Relation.ReflTransGen.total_of_right_unique hfun h h'
    · exact (hend (hstuck hc) hrun).symm
    · exact hend (hstuck hc') hrun
  subst heq
  exact ⟨hc.2.2.1.symm.trans hc'.2.2.1, hc.2.2.2.symm.trans hc'.2.2.2⟩

end Host

/-! ## Skipping code -/

/-- Code whose constructs all end in it. -/
def Balanced (code : List Instruction) : Prop :=
  ∀ depth rest, afterEnd depth (code ++ rest) = afterEnd depth rest

namespace Balanced

variable {code : List Instruction}

theorem nil : Balanced [] := fun _ _ ↦ rfl

theorem append {more : List Instruction} (h : Balanced code) (hmore : Balanced more) :
    Balanced (code ++ more) := by
  intro depth rest
  rw [append_assoc, h, hmore]

theorem cons {instr : Instruction} (hopens : instr.opcode.opens = false)
    (hcloses : instr.opcode.closes = false) (h : Balanced code) : Balanced (instr :: code) := by
  intro depth rest
  rw [cons_append, afterEnd.eq_def]
  simp only [hopens, hcloses, Bool.false_eq_true, if_false]
  exact h depth rest

theorem of_all (h : ∀ instr ∈ code, instr.opcode.opens = false ∧ instr.opcode.closes = false) :
    Balanced code := by
  induction code with
  | nil => exact nil
  | cons instr code ih =>
    obtain ⟨hopens, hcloses⟩ := h instr mem_cons_self
    exact cons hopens hcloses (ih fun i hi ↦ h i (mem_cons_of_mem _ hi))

end Balanced

theorem afterEnd_replicate (n depth : ℕ) (rest : List Instruction) :
    afterEnd depth (replicate n ⟨.BLOCK, []⟩ ++ rest) = afterEnd (depth + n) rest := by
  induction n generalizing depth with
  | zero => rfl
  | succ n ih =>
    rw [replicate_succ, cons_append]
    change afterEnd (depth + 1) (replicate n ⟨.BLOCK, []⟩ ++ rest) = _
    rw [ih, Nat.add_right_comm, Nat.add_assoc]

/-- A list of codes, each with an end behind it. -/
def ended (codes : List (List Instruction)) : List Instruction :=
  codes.flatMap fun code ↦ code ++ [⟨.END_BLOCK, []⟩]

theorem ended_cons (code : List Instruction) (codes : List (List Instruction))
    (rest : List Instruction) :
    ended (code :: codes) ++ rest = code ++ ⟨.END_BLOCK, []⟩ :: (ended codes ++ rest) := by
  rw [ended, flatMap_cons, append_assoc, append_assoc]
  rfl

variable {codes : List (List Instruction)}

theorem afterEnd_ended (h : ∀ code ∈ codes, Balanced code)
    {depth : ℕ} (hdepth : depth < codes.length) (rest : List Instruction) :
    afterEnd depth (ended codes ++ rest) = ended (codes.drop (depth + 1)) ++ rest := by
  induction codes generalizing depth with
  | nil => exact absurd hdepth (Nat.not_lt_zero _)
  | cons code codes ih =>
    rw [ended_cons, h code mem_cons_self]
    match depth with
    | 0 => rfl
    | depth + 1 =>
      exact ih (fun c hc ↦ h c (mem_cons_of_mem _ hc)) (Nat.lt_of_succ_lt_succ hdepth)

theorem afterEnd_ended_add (h : ∀ code ∈ codes, Balanced code)
    (depth : ℕ) (rest : List Instruction) :
    afterEnd (depth + codes.length) (ended codes ++ rest) = afterEnd depth rest := by
  induction codes with
  | nil => rfl
  | cons code codes ih =>
    rw [ended_cons, h code mem_cons_self]
    exact ih fun c hc ↦ h c (mem_cons_of_mem _ hc)

end Banjo.Target.Wasm
