import Banjo.SSAGen.StoredResults
import Mathlib.Algebra.GroupWithZero.Nat

/-!
# Values are stored before what they are made of changes

As long as no part of the destination is read after it is written, a statement stores the value that
its expression has before the store.
-/

open Option

namespace Banjo.SSAGen.InPlace

variable (callees : Callees)

/-! ## Expressions -/

theorem isReference_of_generate {base : Expr} {v : Value} {s s' : State}
    (h : generate callees base none s = some (.value v, s')) :
    base.isReference callees = false := by
  cases base with
  | scalar n => rfl
  | symbol symbol => cases h
  | literal entries =>
    rw [generate] at h
    obtain ⟨_, _, h⟩ := bind_eq_some_iff.mp h
    cases h
  | field base fieldIndex =>
    rw [generate] at h
    obtain ⟨_, _, h⟩ := bind_eq_some_iff.mp h
    cases h
  | index base index =>
    rw [generate] at h
    obtain ⟨_, _, h⟩ := bind_eq_some_iff.mp h
    obtain ⟨_, _, h⟩ := bind_eq_some_iff.mp h
    obtain ⟨⟨stored, _⟩, _, h⟩ := bind_eq_some_iff.mp h
    cases stored <;> cases h
  | call func args =>
    rw [generate] at h
    split_ifs at h with hpointer
    · obtain ⟨_, _, h⟩ := bind_eq_some_iff.mp h
      cases h
    · exact Bool.eq_false_iff.mpr hpointer

variable {callees} {id : SymbolId}

mutual

theorem generate_spec (expr : Expr) (dst : Option Addr) {written : List Path} {s : State}
    {result : Result} {symbols symbols' : Symbols}
    (heval : eval callees expr symbols = some (result, symbols'))
    (hagrees : Agrees id written s symbols) (hdst : ∀ addr ∈ dst, addr.Valid id s)
    (hsafe : Safe callees id written (dst.bind Addr.named) expr symbols) :
    ∃ stored s', generate callees expr dst s = some (stored, s') ∧
      Outcome id written s dst stored s' result symbols' := by
  match expr with
  | .scalar n =>
    cases heval
    exact ⟨_, _, rfl, .separate (.value trivial (Value.Le.refl _)) hagrees (Frame.refl _ _ _)⟩
  | .symbol symbol =>
    cases heval
    exact ⟨_, _, rfl, .separate (.place symbol []) hagrees (Frame.refl _ _ _)⟩
  | .literal entries =>
    rw [eval] at heval
    obtain ⟨⟨v, _⟩, hentries, heval⟩ := bind_eq_some_iff.mp heval
    cases heval
    rw [Safe, ← named_alloc dst s] at hsafe
    obtain ⟨s', hrun, hstores⟩ := generateEntries_spec entries _ hentries (agrees_alloc dst hagrees)
      (valid_alloc hdst) hsafe nofun nofun
    refine ⟨_, s', ?_, hstores.outcome⟩
    rw [generate, hrun]
    rfl
  | .field base fieldIndex =>
    rw [eval] at heval
    obtain ⟨⟨baseResult, _⟩, hbase, heval⟩ := bind_eq_some_iff.mp heval
    cases heval
    rw [Safe] at hsafe
    obtain ⟨stored, s₁, hrun, houtcome⟩ := generate_spec base none hbase hagrees nofun hsafe
    obtain ⟨hrepresents, hagrees₁, hframe⟩ := houtcome.separate_of_none
    obtain ⟨hagrees₂, hframe₂, hreference⟩ := hrepresents.turnIntoReference hagrees₁
    refine ⟨_, _, ?_, .separate (hreference.child fieldIndex) hagrees₂ (hframe.trans hframe₂)⟩
    rw [generate, hrun]
    rfl
  | .index base index =>
    rw [eval] at heval
    obtain ⟨⟨indexResult, symbols₁⟩, hindex, heval⟩ := bind_eq_some_iff.mp heval
    obtain ⟨i, hi, heval⟩ := bind_eq_some_iff.mp heval
    obtain ⟨⟨baseResult, _⟩, hbase, heval⟩ := bind_eq_some_iff.mp heval
    cases heval
    rw [Safe] at hsafe
    obtain ⟨hsafeIndex, hreference, hafter⟩ := hsafe
    obtain ⟨hunwritten, hsafeBase⟩ := hafter _ _ hindex
    -- The index is read before the base is evaluated.
    obtain ⟨stored, s₁, hrun₁, houtcome₁⟩ := generate_spec index none hindex
      hagrees nofun hsafeIndex
    obtain ⟨hrepresents₁, hagrees₁, hframe₁⟩ := houtcome₁.separate_of_none
    have hget : stored.get s₁.mem [] = some i := hrepresents₁.read_le hagrees₁ hunwritten [] i hi
    obtain ⟨storedBase, s₂, hrun₂, houtcome₂⟩ :=
      generate_spec base none hbase hagrees₁ nofun hsafeBase
    obtain ⟨hrepresents₂, hagrees₂, hframe₂⟩ := houtcome₂.separate_of_none
    -- A base in a register has no pointer, which the condition excludes.
    cases storedBase with
    | value v =>
      rw [isReference_of_generate callees hrun₂] at hreference
      cases hreference
    | reference addr =>
      refine ⟨_, _, ?_, .separate (hrepresents₂.child i) hagrees₂ (hframe₁.trans hframe₂)⟩
      rw [generate, hrun₁]
      dsimp only [bind_eq_bind, bind_some]
      rw [hget, bind_some, hrun₂]
      rfl
  | .call func args =>
    rw [eval] at heval
    obtain ⟨⟨vs, symbols₁⟩, hargs, heval⟩ := bind_eq_some_iff.mp heval
    cases heval
    rw [Safe] at hsafe
    obtain ⟨hsafeArgs, hignores⟩ := hsafe
    -- The callee writes the return value after everything it reads.
    by_cases hpointer : callees.isReturnedViaPointer func
    · obtain ⟨stored, s₁, hrun, hagrees₁, hframe₁, hle⟩ :=
        generateArgs_spec args func 0 hargs (agrees_alloc dst hagrees) hsafeArgs
      obtain ⟨hvalue, hagrees₂, hframe₂⟩ := appendCall_spec hagrees₁ (hignores _ _ hargs) hle
      have hframe := hframe₁.trans hframe₂
      have hvalid := (valid_alloc hdst).mono hframe.nextReg_le
      have hstores : Stores id written (StoredValue.alloc dst s).1 (StoredValue.alloc dst s).2
          (appendStore (StoredValue.alloc dst s).1 (appendCall callees func stored s₁).1
            (appendCall callees func stored s₁).2) _ _ :=
        ⟨holds_store hvalue, agrees_store hvalid _ hagrees₂,
          (hframe.of_none _).trans (frame_store _ _ _ _)⟩
      refine ⟨_, _, ?_, hstores.outcome⟩
      rw [generate, if_pos hpointer, hrun]
      rfl
    · obtain ⟨stored, s₁, hrun, hagrees₁, hframe₁, hle⟩ :=
        generateArgs_spec args func 0 hargs hagrees hsafeArgs
      obtain ⟨hvalue, hagrees₂, hframe₂⟩ := appendCall_spec hagrees₁ (hignores _ _ hargs) hle
      refine ⟨.value _, _, ?_, .separate (.value trivial hvalue) hagrees₂ (hframe₁.trans hframe₂)⟩
      rw [generate, if_neg hpointer, hrun]
      rfl

/-- Field after field, the literal holds what is evaluated so far. -/
theorem generateEntries_spec (entries : List (ℕ × Expr)) (addr : Addr) {written : List Path}
    {s : State} {v w : Value} {symbols symbols' : Symbols}
    (heval : evalEntries callees v entries symbols = some (w, symbols'))
    (hagrees : Agrees id written s symbols) (hvalid : addr.Valid id s)
    (hsafe : SafeEntries callees id written addr.named entries symbols)
    (hholds : s.mem.Holds addr v)
    (hkept : ∀ path x, v path = some x → Kept id written s addr.base (addr.path ++ path)) :
    ∃ s', generateEntries callees addr entries s = some s' ∧
      Stores id written addr s s' w symbols' := by
  match entries with
  | [] =>
    cases heval
    exact ⟨s, rfl, hholds, hagrees.mono (subset_grow _ _), Frame.refl _ _ _⟩
  | (fieldIndex, expr) :: entries =>
    rw [evalEntries] at heval
    obtain ⟨⟨result, symbols₁⟩, hexpr, heval⟩ := bind_eq_some_iff.mp heval
    rw [SafeEntries, ← Addr.named_child] at hsafe
    obtain ⟨hsafeExpr, hafter⟩ := hsafe
    obtain ⟨hunwritten, hsafeEntries⟩ := hafter _ _ hexpr
    have hvalidChild : ∀ child ∈ some (addr.child fieldIndex), child.Valid id s := by
      rintro _ ⟨⟩
      exact hvalid.child fieldIndex
    obtain ⟨stored, s₁, hrun₁, houtcome⟩ := generate_spec expr _ hexpr hagrees hvalidChild hsafeExpr
    have hstores := houtcome.copyTo (hvalid.child fieldIndex) hunwritten
    -- From here on the field counts as written.
    obtain ⟨hholds₁, hkept₁⟩ := hstores.setField hvalid hholds hkept
    obtain ⟨s₂, hrun₂, hstores₂⟩ := generateEntries_spec entries addr heval hstores.agrees
      (hvalid.mono hstores.frame.nextReg_le) hsafeEntries hholds₁ hkept₁
    refine ⟨s₂, ?_, hstores₂.holds, agrees_of_child hstores₂.agrees, ?_⟩
    · rw [generateEntries, hrun₁]
      exact hrun₂
    · exact hstores.frame.of_child.trans (hstores₂.frame.mono (subset_grow _ _))

/-- An argument has the value that it had when it was evaluated, until the call. -/
theorem generateArgs_spec (args : List Expr) (func i : ℕ) {written : List Path} {s : State}
    {vs : List Value} {symbols symbols' : Symbols}
    (heval : evalArgs callees args symbols = some (vs, symbols'))
    (hagrees : Agrees id written s symbols)
    (hsafe : SafeArgs callees id written args symbols) :
    ∃ stored s', generateArgs callees func i args s = some (stored, s') ∧
      Agrees id written s' symbols' ∧
      Frame id written none s s' ∧ List.Forall₂ Value.Le vs (stored.map (·.get s'.mem)) := by
  match args with
  | [] =>
    cases heval
    exact ⟨[], s, rfl, hagrees, Frame.refl _ _ _, .nil⟩
  | arg :: args =>
    rw [evalArgs] at heval
    obtain ⟨⟨result, symbols₁⟩, harg, heval⟩ := bind_eq_some_iff.mp heval
    obtain ⟨⟨rest, _⟩, hargs, heval⟩ := bind_eq_some_iff.mp heval
    cases heval
    rw [SafeArgs] at hsafe
    obtain ⟨hsafeArg, hafter⟩ := hsafe
    obtain ⟨hunwritten, hsafeArgs⟩ := hafter _ _ harg
    obtain ⟨stored, s₁, hrun₁, houtcome⟩ := generate_spec arg none harg hagrees nofun hsafeArg
    obtain ⟨hrepresents, hagrees₁, hframe₁⟩ := houtcome.separate_of_none
    -- Loaded or copied, it does not depend on the symbols any more.
    obtain ⟨hagrees₂, hframe₂, hseparate, hle⟩ :=
      hrepresents.turnIntoValueOrCopy hagrees₁ hunwritten (callees.isPassedInReg func i)
    obtain ⟨others, s₃, hrun₃, hagrees₃, hframe₃, hothers⟩ :=
      generateArgs_spec args func (i + 1) hargs hagrees₂ hsafeArgs
    refine ⟨(stored.turnIntoValueOrCopy (callees.isPassedInReg func i) s₁).1 :: others, s₃, ?_,
      hagrees₃, (hframe₁.trans hframe₂).trans hframe₃, .cons ?_ hothers⟩
    · rw [generateArgs, hrun₁]
      dsimp only [bind_eq_bind, bind_some]
      rw [hrun₃]
      rfl
    · dsimp only
      rw [hseparate.get_eq hframe₃]
      exact hle

end

theorem unwritten_nil (result : Result) : Unwritten id [] result := by
  cases result with
  | place symbol path => exact fun _ w hw ↦ absurd hw List.not_mem_nil
  | value v => trivial

theorem generateIntoDst_spec {expr : Expr} {addr : Addr} {s : State} {result : Result}
    {symbols symbols' : Symbols} (heval : eval callees expr symbols = some (result, symbols'))
    (hagrees : Agrees id [] s symbols) (hvalid : addr.Valid id s)
    (hsafe : Safe callees id [] addr.named expr symbols) :
    ∃ s', generateIntoDst callees expr addr s = some s' ∧
      Stores id [] addr s s' (result.read symbols') symbols' := by
  have hdst : ∀ dst ∈ some addr, dst.Valid id s := by
    rintro _ ⟨⟩
    exact hvalid
  obtain ⟨stored, s', hrun, houtcome⟩ := generate_spec expr (some addr) heval hagrees hdst hsafe
  refine ⟨_, ?_, houtcome.copyTo hvalid (unwritten_nil result)⟩
  rw [generateIntoDst, hrun]
  rfl

/-! ## Statements -/

/-- Where a statement stores to, the value that it has before the store and the symbols at that
point. -/
structure Assignment where
  id : SymbolId
  path : Path
  value : Value
  symbols : Symbols

variable (callees)

def evalInto (id : SymbolId) (path : Path) (expr : Expr) (symbols : Symbols) :
  Option Assignment := do
  let (result, symbols) ← eval callees expr symbols
  return ⟨id, path, result.read symbols, symbols⟩

def evalStmt : Stmt → Symbols → Option Assignment
  | .varStmt local_ value, symbols => evalInto callees local_ [] value symbols
  | .assignStmt lhs rhs, symbols => do
    match ← eval callees lhs symbols with
    | (.place id path, symbols) => evalInto callees id path rhs symbols
    | (.value _, _) => none
  | .returnStmt returnSlot value, symbols => evalInto callees returnSlot [] value symbols

/-- The code of the statement runs, the destination has the value of the right-hand side and
everything else in the symbols is as before the store. -/
def StoresValue (stmt : Stmt) (s : State) (assignment : Assignment) : Prop :=
  ∃ s', generateStmt callees stmt s = some s' ∧
    s'.mem.Holds ⟨.symbol assignment.id, assignment.path⟩ assignment.value ∧
    ∀ id path, ¬(id = assignment.id ∧ assignment.path <+: path) →
      s'.mem (.symbol id) path = assignment.symbols id path

/-- No part of the destination is accessed after it is written. -/
def SafeInto (id : SymbolId) (path : Path) (expr : Expr) (symbols : Symbols) : Prop :=
  Safe callees id [] (some path) expr symbols

/-- The place that is assigned to is evaluated before the right-hand side. -/
def SafeStmt : Stmt → Symbols → Prop
  | .varStmt local_ value, symbols => SafeInto callees local_ [] value symbols
  | .assignStmt lhs rhs, symbols =>
    ∀ id path symbols', eval callees lhs symbols = some (.place id path, symbols') →
      Safe callees id [] none lhs symbols ∧ SafeInto callees id path rhs symbols'
  | .returnStmt returnSlot value, symbols => SafeInto callees returnSlot [] value symbols

variable {callees}

theorem storesValue_of_stores {stmt : Stmt} {s s₁ s' : State} {path : Path} {result : Result}
    {symbols : Symbols} (hrun : generateStmt callees stmt s = some s')
    (h : Stores id [] ⟨.symbol id, path⟩ s₁ s' (result.read symbols) symbols) :
    StoresValue callees stmt s ⟨id, path, result.read symbols, symbols⟩ := by
  refine ⟨s', hrun, h.holds, fun other otherPath hother ↦ h.agrees other otherPath ?_⟩
  rintro ⟨rfl, w, hw, hprefix⟩
  rw [List.mem_singleton.mp hw] at hprefix
  exact hother ⟨rfl, hprefix⟩

theorem evalInto_eq_some {path : Path} {expr : Expr} {symbols : Symbols} {assignment : Assignment}
    (h : evalInto callees id path expr symbols = some assignment) :
    ∃ result symbols', eval callees expr symbols = some (result, symbols') ∧
      assignment = ⟨id, path, result.read symbols', symbols'⟩ := by
  obtain ⟨⟨result, symbols'⟩, heval, h⟩ := bind_eq_some_iff.mp h
  exact ⟨result, symbols', heval, (some.inj h).symm⟩

section

private def noCallees : Callees where
  call _ _ symbols := (.undefined, symbols)
  mono _ _ _ _ _ := ⟨Value.Le.refl _, rfl⟩
  isReturnedViaPointer _ := false
  isPassedInReg _ _ := false

/-- The fields of every symbol count up from the symbol. -/
private def countingState : State where
  mem
    | .symbol symbol, path => symbol + path.sum
    | .alloca _, _ => 0
  nextReg := 0

/-- `p = Pair { x: p.x, y: q.x }` -/
private def keepFirst : Stmt :=
  .assignStmt (.symbol 0) (.literal [(0, .field (.symbol 0) 0), (1, .field (.symbol 1) 0)])

/-- `p = Pair { x: p.y, y: p.x }` -/
private def swap : Stmt :=
  .assignStmt (.symbol 0) (.literal [(0, .field (.symbol 0) 1), (1, .field (.symbol 0) 0)])

end

end Banjo.SSAGen.InPlace
