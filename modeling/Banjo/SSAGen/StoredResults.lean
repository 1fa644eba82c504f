import Banjo.SSAGen.ExprSSAGenerator

/-!
# Storage that is read while it is written

Which expressions access the destination after a part of it is stored, and what the generated code
leaves as it is.
-/

open List

namespace Banjo.SSAGen.InPlace

/-! ## Reads of the destination -/

def Overlaps (p q : Path) : Prop := p <+: q ∨ q <+: p

def grow (written : List Path) : Option Path → List Path
  | some path => path :: written
  | none => written

variable (callees : Callees) (id : SymbolId)

/-- A point of the destination that is written. -/
def Written (written : List Path) (symbol : SymbolId) (path : Path) : Prop :=
  symbol = id ∧ ∃ w ∈ written, w <+: path

/-- The result is not a place that overlaps with something that is written. -/
def Unwritten (written : List Path) : Result → Prop
  | .place symbol path => symbol = id → ∀ w ∈ written, ¬Overlaps w path
  | .value _ => True

/-- The call neither depends on what is written nor changes it. -/
def CallIgnores (written : List Path) (func : ℕ) (args : List Value) (symbols : Symbols) : Prop :=
  ∀ other : Symbols,
    (∀ symbol path, ¬Written id written symbol path → other symbol path = symbols symbol path) →
    (callees.call func args other).1 = (callees.call func args symbols).1 ∧
      ∀ symbol path, (¬Written id written symbol path →
          (callees.call func args other).2 symbol path =
            (callees.call func args symbols).2 symbol path) ∧
        (Written id written symbol path →
          (callees.call func args other).2 symbol path = other symbol path)

/-- An array that is indexed has to be in memory. -/
def Expr.isReference : Expr → Bool
  | .scalar _ => false
  | .call func _ => callees.isReturnedViaPointer func
  | _ => true

mutual

/-- No part of `id` is accessed after it is written, where the expression is built in the part
`dst`. -/
def Safe : List Path → Option Path → Expr → Symbols → Prop
  | _, _, .scalar _, _ => True
  | _, _, .symbol _, _ => True
  | written, dst, .literal entries, symbols => SafeEntries written dst entries symbols
  | written, _, .field base _, symbols => Safe written none base symbols
  | written, _, .index base index, symbols =>
    Safe written none index symbols ∧ base.isReference callees ∧
      ∀ result symbols', eval callees index symbols = some (result, symbols') →
        Unwritten id written result ∧ Safe written none base symbols'
  | written, _, .call func args, symbols =>
    SafeArgs written args symbols ∧
      ∀ vs symbols', evalArgs callees args symbols = some (vs, symbols') →
        CallIgnores callees id written func vs symbols'

def SafeEntries : List Path → Option Path → List (ℕ × Expr) → Symbols → Prop
  | _, _, [], _ => True
  | written, dst, (fieldIndex, expr) :: entries, symbols =>
    Safe written (dst.map (· ++ [fieldIndex])) expr symbols ∧
      ∀ result symbols', eval callees expr symbols = some (result, symbols') →
        Unwritten id written result ∧
          SafeEntries (grow written (dst.map (· ++ [fieldIndex]))) dst entries symbols'

def SafeArgs : List Path → List Expr → Symbols → Prop
  | _, [], _ => True
  | written, arg :: args, symbols =>
    Safe written none arg symbols ∧
      ∀ result symbols', eval callees arg symbols = some (result, symbols') →
        Unwritten id written result ∧ SafeArgs written args symbols'

end

/-! ## What the code leaves as it is -/

/-- The memory of the code is the memory of the program, but for what is written. -/
def Agrees (written : List Path) (s : State) (symbols : Symbols) : Prop :=
  ∀ symbol path, ¬Written id written symbol path → s.mem (.symbol symbol) path = symbols symbol path

/-- What must not be lost: what is written, and the stack slots so far. -/
def Kept (written : List Path) (s : State) : Base → Path → Prop
  | .symbol symbol, path => Written id written symbol path
  | .alloca reg, _ => reg < s.nextReg

/-- Nothing is lost outside of the destination. -/
structure Frame (written : List Path) (dst : Option Addr) (s s' : State) : Prop where
  nextReg_le : s.nextReg ≤ s'.nextReg
  mem_eq : ∀ base path, Kept id written s base path → (∀ addr ∈ dst, ¬addr.Covers base path) →
    s'.mem base path = s.mem base path

variable {id} {written written' : List Path} {dst : Option Addr} {s s' s'' : State}
  {symbols : Symbols}

variable {path : Path}

theorem Written.mono (h : written ⊆ written') {symbol : SymbolId}
    (hwritten : Written id written symbol path) : Written id written' symbol path := by
  obtain ⟨hid, w, hw, hprefix⟩ := hwritten
  exact ⟨hid, w, h hw, hprefix⟩

theorem Kept.mono (h : written ⊆ written') (hreg : s.nextReg ≤ s'.nextReg) {base : Base}
    (hkept : Kept id written s base path) : Kept id written' s' base path := by
  cases base with
  | symbol symbol => exact Written.mono h hkept
  | alloca reg => exact Nat.lt_of_lt_of_le hkept hreg

theorem Agrees.mono (h : written ⊆ written') (hagrees : Agrees id written s symbols) :
    Agrees id written' s symbols :=
  fun symbol path hwritten ↦ hagrees symbol path fun hwritten' ↦ hwritten (hwritten'.mono h)

theorem subset_grow (written : List Path) (dst : Option Path) : written ⊆ grow written dst := by
  cases dst with
  | none => exact List.Subset.refl _
  | some path => exact subset_cons_self _ _

theorem Frame.refl (written : List Path) (dst : Option Addr) (s : State) :
    Frame id written dst s s :=
  ⟨Nat.le_refl _, fun _ _ _ _ ↦ rfl⟩

theorem Frame.trans (h : Frame id written dst s s') (h' : Frame id written dst s' s'') :
    Frame id written dst s s'' := by
  refine ⟨h.nextReg_le.trans h'.nextReg_le, fun base path hkept hdst ↦ ?_⟩
  rw [h'.mem_eq base path (hkept.mono (List.Subset.refl _) h.nextReg_le) hdst]
  exact h.mem_eq base path hkept hdst

theorem Frame.mono (hwritten : written ⊆ written') (h : Frame id written' dst s s') :
    Frame id written dst s s' :=
  ⟨h.nextReg_le, fun base path hkept hdst ↦
    h.mem_eq base path (hkept.mono hwritten (Nat.le_refl _)) hdst⟩

theorem Frame.of_none (h : Frame id written none s s') (dst : Option Addr) :
    Frame id written dst s s' :=
  ⟨h.nextReg_le, fun base path hkept _ ↦ h.mem_eq base path hkept nofun⟩

variable {addr : Addr}

variable {index : ℕ}

theorem Frame.of_child (h : Frame id written (some (addr.child index)) s s') :
    Frame id written (some addr) s s' := by
  refine ⟨h.nextReg_le, fun base path hkept hdst ↦ h.mem_eq base path hkept ?_⟩
  rintro _ ⟨⟩ hcovers
  exact hdst addr rfl hcovers.of_child

/-! ## Destinations -/

/-- The part of the symbol that an address points to. -/
def Addr.named (addr : Addr) : Option Path :=
  match addr.base with
  | .symbol _ => some addr.path
  | .alloca _ => none

/-- Values are stored to the symbol that is the destination, and to stack slots. -/
def Addr.Valid (id : SymbolId) (s : State) (addr : Addr) : Prop :=
  match addr.base with
  | .symbol symbol => symbol = id
  | .alloca reg => reg < s.nextReg

theorem Addr.named_child (addr : Addr) (index : ℕ) :
    (addr.child index).named = addr.named.map (· ++ [index]) := by
  obtain ⟨base, path⟩ := addr
  cases base <;> rfl

/-- The fields of a destination are parts of it. -/
theorem agrees_of_child
    (h : Agrees id (grow (grow written (addr.child index).named) addr.named) s symbols) :
    Agrees id (grow written addr.named) s symbols := by
  obtain ⟨base, dst⟩ := addr
  cases base with
  | alloca reg => exact h
  | symbol symbol =>
    intro other path hwritten
    refine h other path fun ⟨hid, w, hw, hprefix⟩ ↦ hwritten ⟨hid, ?_⟩
    obtain rfl | hw := mem_cons.mp hw
    · exact ⟨w, mem_cons_self, hprefix⟩
    · obtain rfl | hw := mem_cons.mp hw
      · exact ⟨dst, mem_cons_self, (prefix_append _ _).trans hprefix⟩
      · exact ⟨w, mem_cons_of_mem _ hw, hprefix⟩

theorem Addr.Valid.child (h : addr.Valid id s) (index : ℕ) :
    (addr.child index).Valid id s := h

theorem Addr.Valid.mono (h : addr.Valid id s) (hreg : s.nextReg ≤ s'.nextReg) :
    addr.Valid id s' := by
  obtain ⟨base, path⟩ := addr
  cases base with
  | symbol symbol => exact h
  | alloca reg => exact Nat.lt_of_lt_of_le h hreg

/-- What is stored to the destination is kept from then on. -/
theorem Addr.Valid.kept (h : addr.Valid id s) (path : Path) :
    Kept id (grow written addr.named) s addr.base (addr.path ++ path) := by
  obtain ⟨base, dst⟩ := addr
  cases base with
  | symbol symbol => exact ⟨h, dst, mem_cons_self, prefix_append _ _⟩
  | alloca reg => exact h

theorem agrees_store (hvalid : addr.Valid id s) (v : Value) (h : Agrees id written s symbols) :
    Agrees id (grow written addr.named) (appendStore addr v s) symbols := by
  intro symbol path hwritten
  rw [← h symbol path fun hwritten' ↦ hwritten (hwritten'.mono (subset_grow _ _))]
  refine store_of_not_covers ?_
  obtain ⟨base, dst⟩ := addr
  rintro ⟨rfl, hprefix⟩
  exact hwritten ⟨hvalid, dst, mem_cons_self, hprefix⟩

theorem frame_store (written : List Path) (addr : Addr) (v : Value) (s : State) :
    Frame id written (some addr) s (appendStore addr v s) :=
  ⟨Nat.le_refl _, fun _ _ _ hdst ↦ store_of_not_covers (hdst addr rfl)⟩

/-! ## Stack slots -/

theorem valid_alloca (s : State) : (appendAlloca s).1.Valid id
    (appendAlloca s).2 := Nat.lt_succ_self _

/-- Stores to a new stack slot are of no importance to what was there before. -/
theorem Frame.of_alloca (h : Frame id written (some (appendAlloca s).1) (appendAlloca s).2 s') :
    Frame id written none s s' := by
  refine ⟨(Nat.le_succ _).trans h.nextReg_le, fun base path hkept _ ↦ ?_⟩
  refine h.mem_eq base path (hkept.mono (List.Subset.refl _) (Nat.le_succ _)) ?_
  rintro _ ⟨⟩ ⟨rfl, -⟩
  exact Nat.lt_irrefl _ hkept

/-!
## Stored values and results

What the code has for an expression after it ran, in a register, in a stack slot, in the destination
or as a place of the program.
-/

variable {callees : Callees} {id : SymbolId} {written : List Path} {s s' s'' : State}
  {symbols symbols' : Symbols}

/-! ## Stored values -/

/-- A value in a register or in a stack slot. -/
def StoredValue.Separate (s : State) : StoredValue → Prop
  | value _ => True
  | reference addr => ∃ reg, addr.base = .alloca reg ∧ reg < s.nextReg

/-- What the code has for a place or a value. -/
inductive Represents (s : State) : StoredValue → Result → Prop
  | place (symbol : SymbolId) (path : Path) :
      Represents s (.reference ⟨.symbol symbol, path⟩) (.place symbol path)
  | value {stored : StoredValue} {v : Value} (hseparate : stored.Separate s)
      (hle : Value.Le v (stored.get s.mem)) : Represents s stored (.value v)

variable {stored : StoredValue}

/-- What is in a stack slot is there until the end of the expression. -/
theorem StoredValue.Separate.get_eq (h : stored.Separate s)
    (hframe : Frame id written none s s') : stored.get s'.mem = stored.get s.mem := by
  cases stored with
  | value v => rfl
  | reference addr =>
    obtain ⟨base, path⟩ := addr
    obtain ⟨reg, hbase, hlt⟩ := h
    cases hbase
    funext rest
    exact congrArg some (hframe.mem_eq _ _ hlt nofun)

variable {result : Result}

/-- What is read from the memory is the value of the expression, unless it is written already. -/
theorem Represents.read_le (h : Represents s stored result) (hagrees : Agrees id written s symbols)
    (hunwritten : Unwritten id written result) :
    Value.Le (result.read symbols) (stored.get s.mem) := by
  cases h with
  | value _ hle => exact hle
  | place symbol path =>
    intro rest x hx
    rw [← hx]
    refine congrArg some (hagrees symbol (path ++ rest) ?_)
    rintro ⟨hid, w, hw, hprefix⟩
    exact hunwritten hid w hw (List.prefix_or_prefix_of_prefix hprefix (prefix_append _ _))

/-! ## The destination of an expression -/

/-- The value is built in the destination, or it is to be copied there. -/
inductive Outcome (id : SymbolId) (written : List Path) (s : State) (dst : Option Addr) :
    StoredValue → State → Result → Symbols → Prop
  | built {addr : Addr} {s' : State} {v : Value} {symbols' : Symbols} (hdst : dst = some addr)
      (hholds : s'.mem.Holds addr v) (hagrees : Agrees id (grow written addr.named) s' symbols')
      (hframe : Frame id written (some addr) s s') :
      Outcome id written s dst (.reference addr) s' (.value v) symbols'
  | separate {stored : StoredValue} {s' : State} {result : Result} {symbols' : Symbols}
      (hrepresents : Represents s' stored result) (hagrees : Agrees id written s' symbols')
      (hframe : Frame id written none s s') : Outcome id written s dst stored s' result symbols'

/-- Without a destination there is nothing that the value could be built in. -/
theorem Outcome.separate_of_none (h : Outcome id written s none stored s' result symbols') :
    Represents s' stored result ∧ Agrees id written s' symbols' ∧ Frame id written none s s' := by
  cases h with
  | built hdst => cases hdst
  | separate hrepresents hagrees hframe => exact ⟨hrepresents, hagrees, hframe⟩

/-- The destination has the value, and everything else is as it was. -/
structure Stores (id : SymbolId) (written : List Path) (addr : Addr) (s s' : State) (v : Value)
    (symbols' : Symbols) : Prop where
  holds : s'.mem.Holds addr v
  agrees : Agrees id (grow written addr.named) s' symbols'
  frame : Frame id written (some addr) s s'

variable {addr : Addr}

theorem Outcome.copyTo (h : Outcome id written s (some addr) stored s' result symbols')
    (hvalid : addr.Valid id s) (hunwritten : Unwritten id written result) :
    Stores id written addr s (stored.copyTo addr s') (result.read symbols') symbols' := by
  cases h with
  | built hdst hholds hagrees hframe =>
    cases hdst
    rw [StoredValue.copyTo, if_pos rfl]
    exact ⟨hholds, hagrees, hframe⟩
  | separate hrepresents hagrees hframe =>
    have hle := hrepresents.read_le hagrees hunwritten
    have hvalid' := hvalid.mono hframe.nextReg_le
    have hstore (v : Value) (hv : Value.Le (result.read symbols') v) :
        Stores id written addr s (appendStore addr v s') (result.read symbols') symbols' :=
      ⟨holds_store hv, agrees_store hvalid' v hagrees,
        (hframe.of_none _).trans (frame_store written addr v s')⟩
    cases stored with
    | value v => exact hstore v hle
    | reference src =>
      rw [StoredValue.copyTo]
      split_ifs with hsrc
      -- A copy of the destination to itself.
      · subst hsrc
        exact ⟨hle, hagrees.mono (subset_grow _ _), hframe.of_none _⟩
      · exact hstore _ hle

/-! ## Calls -/

/-- A call that does nothing with what is written does what it does in the program. -/
theorem appendCall_spec {func : ℕ} {vs : List Value} {args : List StoredValue}
    (hagrees : Agrees id written s symbols)
    (hignores : CallIgnores callees id written func vs symbols)
    (hargs : List.Forall₂ Value.Le vs (args.map (·.get s.mem))) :
    Value.Le (callees.call func vs symbols).1 (appendCall callees func args s).1 ∧
      Agrees id written (appendCall callees func args s).2 (callees.call func vs symbols).2 ∧
      Frame id written none s (appendCall callees func args s).2 := by
  obtain ⟨hle, hsymbols⟩ := callees.mono func s.mem.symbols hargs
  obtain ⟨hvalue, hrest⟩ := hignores s.mem.symbols hagrees
  rw [hvalue] at hle
  refine ⟨hle, fun symbol path hunwritten ↦ ?_, ⟨Nat.le_refl _, fun base path hkept _ ↦ ?_⟩⟩
  · rw [← (hrest symbol path).1 hunwritten, hsymbols]
    rfl
  · cases base with
    | symbol symbol =>
      exact (congrFun₂ hsymbols symbol path).symm.trans ((hrest symbol path).2 hkept)
    | alloca reg => rfl

/-! ## Allocation and references -/

variable {dst : Option Addr}

theorem valid_alloc (hdst : ∀ addr ∈ dst, addr.Valid id s) :
    (StoredValue.alloc dst s).1.Valid id (StoredValue.alloc dst s).2 := by
  cases dst with
  | some addr => exact hdst addr rfl
  | none => exact valid_alloca s

theorem agrees_alloc (dst : Option Addr) (h : Agrees id written s symbols) :
    Agrees id written (StoredValue.alloc dst s).2 symbols := by
  cases dst <;> exact h

theorem named_alloc (dst : Option Addr) (s : State) :
    (StoredValue.alloc dst s).1.named = dst.bind Addr.named := by
  cases dst <;> rfl

variable {v : Value}

/-- What is stored to an allocated address is built in the destination or has a slot of its own. -/
theorem Stores.outcome
    (h : Stores id written (StoredValue.alloc dst s).1 (StoredValue.alloc dst s).2 s' v symbols') :
    Outcome id written s dst (.reference (StoredValue.alloc dst s).1) s' (.value v) symbols' := by
  -- Without a destination, the slot is new and nothing that was there before is lost.
  cases dst with
  | some addr => exact .built rfl h.holds h.agrees h.frame
  | none =>
    exact .separate (.value ⟨s.nextReg, rfl, h.frame.nextReg_le⟩ h.holds) h.agrees h.frame.of_alloca

theorem agrees_appendStore_alloca (v : Value) (h : Agrees id written s symbols) :
    Agrees id written (appendStore (appendAlloca s).1 v (appendAlloca s).2) symbols :=
  @agrees_store _ _ _ _ (appendAlloca s).1 (valid_alloca s) v h

theorem frame_appendStore_alloca (v : Value) (s : State) :
    Frame id written none s (appendStore (appendAlloca s).1 v (appendAlloca s).2) :=
  (frame_store written _ v _).of_alloca

theorem Represents.turnIntoValueOrCopy
    (h : Represents s stored result) (hagrees : Agrees id written s symbols)
    (hunwritten : Unwritten id written result) (isInReg : Bool) :
    Agrees id written (stored.turnIntoValueOrCopy isInReg s).2 symbols ∧
      Frame id written none s (stored.turnIntoValueOrCopy isInReg s).2 ∧
      (stored.turnIntoValueOrCopy isInReg s).1.Separate (stored.turnIntoValueOrCopy isInReg s).2 ∧
      Value.Le (result.read symbols)
        ((stored.turnIntoValueOrCopy isInReg s).1.get
          (stored.turnIntoValueOrCopy isInReg s).2.mem) := by
  have hle := h.read_le hagrees hunwritten
  cases stored with
  | value v => exact ⟨hagrees, Frame.refl _ _ _, trivial, hle⟩
  | reference addr =>
    rw [StoredValue.turnIntoValueOrCopy]
    split_ifs
    · exact ⟨hagrees, Frame.refl _ _ _, trivial, hle⟩
    · exact ⟨agrees_appendStore_alloca _ hagrees, frame_appendStore_alloca _ _,
        ⟨s.nextReg, rfl, Nat.lt_succ_self _⟩, holds_store hle⟩

theorem holds_child {mem : Memory} (h : mem.Holds addr v) (index : ℕ) :
    mem.Holds (addr.child index) (v.field index) := by
  intro path x hx
  rw [← h (index :: path) x hx]
  simp [Memory.load, Addr.child]

theorem Represents.child (h : Represents s (.reference addr) result)
    (index : ℕ) : Represents s (.reference (addr.child index)) (result.field index) := by
  cases h with
  | place symbol path => exact .place symbol _
  | value hseparate hle => exact .value hseparate (holds_child hle _)

theorem Represents.turnIntoReference
    (h : Represents s stored result) (hagrees : Agrees id written s symbols) :
    Agrees id written (stored.turnIntoReference s).2 symbols ∧
      Frame id written none s (stored.turnIntoReference s).2 ∧
      Represents (stored.turnIntoReference s).2
        (.reference (stored.turnIntoReference s).1) result := by
  cases stored with
  | reference addr => exact ⟨hagrees, Frame.refl _ _ _, h⟩
  | value v =>
    cases h with
    | value hseparate hle =>
      exact ⟨agrees_appendStore_alloca _ hagrees, frame_appendStore_alloca _ _,
        .value ⟨s.nextReg, rfl, Nat.lt_succ_self _⟩ (holds_store hle)⟩

/-! ## Fields of a literal -/

variable {fieldIndex : ℕ} {w : Value}

theorem setField_eq_some {path : Path} {x : ℕ} (h : v.setField fieldIndex w path = some x) :
    (∃ rest, path = fieldIndex :: rest ∧ w rest = some x) ∨
      (¬[fieldIndex] <+: path ∧ v path = some x) := by
  cases path with
  | nil => exact Or.inr ⟨by simp, h⟩
  | cons head rest =>
    rw [Value.setField] at h
    split_ifs at h with hhead
    · exact Or.inl ⟨rest, by rw [hhead], h⟩
    · refine Or.inr ⟨fun hprefix ↦ hhead ?_, h⟩
      exact (cons_prefix_cons.mp hprefix).1.symm

/-- One more field has its value, and no field is lost by it. -/
theorem Stores.setField (h : Stores id written (addr.child fieldIndex) s s' w symbols')
    (hvalid : addr.Valid id s) (hholds : s.mem.Holds addr v)
    (hkept : ∀ path x, v path = some x → Kept id written s addr.base (addr.path ++ path)) :
    s'.mem.Holds addr (v.setField fieldIndex w) ∧
      ∀ path x, v.setField fieldIndex w path = some x →
        Kept id (grow written (addr.child fieldIndex).named) s' addr.base (addr.path ++ path) := by
  have hreg := h.frame.nextReg_le
  constructor
  · refine Memory.holds_iff.mpr fun path x hx ↦ ?_
    obtain ⟨rest, rfl, hrest⟩ | ⟨hother, hpath⟩ := setField_eq_some hx
    · have hfield := Memory.holds_iff.mp h.holds rest x hrest
      simpa [Addr.child] using hfield
    -- The other fields are kept, and the field that is stored does not cover them.
    · rw [h.frame.mem_eq _ _ (hkept path x hpath)]
      · exact Memory.holds_iff.mp hholds path x hpath
      · rintro _ ⟨⟩ ⟨-, hprefix⟩
        exact hother ((prefix_append_right_inj addr.path).mp hprefix)
  · intro path x hx
    obtain ⟨rest, rfl, -⟩ | ⟨-, hpath⟩ := setField_eq_some hx
    · have hfield : Kept id (grow written (addr.child fieldIndex).named) s' _ _ :=
        ((hvalid.child fieldIndex).mono hreg).kept rest
      simpa [Addr.child] using hfield
    · exact (hkept path x hpath).mono (subset_grow _ _) hreg

end Banjo.SSAGen.InPlace
