import Banjo.Passes.HeapToStackPass
import Banjo.SSA.Checker
import Banjo.SSA.IntSemantics

/-!
# When nobody can tell the heap from the stack

If an allocation is executed once, and what is computed from its pointer is used for nothing but
loads, stores and frees, of which the frees come last, then no run sees more of the heap than it
would see of a stack slot.
-/

open List Option Function

namespace Banjo.Passes.HeapToStackPass

open SSA Relation

/-- The place is behind a run, or will be again. -/
def Past {V W : Type} (func : Function) (place : InstrInContext) (c : Config V W) : Prop :=
  (c.block = place.block ∧ place.instr < (placeOf func c).instr) ∨
    TransGen (fun a b ↦ b ∈ func.succs a) place.block c.block

/-- The instruction may use a pointer. -/
def Harmless (alloc : Allocation) (pointers : List VirtualRegister) (place : InstrInContext)
    (instr : Instruction) : Prop :=
  (instr.opcode = .CALL ∧ place ∈ alloc.freeInstrs) ∨ instr.opcode = .LOAD ∨
    (instr.opcode = .STORE ∧ ∀ reg ∈ (instr.getOperand 0).uses, reg ∉ pointers) ∨
    (instr.opcode = .COPY ∧ instr.dest = none) ∨
    ((instr.opcode = .OFFSETPTR ∨ instr.opcode = .MEMBERPTR) ∧ ∀ reg ∈ instr.dest, reg ∈ pointers)

/-- The allocation is on no cycle, `pointers` is what is computed from its pointer, which is used
for nothing else, and not after a free. -/
structure Confined (func : Function) (entry : VirtualRegister × Allocation)
    (pointers : List VirtualRegister) : Prop where
  pointer : entry.1 ∈ pointers
  once : ¬TransGen (fun a b ↦ b ∈ func.succs a) entry.2.allocInstr.block
    entry.2.allocInstr.block
  uses : ∀ place instr, instrAt func place = some instr → ∀ reg ∈ instr.uses, reg ∈ pointers →
    Harmless entry.2 pointers place instr
  freed : ∀ free ∈ entry.2.freeInstrs, ∀ place instr, instrAt func place = some instr →
    (place.block = free.block ∧ free.instr < place.instr) ∨
      TransGen (fun a b ↦ b ∈ func.succs a) free.block place.block →
    ∀ reg ∈ instr.uses, reg ∉ pointers

variable {V W : Type} {m : Machine V W} {func : Function} {alloc : Allocation}
  {entry : VirtualRegister × Allocation} {pointers : List VirtualRegister} {w : W}
  {c c' : Config V W} {t : Track} {instr : Instruction} {rest : List Instruction}
  {place : InstrInContext}

theorem Tracked.reaches (h : Tracked m func alloc w c t) : Reaches m func w c := by
  induction h with
  | start hstart => exact ⟨_, hstart, .refl⟩
  | step _ hstep ih => exact ih.step hstep

/-! ## Places -/

theorem placeOf_eq (hwf : func.WellFormed) (h : Reaches m func w c)
    (hrest : c.rest = instr :: rest) :
    ∃ block front, func.HasBlock c.block block ∧ block.instrs = front ++ instr :: rest ∧
      placeOf func c = ⟨c.block, front.length⟩ := by
  obtain ⟨block, hblock, front, hfront⟩ := hwf.position h
  rw [hrest] at hfront
  refine ⟨block, front, hblock, hfront.symm, ?_⟩
  rw [placeOf, hblock.2, map_some, getD_some, hrest, ← hfront, length_append, Nat.add_sub_cancel]

theorem instrAt_placeOf (hwf : func.WellFormed) (h : Reaches m func w c)
    (hrest : c.rest = instr :: rest) : instrAt func (placeOf func c) = some instr := by
  obtain ⟨block, front, hblock, hinstrs, hplace⟩ := placeOf_eq hwf h hrest
  rw [hplace, instrAt, hblock.2, bind_some, hinstrs, getElem?_append_right le_rfl,
    Nat.sub_self, getElem?_cons_zero]

/-- What is behind stays behind. -/
theorem Past.step (hwf : func.WellFormed) (h : Reaches m func w c) (hstep : Step m func c c')
    (hpast : Past func place c) : Past func place c' := by
  have hreach := h.step hstep
  cases hstep with
  | @op b instr rest env w₁ w₂ v _ _ =>
    rcases hpast with ⟨hb, hlt⟩ | hpath
    · refine Or.inl ⟨hb, hlt.trans_le ?_⟩
      exact Nat.sub_le_sub_left (Nat.le_succ rest.length) _
    · exact Or.inr hpath
  | @branch b instr rest env w₁ target block _ htakes _ =>
    have hsucc := (hwf.takes_succ h htakes).2.1
    rcases hpast with ⟨hb, -⟩ | hpath
    · have hb' : b = place.block := hb
      exact Or.inr (.single (hb' ▸ hsucc))
    · exact Or.inr (hpath.tail hsucc)

/-- What has been executed is behind. -/
theorem past_of_step (hwf : func.WellFormed) (h : Reaches m func w c) (hstep : Step m func c c')
    (hrest : c.rest = instr :: rest) (hterm : instr.isTerminator = false) :
    Past func (placeOf func c) c' := by
  obtain ⟨block, front, hblock, hinstrs, hplace⟩ := placeOf_eq hwf h hrest
  cases hstep with
  | @op b first tail env w₁ w₂ v _ _ =>
    obtain ⟨rfl, rfl⟩ := cons.inj hrest
    have hfind : func.find b = some block := hblock.2
    refine Or.inl ⟨by rw [hplace], ?_⟩
    rw [hplace, placeOf]
    dsimp only
    rw [hfind, map_some, getD_some, hinstrs, length_append, length_cons]
    omega
  | @branch b first tail env w₁ target block _ htakes _ =>
    obtain ⟨rfl, -⟩ := cons.inj hrest
    rw [Instruction.isTerminator, htakes.isBranching, Bool.true_or] at hterm
    cases hterm

/-! ## The invariant -/

structure Inv (func : Function) (alloc : Allocation) (pointers : List VirtualRegister)
    (c : Config V W) (t : Track) : Prop where
  regs : ∀ reg, ∀ k ∈ t.regs reg, reg ∈ pointers ∧ k < t.next
  kept : t.kept = ∅
  live : ∀ k ∈ t.live, k < t.next
  next : t.next = 0 ∨ (t.next = 1 ∧ Past func alloc.allocInstr c)
  freed : t.next = 0 ∨ 0 ∈ t.live ∨ ∃ free ∈ alloc.freeInstrs, Past func free c

namespace Inv

variable (h : Inv func alloc pointers c t)
include h

variable {operands : List Operand}

theorem sources_eq_empty (hoperands : ∀ operand ∈ operands, ∀ reg ∈ operand.uses, reg ∉ pointers) :
    t.sources operands = ∅ := by
  rw [Set.eq_empty_iff_forall_notMem]
  rintro k ⟨operand, hmem, reg, hreg, hk⟩
  exact hoperands operand hmem reg hreg (h.regs reg k hk).1

theorem lt_of_sources {k : ℕ} (hk : k ∈ t.sources operands) : k < t.next := by
  obtain ⟨_, _, reg, _, hk⟩ := hk
  exact (h.regs reg k hk).2

end Inv

/-- Operands without a pointer. -/
theorem not_mem_of_operand (huses : ∀ reg ∈ instr.uses, reg ∉ pointers) :
    ∀ operand ∈ instr.operands, ∀ reg ∈ operand.uses, reg ∉ pointers :=
  fun _ hmem reg hreg ↦ huses reg (Instruction.mem_uses_of_operand hmem (Operand.mem_uses.mp hreg))

variable {reg : VirtualRegister}

/-- A destination that holds what operands hold. -/
theorem regs_setDest {dest : Option VirtualRegister} {blocks : Set ℕ}
    {k : ℕ} (hk : k ∈ (t.setDest dest blocks).regs reg) :
    (dest = some reg ∧ k ∈ blocks) ∨ k ∈ t.regs reg := by
  cases dest with
  | none => exact Or.inr hk
  | some d =>
    have hk' : k ∈ Function.update t.regs d blocks reg := hk
    by_cases hreg : reg = d
    · subst hreg
      rw [update_self] at hk'
      exact Or.inl ⟨rfl, hk'⟩
    · rw [update_of_ne hreg] at hk'
      exact Or.inr hk'

variable (dest : Option VirtualRegister)

variable (blocks : Set ℕ)

@[simp] theorem setDest_kept : (t.setDest dest blocks).kept = t.kept := by
  cases dest <;> rfl

@[simp] theorem setDest_live : (t.setDest dest blocks).live = t.live := by
  cases dest <;> rfl

@[simp] theorem setDest_next : (t.setDest dest blocks).next = t.next := by
  cases dest <;> rfl

/-- A destination that holds nothing, or is a pointer that holds what operands hold. -/
theorem Inv.setDest (h : Inv func alloc pointers c t) {dest : Option VirtualRegister}
    {blocks : Set ℕ} (hdest : ∀ reg ∈ dest, ∀ k ∈ blocks, reg ∈ pointers ∧ k < t.next) :
    Inv func alloc pointers c (t.setDest dest blocks) where
  regs reg k hk := by
    rw [setDest_next]
    rcases regs_setDest hk with ⟨hd, hk⟩ | hk
    · exact hdest reg hd k hk
    · exact h.regs reg k hk
  kept := (setDest_kept dest blocks).trans h.kept
  live k hk := by
    rw [setDest_live] at hk
    rw [setDest_next]
    exact h.live k hk
  next := by
    rw [setDest_next]
    exact h.next
  freed := by
    rw [setDest_next, setDest_live]
    exact h.freed

/-- The record stays right as the run goes on. -/
theorem Inv.step (hwf : func.WellFormed) (hreach : Reaches m func w c) (hstep : Step m func c c')
    (h : Inv func alloc pointers c t) : Inv func alloc pointers c' t where
  regs := h.regs
  kept := h.kept
  live := h.live
  next := h.next.imp_right fun hnext ↦ ⟨hnext.1, hnext.2.step hwf hreach hstep⟩
  freed := h.freed.imp_right (Or.imp_right fun ⟨free, hfree, hpast⟩ ↦
    ⟨free, hfree, hpast.step hwf hreach hstep⟩)

section Exec

variable (hconf : Confined func entry pointers) (hwf : func.WellFormed)
  (hreach : Reaches m func w c) (hrest : c.rest = instr :: rest)
include hconf hwf hreach hrest

/-- A pointer is used where it may be. -/
theorem harmless_of_mem {reg : VirtualRegister} (hreg : reg ∈ instr.uses) (hp : reg ∈ pointers) :
    Harmless entry.2 pointers (placeOf func c) instr :=
  hconf.uses _ instr (instrAt_placeOf hwf hreach hrest) reg hreg hp

/-- An instruction that may not use a pointer uses none. -/
theorem sources_eq_empty_of_not_harmless (h : Inv func entry.2 pointers c t)
    (hnot : ¬Harmless entry.2 pointers (placeOf func c) instr) : t.sources instr.operands = ∅ :=
  h.sources_eq_empty (not_mem_of_operand fun _ hreg hp ↦
    hnot (harmless_of_mem hconf hwf hreach hrest hreg hp))

omit hwf hreach hrest in
/-- The allocation is executed for the first time. -/
theorem Inv.allocate (h : Inv func entry.2 pointers c t) (hdest : instr.dest = some entry.1)
    (hplace : placeOf func c = entry.2.allocInstr) (hpast : Past func entry.2.allocInstr c') :
    Inv func entry.2 pointers c'
      { t.setDest instr.dest {t.next} with live := insert t.next t.live, next := t.next + 1 } := by
  have hzero : t.next = 0 := by
    refine h.next.resolve_right fun ⟨_, hold⟩ ↦ ?_
    rcases hold with ⟨-, hlt⟩ | hpath
    · rw [hplace] at hlt
      exact lt_irrefl _ hlt
    · have hblock : c.block = entry.2.allocInstr.block := congrArg InstrInContext.block hplace
      exact hconf.once (hblock ▸ hpath)
  refine ⟨fun reg k hk ↦ ?_, (setDest_kept _ _).trans h.kept, fun k hk ↦ ?_, Or.inr ⟨?_, hpast⟩, ?_⟩
  · rcases regs_setDest hk with ⟨hd, rfl⟩ | hk
    · rw [hdest, some_inj] at hd
      exact ⟨hd ▸ hconf.pointer, Nat.lt_succ_self _⟩
    · exact ⟨(h.regs reg k hk).1, Nat.lt_succ_of_lt (h.regs reg k hk).2⟩
  · rcases hk with rfl | hk
    · exact Nat.lt_succ_self _
    · exact Nat.lt_succ_of_lt (h.live k hk)
  · rw [hzero]
  · exact Or.inr (Or.inl (Or.inl hzero.symm))

/-- What a step that is no branch leaves. -/
theorem Inv.exec (h : Inv func entry.2 pointers c t) (hallocates : Allocates func entry)
    (hterm : instr.isTerminator = false) (hstep : Step m func c c') :
    Inv func entry.2 pointers c' (t.exec entry.2 (placeOf func c) instr) := by
  have hpast := past_of_step hwf hreach hstep hrest hterm
  have h' : Inv func entry.2 pointers c' t := h.step hwf hreach hstep
  have hat := instrAt_placeOf hwf hreach hrest
  rw [Track.exec]
  split_ifs with hplace hfree
  · obtain ⟨instr', hinstr', hdest⟩ := hallocates
    rw [← hplace, hat, some_inj] at hinstr'
    subst hinstr'
    exact h.allocate hconf hdest hplace (hplace ▸ hpast)
  · have hset : Inv func entry.2 pointers c' (t.setDest instr.dest ∅) :=
      h'.setDest fun _ _ _ hk ↦ absurd hk (Set.notMem_empty _)
    refine ⟨hset.regs, hset.kept, fun k hk ↦ ?_, hset.next, ?_⟩
    · rw [setDest_next]
      exact h.live k hk.1
    · exact Or.inr (Or.inr ⟨_, hfree, hpast⟩)
  · have hempty := sources_eq_empty_of_not_harmless (t := t) hconf hwf hreach hrest h
    split
    · rename_i hop
      have hnone : t.kept ∪ t.sources instr.operands = ∅ := by
        rw [h.kept, Set.empty_union]
        refine hempty fun hharmless ↦ ?_
        simp [Harmless, hop, hfree] at hharmless
      have hset : Inv func entry.2 pointers c' (t.setDest instr.dest ∅) :=
        h'.setDest fun _ _ _ hk ↦ absurd hk (Set.notMem_empty _)
      rw [hnone]
      exact ⟨hset.regs, rfl, hset.live, hset.next, hset.freed⟩
    · rename_i hop
      have hnone : t.kept ∪ t.sources [instr.getOperand 0] = ∅ := by
        rw [h.kept, Set.empty_union]
        refine h.sources_eq_empty fun operand hmem reg hreg hp ↦ ?_
        rw [mem_singleton.mp hmem] at hreg
        have huse : reg ∈ instr.uses :=
          Instruction.mem_uses_of_getOperand (Operand.mem_uses.mp hreg)
        have hharmless := harmless_of_mem hconf hwf hreach hrest huse hp
        simp only [Harmless, hop] at hharmless
        rcases hharmless with ⟨heq, -⟩ | heq | ⟨-, hvalue⟩ | ⟨heq, -⟩ | ⟨heq | heq, -⟩
        · cases heq
        · cases heq
        · exact hvalue reg hreg hp
        · cases heq
        · cases heq
        · cases heq
      have hset : Inv func entry.2 pointers c' (t.setDest instr.dest ∅) :=
        h'.setDest fun _ _ _ hk ↦ absurd hk (Set.notMem_empty _)
      rw [hnone]
      exact ⟨hset.regs, rfl, hset.live, hset.next, hset.freed⟩
    · rw [h.kept]
      exact h'.setDest fun _ _ _ hk ↦ absurd hk (Set.notMem_empty _)
    · rename_i hcall hstore hload
      refine h'.setDest fun reg hdest k hk ↦ ⟨?_, h.lt_of_sources hk⟩
      obtain ⟨operand, hmem, used, hused, hkused⟩ := hk
      have huse : used ∈ instr.uses :=
        Instruction.mem_uses_of_operand hmem (Operand.mem_uses.mp hused)
      rcases harmless_of_mem hconf hwf hreach hrest huse (h.regs used k hkused).1 with
        ⟨heq, -⟩ | heq | ⟨heq, -⟩ | ⟨-, hnone⟩ | ⟨-, hpointer⟩
      · exact absurd heq hcall
      · exact absurd heq hload
      · exact absurd heq hstore
      · rw [hnone] at hdest
        cases hdest
      · exact hpointer reg hdest

/-- What a branch leaves. -/
theorem Inv.enter (h : Inv func entry.2 pointers c t) (hterm : instr.isTerminator = true)
    (hstep : Step m func c c') {params : List VirtualRegister} :
    Inv func entry.2 pointers c' (t.enter instr c'.block params) := by
  have h' : Inv func entry.2 pointers c' t := h.step hwf hreach hstep
  refine ⟨fun reg k hk ↦ ?_, h'.kept, h'.live, h'.next, h'.freed⟩
  rcases hk with ⟨-, hk⟩ | ⟨target, htarget, -, pair, hpair, -, hk⟩
  · exact h'.regs reg k hk
  · obtain ⟨operand, hmem, used, hused, hk⟩ := hk
    rw [mem_singleton.mp hmem] at hused
    have huse : used ∈ instr.uses :=
      Instruction.mem_uses_of_arg htarget (of_mem_zip hpair).1 (Operand.mem_uses.mp hused)
    have hharmless := harmless_of_mem hconf hwf hreach hrest huse (h.regs used k hk).1
    rcases hharmless with ⟨hop, -⟩ | hop | ⟨hop, -⟩ | ⟨hop, -⟩ | ⟨hop | hop, -⟩ <;>
      simp [Instruction.isTerminator, Instruction.isBranching, hop] at hterm

/-- A pointer that is used is one to a live block. -/
theorem Inv.live_of_sources (h : Inv func entry.2 pointers c t) {operands : List Operand}
    (hoperands : ∀ operand ∈ operands, ∀ reg ∈ operand.uses, reg ∈ instr.uses) :
    t.sources operands ⊆ t.live := by
  rintro k hk
  have hlt := h.lt_of_sources hk
  obtain ⟨operand, hmem, reg, hreg, hk⟩ := hk
  have hnext : t.next = 1 := (h.next.resolve_left (by omega)).1
  obtain rfl : k = 0 := by omega
  refine (h.freed.resolve_left (by omega)).resolve_right ?_
  rintro ⟨free, hfree, hpast⟩
  refine hconf.freed free hfree _ instr (instrAt_placeOf hwf hreach hrest) ?_ reg
    (hoperands operand hmem reg hreg) (h.regs reg 0 hk).1
  exact hpast

end Exec

theorem Tracked.inv (hconf : Confined func entry pointers) (hwf : func.WellFormed)
    (hallocates : Allocates func entry) (h : Tracked m func entry.2 w c t) :
    Inv func entry.2 pointers c t := by
  induction h with
  | start _ =>
    exact ⟨fun _ _ hk ↦ absurd hk (Set.notMem_empty _), rfl,
      fun _ hk ↦ absurd hk (Set.notMem_empty _), Or.inl rfl, Or.inl rfl⟩
  | @step c c' t hbefore hstep ih =>
    rw [Track.after]
    split
    · exact ih.step hwf hbefore.reaches hstep
    · rename_i instr rest hrest
      split_ifs with hterm
      · exact ih.enter hconf hwf hbefore.reaches hrest hterm hstep
      · exact ih.exec hconf hwf hbefore.reaches hrest hallocates (by simpa using hterm) hstep

theorem mem_uses_of_mem_getOperand {i : ℕ} {operand : Operand}
    (hmem : operand ∈ [instr.getOperand i]) (hreg : reg ∈ operand.uses) : reg ∈ instr.uses := by
  rw [mem_singleton.mp hmem] at hreg
  exact Instruction.mem_uses_of_getOperand (Operand.mem_uses.mp hreg)

/-- An allocation the pass replaces is one nobody can tell from a stack slot if it is on no cycle
and its pointer is only used for accesses and frees, of which the frees come last. -/
theorem unobservable_of_confined {names : FuncId → String} {order : Allocs → Allocs}
    (horder : ∀ allocs, (order allocs).Perm allocs) (hwf : func.WellFormed) {fuel : ℕ}
    {allocs : Allocs} (hpromoted : promoted names order fuel func = some allocs)
    (hentry : entry ∈ allocs) (hconf : Confined func entry pointers)
    (h : Tracked m func entry.2 w c t) : Unobservable c t := by
  have hcollected : entry ∈ collect names func :=
    (horder _).subset (mem_of_promoted hpromoted hentry)
  have hallocates : Allocates func entry := allocates_collect hwf.nodup entry hcollected
  have hinv := h.inv hconf hwf hallocates
  refine ⟨fun j hj k hk ↦ ?_, fun instr rest hrest ↦ ?_, hinv.kept, fun instr rest hrest hret ↦ ?_⟩
  · have hj' := hinv.live j hj
    have hk' := hinv.live k hk
    have hnext : t.next = 1 := (hinv.next.resolve_left (by omega)).1
    omega
  · have hlive : ∀ {operands : List Operand},
        (∀ operand ∈ operands, ∀ reg ∈ operand.uses, reg ∈ instr.uses) →
        t.sources operands ⊆ t.live := hinv.live_of_sources hconf hwf h.reaches hrest
    rw [Track.accessed]
    split
    · exact hlive fun _ hmem _ hreg ↦ mem_uses_of_mem_getOperand hmem hreg
    · exact hlive fun _ hmem _ hreg ↦ mem_uses_of_mem_getOperand hmem hreg
    · exact hlive fun _ hmem _ hreg ↦
        Instruction.mem_uses_of_operand hmem (Operand.mem_uses.mp hreg)
    · exact Set.empty_subset _
  · refine sources_eq_empty_of_not_harmless hconf hwf h.reaches hrest hinv fun hharmless ↦ ?_
    simp [Harmless, hret] at hharmless

/-! ## Loops -/

def externNames (f : FuncId) : String := if f = 0 then "malloc" else "free"

/-- Everything that is computed is zero. -/
def zeros : Machine (BitVec 64) Unit where
  const
    | .intImmediate immediate => immediate.toBits
    | _ => 0
  exec _ _ _ _ _ := some (0, ())
  holds comparison lhs rhs taken := taken = comparison.holdsInt lhs.1 rhs.1

def mallocInstr : Instruction where
  opcode := .CALL
  dest := some 0
  operands := [⟨.externFunc 0, Primitive.ADDR⟩, ⟨.intImmediate ⟨8, false⟩, Primitive.U64⟩]

def freeInstr : Instruction where
  opcode := .CALL
  operands := [⟨.externFunc 1, Primitive.VOID⟩, ⟨.register 0, Primitive.ADDR⟩]

/-- A number is stored in memory that is freed. -/
def storeOnce : Function where
  blocks :=
    [(0, { instrs := [mallocInstr,
        { opcode := .STORE
          operands := [⟨.intImmediate ⟨1, false⟩, Primitive.I64⟩, ⟨.register 0, Primitive.ADDR⟩] },
        freeInstr, { opcode := .RET }] })]
  lastVirtualReg := 1

def onceAlloc : VirtualRegister × Allocation := (0, ⟨⟨0, 0⟩, [⟨0, 2⟩]⟩)

theorem instrAt_storeOnce (h : instrAt storeOnce place = some instr) : place.block = 0 ∧
    ((place.instr = 0 ∧ instr = mallocInstr) ∨ (place.instr = 1 ∧ instr.opcode = .STORE ∧
      (instr.getOperand 0).uses = []) ∨ (place.instr = 2 ∧ instr = freeInstr) ∨
      (place.instr = 3 ∧ instr.uses = [])) := by
  obtain ⟨b, i⟩ := place
  obtain ⟨block, hfind, hi⟩ := bind_eq_some_iff.mp h
  obtain ⟨rfl, rfl⟩ := mem_singleton.mp (Function.mem_of_find hfind)
  refine ⟨rfl, ?_⟩
  match i with
  | 0 => exact Or.inl ⟨rfl, (some.inj hi).symm⟩
  | 1 =>
    obtain rfl := some.inj hi
    exact Or.inr (Or.inl ⟨rfl, rfl, rfl⟩)
  | 2 => exact Or.inr (Or.inr (Or.inl ⟨rfl, (some.inj hi).symm⟩))
  | 3 =>
    obtain rfl := some.inj hi
    exact Or.inr (Or.inr (Or.inr ⟨rfl, rfl⟩))
  | i + 4 => cases hi

theorem confined_storeOnce : Confined storeOnce onceAlloc [0] := by
  have hpath : ∀ {b}, ¬TransGen (fun a b ↦ b ∈ storeOnce.succs a) 0 b := by
    intro b hpath
    obtain ⟨next, hnext, -⟩ := TransGen.head'_iff.mp hpath
    have hnil : storeOnce.succs 0 = [] := by decide
    rw [hnil] at hnext
    exact absurd hnext not_mem_nil
  refine ⟨by decide, hpath, fun place instr hat reg hreg hp ↦ ?_, ?_⟩
  · rcases instrAt_storeOnce hat with
      ⟨-, ⟨-, rfl⟩ | ⟨-, hop, hvalue⟩ | ⟨hi, rfl⟩ | ⟨-, huses⟩⟩
    · exact absurd hreg not_mem_nil
    · refine Or.inr (Or.inr (Or.inl ⟨hop, fun reg hreg ↦ ?_⟩))
      rw [hvalue] at hreg
      exact absurd hreg not_mem_nil
    · have hplace : place = ⟨0, 2⟩ := by
        obtain ⟨b, i⟩ := place
        obtain ⟨rfl, -⟩ := instrAt_storeOnce hat
        exact congrArg (InstrInContext.mk 0) hi
      exact Or.inl ⟨rfl, mem_singleton.mpr hplace⟩
    · rw [huses] at hreg
      exact absurd hreg not_mem_nil
  · intro free hfree place instr hat hpast reg hreg
    obtain rfl := mem_singleton.mp hfree
    obtain ⟨-, hplaces⟩ := instrAt_storeOnce hat
    rcases hpast with ⟨-, hlt⟩ | hpast
    · rcases hplaces with ⟨hi, -⟩ | ⟨hi, -⟩ | ⟨hi, -⟩ | ⟨-, huses⟩
      · rw [hi] at hlt
        exact absurd hlt (by decide)
      · rw [hi] at hlt
        exact absurd hlt (by decide)
      · rw [hi] at hlt
        exact absurd hlt (by decide)
      · rw [huses] at hreg
        exact absurd hreg not_mem_nil
    · exact absurd hpast hpath

theorem unobservable_of_confined_storeOnce :
    promoted externNames id 8 storeOnce = some [onceAlloc] ∧
      ∀ c t, Tracked zeros storeOnce onceAlloc.2 () c t → Unobservable c t := by
  have hpromoted : promoted externNames id 8 storeOnce = some [onceAlloc] := by decide
  exact ⟨hpromoted, fun c t h ↦ unobservable_of_confined (fun allocs ↦ .refl allocs)
    (Function.wellFormed_of_check (fun _ ↦ []) (by decide)) hpromoted
    (mem_singleton_self _) confined_storeOnce h⟩

/-- While one is one. -/
def whileTrue : Instruction where
  opcode := .CJMP
  operands := [⟨.intImmediate ⟨1, false⟩, Primitive.I64⟩, ⟨.comparison .EQ, Primitive.VOID⟩,
    ⟨.intImmediate ⟨1, false⟩, Primitive.I64⟩]
  targets := [⟨1, []⟩, ⟨2, []⟩]

/-- What a loop allocates is freed behind it. -/
def mallocLoop : Function where
  blocks :=
    [(0, { instrs := [{ opcode := .JMP, targets := [⟨1, []⟩] }] }),
     (1, { instrs := [mallocInstr, whileTrue] }),
     (2, { instrs := [freeInstr, { opcode := .RET }] })]
  lastVirtualReg := 1

def loopAlloc : VirtualRegister × Allocation := (0, ⟨⟨1, 0⟩, [⟨2, 0⟩]⟩)

/-- The loop runs until two blocks are live. -/
theorem tracked_mallocLoop : ∃ (c : Config (BitVec 64) Unit) (t : Track),
    Tracked zeros mallocLoop loopAlloc.2 () c t ∧ ∃ j ∈ t.live, ∃ k ∈ t.live, j ≠ k := by
  have hdefines : ∀ {env : Env (BitVec 64)} {instr : Instruction}, instr.uses = [] →
      env.Defines instr := by
    intro env instr huses reg hreg
    rw [huses] at hreg
    exact absurd hreg not_mem_nil
  have hmalloc : ∀ env, Step zeros mallocLoop ⟨1, [mallocInstr, whileTrue], env, ()⟩
      ⟨1, [whileTrue], env.bindDest (some 0) 0, ()⟩ :=
    fun env ↦ .op (hdefines rfl) (.exec rfl (by decide) rfl)
  have hfind : mallocLoop.find 1 = some { instrs := [mallocInstr, whileTrue] } := rfl
  have hloop : ∀ env, Step zeros mallocLoop ⟨1, [whileTrue], env, ()⟩
      ⟨1, [mallocInstr, whileTrue], env, ()⟩ := by
    intro env
    have hholds : zeros.holds .EQ (1, Primitive.I64) (1, Primitive.I64) true := rfl
    have htakes : zeros.Takes env whileTrue (if true then ⟨1, []⟩ else ⟨2, []⟩) :=
      .cond rfl rfl rfl rfl hholds
    exact .branch (hdefines rfl) htakes hfind
  have henter : Step zeros mallocLoop
      ⟨0, [{ opcode := .JMP, targets := [⟨1, []⟩] }], fun _ ↦ none, ()⟩
      ⟨1, [mallocInstr, whileTrue], fun _ ↦ none, ()⟩ := by
    have htakes : zeros.Takes (fun _ ↦ none)
        { opcode := .JMP, targets := [⟨1, []⟩] } ⟨1, []⟩ := .jmp rfl rfl
    exact .branch (hdefines rfl) htakes hfind
  have hstart : Tracked zeros mallocLoop loopAlloc.2 ()
      ⟨0, [{ opcode := .JMP, targets := [⟨1, []⟩] }], fun _ ↦ none, ()⟩ .start :=
    .start ⟨_, _, rfl, rfl, rfl⟩
  have hrun := (((hstart.step henter).step (hmalloc _)).step (hloop _)).step (hmalloc _)
  exact ⟨_, _, hrun, 0, Or.inr (Or.inl rfl), 1, Or.inl rfl, Nat.zero_ne_one⟩

/-- An allocation in a loop is replaced by one stack slot. -/
theorem not_unobservable_mallocLoop :
    mallocLoop.WellFormed ∧ promoted externNames id 8 mallocLoop = some [loopAlloc] ∧
      ∃ (c : Config (BitVec 64) Unit) (t : Track),
        Tracked zeros mallocLoop loopAlloc.2 () c t ∧ ∃ j ∈ t.live, ∃ k ∈ t.live, j ≠ k :=
  ⟨Function.wellFormed_of_check (fun b ↦ if b = 2 then [0] else []) (by decide),
    by decide, tracked_mallocLoop⟩

end Banjo.Passes.HeapToStackPass
