import Banjo.Target.Wasm.Execution
import Banjo.Target.Wasm.WasmSSALowerer

/-!
# The dispatcher

The blocks, the loop and the table branch around the code of the basic blocks, whatever that code
is: from the start of the loop the code of the block whose index is in the local is entered, a
branch out of it as far as its depth says is at the start of the loop again, and the index behind
the last block leaves the loop.
-/

open List BitVec

namespace Banjo.Target.Wasm

variable {W : Type} {host : Host W} {s : State W}

theorem State.withStack_self (h : s.stack = []) : s.withStack [] = s := by
  obtain ⟨locals, stack, world⟩ := s
  obtain rfl : stack = [] := h
  rfl

theorem index_imm {n : ℕ} (h : n < 2 ^ 64) : (imm n).index = n := by
  change (BitVec.ofNat 64 n).toNat = n
  rw [toNat_ofNat, Nat.mod_eq_of_lt h]

theorem const32_imm (n : ℕ) : host.const32 (imm n) = BitVec.ofNat 32 n := by
  change (BitVec.ofNat 64 n).setWidth 32 = BitVec.ofNat 32 n
  exact setWidth_ofNat_of_le (by decide) n

/-- The table of the dispatcher: the index of a block, and two more than the last for the rest. -/
def blockTable (n : ℕ) : List Operand := (range n).map imm ++ [imm (n + 2)]

theorem tableLabel_blockTable {n i : ℕ} (hn : n + 2 < 2 ^ 32) :
    tableLabel (blockTable n) i = if i < n then i else n + 2 := by
  have hlength : (blockTable n).length = n + 1 := by
    rw [blockTable, length_append, length_map, length_range]
    rfl
  rw [tableLabel, hlength, Nat.add_sub_cancel, blockTable]
  split_ifs with hi
  · rw [Nat.min_eq_left hi.le, getElem?_append_left (by simpa using hi), getElem?_map,
      getElem?_range hi]
    exact index_imm (by omega)
  · rw [Nat.min_eq_right (not_lt.mp hi), getElem?_append_right (by simp)]
    simpa using index_imm (n := n + 2) (by omega)

section Dispatcher

variable (codes : List (List Instruction)) (blockIndexLocal : ℕ) (tail : List Instruction)

/-- The code from some basic block on. -/
def codeFrom (k : ℕ) : List Instruction :=
  ended (codes.drop k) ++ (⟨.END_LOOP, []⟩ :: ⟨.END_BLOCK, []⟩ :: tail)

/-- The code that goes to the basic block whose index is in the local. -/
def switch : List Instruction :=
  [⟨.BLOCK, []⟩, ⟨.LOCAL_GET, [imm blockIndexLocal]⟩, ⟨.BR_TABLE, blockTable codes.length⟩,
    ⟨.END_BLOCK, []⟩]

def loopCode : List Instruction :=
  ⟨.LOOP, []⟩ :: (replicate codes.length ⟨.BLOCK, []⟩ ++
    (switch codes blockIndexLocal ++ codeFrom codes tail 0))

/-- The labels of the loop and of the block around it. -/
def outerLabels : List Label := [⟨loopCode codes blockIndexLocal tail, []⟩, ⟨tail, []⟩]

/-- At the start of the loop. -/
def atLoop (s : State W) : Config W :=
  ⟨loopCode codes blockIndexLocal tail, [⟨tail, []⟩], s⟩

/-- The labels around the code of a basic block. -/
def blockLabels (k : ℕ) : List Label :=
  (((range (codes.length + 1)).map fun j ↦ ⟨codeFrom codes tail j, []⟩).drop (k + 1)) ++
    outerLabels codes blockIndexLocal tail

variable {codes blockIndexLocal tail}

theorem balanced_switch : Balanced (switch codes blockIndexLocal) := fun _ _ ↦ rfl

/-- A run through the starts of nested blocks. -/
theorem runs_replicate (n : ℕ) {rest : List Instruction} {labels : List Label} (hs : s.stack = []) :
    host.Runs ⟨replicate n ⟨.BLOCK, []⟩ ++ rest, labels, s⟩
      ⟨rest, ((range n).map fun j ↦ ⟨afterEnd j rest, []⟩) ++ labels, s⟩ := by
  induction n generalizing labels with
  | zero => exact .refl
  | succ n ih =>
    rw [List.range_succ, List.map_append, List.append_assoc]
    refine .head ?_ ih
    rw [List.replicate_succ, List.cons_append]
    change some (Config.mk _ (⟨afterEnd 0 _, s.stack⟩ :: labels) (s.withStack [])) = _
    rw [afterEnd_replicate, Nat.zero_add, State.withStack_self hs, hs]
    rfl

variable (hbalanced : ∀ code ∈ codes, Balanced code)
include hbalanced

theorem afterEnd_codeFrom {j : ℕ} (hj : j < codes.length) :
    afterEnd j (codeFrom codes tail 0) = codeFrom codes tail (j + 1) :=
  afterEnd_ended hbalanced hj _

/-- The loop ends where the block around it does. -/
theorem afterEnd_loopCode : afterEnd 0 (loopCode codes blockIndexLocal tail) = tail := by
  change afterEnd 1 _ = tail
  rw [afterEnd_replicate, balanced_switch, codeFrom, drop_zero, afterEnd_ended_add hbalanced]
  rfl

/-- From the start of the loop to the table branch. -/
theorem runs_atLoop (hs : s.stack = []) :
    host.Runs (atLoop codes blockIndexLocal tail s)
      ⟨(switch codes blockIndexLocal).tail ++ codeFrom codes tail 0,
        ((range (codes.length + 1)).map fun j ↦ ⟨codeFrom codes tail j, []⟩) ++
          outerLabels codes blockIndexLocal tail, s⟩ := by
  have hloop : host.Runs (atLoop codes blockIndexLocal tail s)
      ⟨replicate codes.length ⟨.BLOCK, []⟩ ++
        (switch codes blockIndexLocal ++ codeFrom codes tail 0),
        outerLabels codes blockIndexLocal tail, s⟩ := by
    refine .single ?_
    change some (Config.mk _ (⟨loopCode codes blockIndexLocal tail, s.stack⟩ :: [⟨tail, []⟩])
      (s.withStack [])) = _
    rw [State.withStack_self hs, hs]
    rfl
  refine (hloop.trans (runs_replicate _ hs)).tail ?_
  change some (Config.mk _ (⟨codeFrom codes tail 0, s.stack⟩ :: _) (s.withStack [])) = _
  rw [State.withStack_self hs, hs, range_succ_eq_map, map_cons, map_map]
  have hlabels : ((range codes.length).map fun j ↦
        (⟨afterEnd j (switch codes blockIndexLocal ++ codeFrom codes tail 0), []⟩ : Label))
      = (range codes.length).map ((fun j ↦ ⟨codeFrom codes tail j, []⟩) ∘ Nat.succ) := by
    refine map_congr_left fun j hj ↦ ?_
    rw [balanced_switch, afterEnd_codeFrom hbalanced (mem_range.mp hj)]
    rfl
  rw [hlabels]
  rfl

variable (hlength : codes.length + 2 < 2 ^ 32) (hlocal : blockIndexLocal < 2 ^ 64)
include hlength hlocal

/-- The table branch goes as far out as the index says. -/
theorem runs_switch {i : ℕ} (hs : s.stack = [])
    (hi : s.locals blockIndexLocal = .i32 (BitVec.ofNat 32 i)) (hle : i ≤ codes.length)
    {c : Config W}
    (hc : branch (((range (codes.length + 1)).map fun j ↦ ⟨codeFrom codes tail j, []⟩) ++
      outerLabels codes blockIndexLocal tail) (if i < codes.length then i else codes.length + 2) s
        = some c) :
    host.Runs (atLoop codes blockIndexLocal tail s) c := by
  have hnat : (BitVec.ofNat 32 i).toNat = i := by
    rw [toNat_ofNat, Nat.mod_eq_of_lt (by omega)]
  have hget : host.step
      ⟨(switch codes blockIndexLocal).tail ++ codeFrom codes tail 0,
        ((range (codes.length + 1)).map fun j ↦ ⟨codeFrom codes tail j, []⟩) ++
          outerLabels codes blockIndexLocal tail, s⟩
      = some ⟨⟨.BR_TABLE, blockTable codes.length⟩ :: ⟨.END_BLOCK, []⟩ :: codeFrom codes tail 0,
        ((range (codes.length + 1)).map fun j ↦ ⟨codeFrom codes tail j, []⟩) ++
          outerLabels codes blockIndexLocal tail, s.push (.i32 (BitVec.ofNat 32 i))⟩ := by
    have hlocals : s.locals (imm blockIndexLocal).index = s.locals blockIndexLocal := by
      rw [index_imm hlocal]
    rw [← hi, ← hlocals]
    rfl
  refine ((Relation.ReflTransGen.tail (runs_atLoop hbalanced hs) hget)).tail ?_
  change branch _ (tableLabel (blockTable codes.length) (BitVec.ofNat 32 i).toNat)
    (s.withStack s.stack) = some c
  rw [hnat, tableLabel_blockTable hlength]
  exact hc

variable (host tail) in
/-- The block with the index in the local is entered. -/
theorem runs_block {k : ℕ} (hs : s.stack = [])
    (hk : s.locals blockIndexLocal = .i32 (BitVec.ofNat 32 k)) {code : List Instruction}
    (hcode : codes[k]? = some code) :
    host.Runs (atLoop codes blockIndexLocal tail s)
      ⟨code ++ ⟨.END_BLOCK, []⟩ :: codeFrom codes tail (k + 1),
        blockLabels codes blockIndexLocal tail k, s⟩ := by
  obtain ⟨hlt, hget⟩ := List.getElem?_eq_some_iff.mp hcode
  refine runs_switch hbalanced hlength hlocal hs hk hlt.le ?_
  have hfrom : codeFrom codes tail k = code ++ ⟨.END_BLOCK, []⟩ :: codeFrom codes tail (k + 1) := by
    rw [codeFrom, drop_eq_getElem_cons hlt, ended_cons, hget]
    rfl
  rw [if_pos hlt, branch, List.drop_append_of_le_length (by simp; omega),
    drop_eq_getElem_cons (by simp; omega), List.getElem_map, List.getElem_range, hfrom]
  exact congrArg some (congrArg (Config.mk _ _) (State.withStack_self hs))

variable (host tail) in
/-- The index behind the last block leaves the loop. -/
theorem runs_exit (hs : s.stack = [])
    (hk : s.locals blockIndexLocal = .i32 (BitVec.ofNat 32 codes.length)) :
    host.Runs (atLoop codes blockIndexLocal tail s) ⟨tail, [], s⟩ := by
  refine runs_switch hbalanced hlength hlocal hs hk le_rfl ?_
  rw [if_neg (lt_irrefl _), branch, drop_append]
  have hdrop : (drop (codes.length + 2)
      ((range (codes.length + 1)).map fun j ↦ (⟨codeFrom codes tail j, []⟩ : Label))) = [] := by
    exact drop_eq_nil_of_le (by simp)
  rw [hdrop, length_map, length_range]
  have hone : codes.length + 2 - (codes.length + 1) = 1 := by omega
  rw [hone]
  exact congrArg some (congrArg (Config.mk _ _) (State.withStack_self hs))

omit hbalanced hlength hlocal in
/-- A branch out of a block as far as its depth says goes to the loop. -/
theorem branch_loop {k : ℕ} (hk : k < codes.length) :
    branch (blockLabels codes blockIndexLocal tail k) (codes.length - k) s
      = some (atLoop codes blockIndexLocal tail (s.withStack [])) := by
  rw [branch, blockLabels, drop_append]
  have hdrop : drop (codes.length - k) (drop (k + 1)
      ((range (codes.length + 1)).map fun j ↦ (⟨codeFrom codes tail j, []⟩ : Label))) = [] := by
    exact drop_eq_nil_of_le (by simp)
  rw [hdrop, length_drop, length_map, length_range]
  have hzero : codes.length - k - (codes.length + 1 - (k + 1)) = 0 := by omega
  rw [hzero]
  rfl

end Dispatcher

end Banjo.Target.Wasm
