import Banjo.Codegen.Liveness

/-!
# The registers instructions read and write

What an instruction does to registers is said by the roles of its operands and by the registers it
has without an operand. The register analyzers of the targets list registers with usages, and a list
is complete when it has every register that is read as one that is used and every register that is
written as one that is defined.
-/

open List

namespace Banjo.Target

open Codegen

/-- What an operand is made of. -/
inductive Shape where
  | register (reg : Register)
  | address (regs : List Register)
  | other
  deriving DecidableEq, Repr

/-- What an instruction does to an operand. -/
inductive Role where
  | read | write | readWrite
  deriving DecidableEq, Repr

structure Effect where
  reads : List Register := []
  writes : List Register := []
  deriving DecidableEq, Repr

namespace Effect

def append (a b : Effect) : Effect := ⟨a.reads ++ b.reads, a.writes ++ b.writes⟩

instance : Append Effect := ⟨append⟩

@[simp] theorem reads_append (a b : Effect) : (a ++ b).reads = a.reads ++ b.reads := rfl

@[simp] theorem writes_append (a b : Effect) : (a ++ b).writes = a.writes ++ b.writes := rfl

end Effect

/-- The registers of an address are read whatever is done to the memory. -/
def Shape.effect : Shape → Role → Effect
  | .register reg, .read => { reads := [reg] }
  | .register reg, .write => { writes := [reg] }
  | .register reg, .readWrite => ⟨[reg], [reg]⟩
  | .address regs, _ => { reads := regs }
  | .other, _ => {}

/-- What is done to the operands that have a role. -/
def effectOf : List Role → List Shape → Effect
  | [], _ => {}
  | _ :: _, [] => {}
  | role :: roles, shape :: shapes => shape.effect role ++ effectOf roles shapes

/-- A list of usages that has everything an instruction reads and writes. -/
structure Lists (ops : List RegOp) (effect : Effect) : Prop where
  reads : ∀ reg ∈ effect.reads, ⟨reg, .USE⟩ ∈ ops ∨ ⟨reg, .USE_DEF⟩ ∈ ops
  writes : ∀ reg ∈ effect.writes, ⟨reg, .DEF⟩ ∈ ops ∨ ⟨reg, .USE_DEF⟩ ∈ ops

namespace Lists

variable {ops ops' : List RegOp} {a b : Effect}

theorem nil (ops : List RegOp) : Lists ops {} :=
  ⟨fun _ h ↦ absurd h not_mem_nil, fun _ h ↦ absurd h not_mem_nil⟩

theorem mono (h : Lists ops a) (hsub : ops ⊆ ops') : Lists ops' a :=
  ⟨fun reg hreg ↦ (h.reads reg hreg).imp (@hsub _) (@hsub _),
    fun reg hreg ↦ (h.writes reg hreg).imp (@hsub _) (@hsub _)⟩

theorem append (ha : Lists ops a) (hb : Lists ops b) : Lists ops (a ++ b) where
  reads reg hreg := (mem_append.mp hreg).elim (ha.reads reg) (hb.reads reg)
  writes reg hreg := (mem_append.mp hreg).elim (ha.writes reg) (hb.writes reg)

theorem append_append (ha : Lists ops a) (hb : Lists ops' b) : Lists (ops ++ ops') (a ++ b) :=
  (ha.mono (subset_append_left _ _)).append (hb.mono (subset_append_right _ _))

/-- An operand that is listed as read and written is listed as written. -/
theorem of_readWrite {shape : Shape} (h : Lists ops (shape.effect .readWrite)) :
    Lists ops (shape.effect .write) := by
  cases shape with
  | register reg => exact ⟨nofun, h.writes⟩
  | address regs => exact h
  | other => exact h

end Lists

end Banjo.Target
