import Banjo.Codegen.CallLayout

/-!
# Where a caller and a callee find an argument

A call writes an argument to a register or to a slot of the caller's frame, and the callee reads it
from a register or from behind its own frame. Once both frames have their offsets, the two places
are the same exactly when the calling convention gives the argument the same register on both sides,
or two numbers that differ by what the callee's prologue leaves between the frames.
-/

open List Option

namespace Banjo.Codegen.StackFramePass

open MCode StackFrame
open Relation (ReflTransGen)
open SSA (SSAType)

/-- A place at run time. -/
inductive Location where
  | reg (reg : MCode.PhysicalReg)
  | stack (address : ℤ)
  deriving DecidableEq, Repr

/-- Where a place of a function lies when the stack pointer is `sp` behind the prologue. -/
def locate (frame : StackFrame) (sp : ℤ) : ParamStorage → Option Location
  | .register reg => some (.reg reg)
  | .stackSlot id => (frame.offsetOf id).map fun offset ↦ .stack (sp + offset)

/-- The stack pointer of a called function behind its prologue. -/
def calleeSp (conv : CallingConvention) (prolog : List PrologInstr) (sp : ℤ) : ℤ :=
  sp + conv.callDelta + (prolog.map PrologInstr.spDelta).sum

/-- The callee reads every argument where the caller has written it, for a call that is made with
the stack pointer `sp`. -/
def Agrees (conv : CallingConvention) (params : List SSAType) (places : List ParamStorage)
    (caller callee : Function) (prolog : List PrologInstr) (sp : ℤ) : Prop :=
  ∀ i < params.length, ∃ location,
    places[i]?.bind (locate (run conv caller).frame sp) = some location ∧
      (lowerLoadarg conv { params } callee i).bind
        (locate (run conv callee).frame (calleeSp conv prolog sp)) = some location

/-! ## Lowered functions -/

/-- A parameter behind its lowering. -/
def Stored (frame : StackFrame) : SSAType × ArgStorage → Parameter → Prop
  | (type, .inReg reg), param => param = ⟨type, .register reg⟩
  | (type, .onStack _ _), param =>
    ∃ id, param = ⟨type, .stackSlot id⟩ ∧ frame.label id = some (.GENERIC, 0)

variable {frame : StackFrame} {param : Parameter}

variable {entry : SSAType × ArgStorage}

theorem Stored.extends {frame' : StackFrame} (h : Stored frame entry param)
    (hextends : Extends frame frame') : Stored frame' entry param := by
  obtain ⟨type, storage⟩ := entry
  cases storage with
  | inReg reg => exact h
  | onStack slot stackOffset =>
    obtain ⟨id, hparam, hlabel⟩ := h
    exact ⟨id, hparam, hextends.label hlabel⟩

theorem Stored.type_eq (h : Stored frame entry param) : entry.1 = param.type := by
  obtain ⟨type, storage⟩ := entry
  cases storage with
  | inReg reg => rw [show param = _ from h]
  | onStack slot stackOffset =>
    obtain ⟨id, rfl, -⟩ := h
    rfl

theorem lowerParams_spec (params : List (SSAType × ArgStorage)) (h : frame.Fresh) :
    (lowerParams params frame).2.Fresh ∧ Extends frame (lowerParams params frame).2 ∧
      List.Forall₂ (Stored (lowerParams params frame).2) params (lowerParams params frame).1 ∧
      Apart (lowerParams params frame).1 ∧
      ∀ param ∈ (lowerParams params frame).1, ∀ id, param.storage = .stackSlot id →
        frame.stackSlots.length ≤ id := by
  induction params generalizing frame with
  | nil => exact ⟨h, .refl frame, .nil, .nil, by simp [lowerParams]⟩
  | cons entry params ih =>
    obtain ⟨type, storage⟩ := entry
    cases storage with
    | inReg reg =>
      obtain ⟨hfresh, hextends, hstored, hapart, hbelow⟩ := ih h
      refine ⟨hfresh, hextends, .cons rfl hstored, .cons ?_ hapart, ?_⟩
      · rintro - - id ⟨⟩
      · intro param hmem id hid
        obtain rfl | hmem := mem_cons.mp hmem
        · cases hid
        · exact hbelow param hmem id hid
    | onStack slot stackOffset =>
      set slot : StackSlot := { type := .GENERIC, size := 8 }
      have hfresh : (frame.newStackSlot slot).2.Fresh :=
        h.newStackSlot rfl fun htype ↦ by cases htype
      have hextends := extends_newStackSlot frame slot
      obtain ⟨hfresh', hextends', hstored, hapart, hbelow⟩ := ih hfresh
      -- The slots of the other parameters come behind the new one.
      have habove : (frame.newStackSlot slot).2.stackSlots.length =
          frame.stackSlots.length + 1 := by
        simp [newStackSlot]
      refine ⟨hfresh', hextends.trans hextends', .cons ?_ hstored, .cons ?_ hapart, ?_⟩
      · exact ⟨_, rfl, hextends'.label (label_newStackSlot frame slot)⟩
      · rintro param hmem id hid hid'
        have := hbelow param hmem id hid'
        cases hid
        simp only [newStackSlot] at this habove
        omega
      · intro param hmem id hid
        obtain rfl | hmem := mem_cons.mp hmem
        · cases hid
          exact le_rfl
        · have := hbelow param hmem id hid
          omega

variable {conv : CallingConvention}

/-- The rest of the lowering keeps what the layout relies on. -/
structure Keeps (func func' : Function) : Prop where
  fresh : func.frame.Fresh → func'.frame.Fresh
  extends_frame : func.frame.Fresh → Extends func.frame func'.frame
  parameters : func'.parameters = func.parameters
  hasCall : func.hasCall → func'.hasCall

variable (laws : Lawful conv)

theorem Lawful.placeArgs (type : FunctionType) (h : frame.Fresh) :
    (conv.lowerCall type frame).2.Fresh ∧ Extends frame (conv.lowerCall type frame).2 ∧
      List.Forall₂ (Places (conv.lowerCall type frame).2) (laws.callArgs type)
        (conv.lowerCall type frame).1 := by
  rw [laws.lowerCall_eq]
  exact placeArgs_spec h ((laws.gapless type).mono (Nat.zero_le _))

variable {func : Function}

variable {func' : Function}

theorem Step.keeps (laws : Lawful conv) (h : Step conv func func') : Keeps func func' := by
  cases h with
  | newStackSlot slot htype hoffset =>
    refine ⟨fun hfresh ↦ hfresh.newStackSlot hoffset fun h ↦ absurd h htype,
      fun _ ↦ extends_newStackSlot _ slot, rfl, id⟩
  | emit dests => exact ⟨id, fun _ ↦ .refl _, rfl, id⟩
  | lowerCall type =>
    exact ⟨fun hfresh ↦ (laws.placeArgs type hfresh).1,
      fun hfresh ↦ (laws.placeArgs type hfresh).2.1, rfl, fun _ ↦ rfl⟩

theorem keeps_of_steps (laws : Lawful conv)
    (h : ReflTransGen (Step conv) func func') : Keeps func func' := by
  induction h with
  | refl => exact ⟨id, fun _ ↦ .refl _, rfl, id⟩
  | tail _ hstep ih =>
    have hkeeps := hstep.keeps laws
    exact ⟨hkeeps.fresh ∘ ih.fresh,
      fun hfresh ↦ (ih.extends_frame hfresh).trans (hkeeps.extends_frame (ih.fresh hfresh)),
      hkeeps.parameters.trans ih.parameters, hkeeps.hasCall ∘ ih.hasCall⟩

theorem fresh_nil : Fresh {} where
  undefined := by simp
  numbered := by simp

variable {type : FunctionType}

/-- What the layout relies on in a function whose lowering has come some way. -/
theorem Lowered.spec (laws : Lawful conv) (h : Lowered conv type func) :
    func.frame.Fresh ∧ Apart func.parameters ∧
      List.Forall₂ (Stored func.frame) (type.params.zip (conv.getArgStorage type))
        func.parameters := by
  have hkeeps := keeps_of_steps laws h
  obtain ⟨hfresh, -, hstored, hapart, -⟩ :=
    lowerParams_spec (type.params.zip (conv.getArgStorage type)) fresh_nil
  rw [hkeeps.parameters]
  exact ⟨hkeeps.fresh hfresh, hapart,
    hstored.imp fun _ _ h ↦ h.extends (hkeeps.extends_frame hfresh)⟩

theorem Lowered.types (laws : Lawful conv)
    (h : Lowered conv type func) : func.parameters.map Parameter.type = type.params := by
  have hzip : type.params.length ≤ (conv.getArgStorage type).length :=
    (laws.length_getArgStorage type).ge
  obtain ⟨-, -, hstored⟩ := h.spec laws
  rw [← map_fst_zip hzip, eq_comm, ← forall₂_eq_eq_eq, forall₂_map_left_iff, forall₂_map_right_iff]
  exact hstored.imp fun _ _ h ↦ h.type_eq

/-! ## Agreement -/

/-- The places of an argument for which both sides use the same register or the same address, when
the callee's frame ends `gap` bytes off the caller's stack pointer. -/
def Matches (base gap : ℤ) : CallArg → ArgStorage → Prop
  | .reg reg, .inReg reg' => reg = reg'
  | .slot k, .onStack _ stackOffset => base + 8 * k = gap + stackOffset
  | _, _ => False

def CallArg.location (base sp : ℤ) : CallArg → Location
  | .reg reg => .reg reg
  | .slot k => .stack (sp + (base + 8 * k))

def ArgStorage.location (frameEnd : ℤ) : ArgStorage → Location
  | .inReg reg => .reg reg
  | .onStack _ stackOffset => .stack (frameEnd + stackOffset)

theorem location_eq_iff_matches (base gap sp : ℤ) (arg : CallArg) (storage : ArgStorage) :
    CallArg.location base sp arg = ArgStorage.location (sp + gap) storage ↔
      Matches base gap arg storage := by
  cases arg <;> cases storage <;>
    simp [CallArg.location, ArgStorage.location, Matches, add_assoc]

/-- Parameters are stored in generic slots. -/
theorem Lowered.label_param (laws : Lawful conv) (h : Lowered conv type func)
    (hmem : param ∈ func.parameters) {id : StackSlotId} (hid : param.storage = .stackSlot id) :
    func.frame.label id = some (.GENERIC, 0) := by
  obtain ⟨-, -, hstored⟩ := h.spec laws
  obtain ⟨n, hn, rfl⟩ := mem_iff_getElem.mp hmem
  have hentry := (forall₂_iff_get.mp hstored).2 n (by rw [hstored.length_eq]; exact hn) hn
  generalize List.get _ _ = entry at hentry
  obtain ⟨type, storage⟩ := entry
  cases storage with
  | inReg reg =>
    rw [show func.parameters[n] = _ from hentry] at hid
    cases hid
  | onStack index stackOffset =>
    obtain ⟨id', hparam, hlabel⟩ := hentry
    rw [show func.parameters[n] = _ from hparam] at hid
    cases hid
    exact hlabel

variable {after before : Function}

/-- The caller has an argument where its convention puts it. -/
theorem locate_of_places
    (hbefore : Lowered conv type before) (hkeeps : Keeps before after) (hcall : after.hasCall)
    {arg : CallArg} {place : ParamStorage} (h : Places after.frame arg place) (sp : ℤ) :
    locate (run conv after).frame sp place = some (CallArg.location laws.base sp arg) := by
  obtain ⟨hfresh, -⟩ := hbefore.spec laws
  cases arg with
  | reg reg => rw [show place = _ from h]; rfl
  | slot k =>
    obtain ⟨id, rfl, hid⟩ := h
    refine map_eq_some_iff.mpr ⟨_, offsetOf_run_callArg laws (hkeeps.fresh hfresh) hcall
      ?_ hid, rfl⟩
    intro param hmem id hid
    rw [hkeeps.parameters] at hmem
    exact ⟨0, (hkeeps.extends_frame hfresh).label (hbefore.label_param laws hmem hid)⟩

/-- The callee has a parameter where its convention puts it. -/
theorem locate_loadarg (laws : Lawful conv) {params : List SSAType} {callee : Function}
    (hcallee : Lowered conv { params } callee) {i : ℕ} {storage : ArgStorage}
    (hstorage : (conv.getArgStorage { params })[i]? = some storage) (sp : ℤ) :
    (lowerLoadarg conv { params } callee i).bind (locate (run conv callee).frame sp) =
      some (ArgStorage.location
        (sp + (allocaSize conv callee + (conv.createImplicitRegion callee).1.size)) storage) := by
  rw [lowerLoadarg, hstorage]
  cases storage with
  | inReg reg => rfl
  | onStack slot stackOffset =>
    obtain ⟨hfresh, hapart, hstored⟩ := hcallee.spec laws
    have hi := (List.getElem?_eq_some_iff.mp hstorage).1
    have hparams : i < params.length := by rwa [laws.length_getArgStorage] at hi
    have hzip : i < (params.zip (conv.getArgStorage { params })).length := by
      rw [length_zip]
      exact lt_min hparams hi
    have hlength : i < callee.parameters.length := hstored.length_eq ▸ hzip
    have hentry := (forall₂_iff_get.mp hstored).2 i hzip hlength
    rw [get_eq_getElem, getElem_zip, (List.getElem?_eq_some_iff.mp hstorage).2] at hentry
    obtain ⟨id, hparam, hlabel⟩ := hentry
    rw [get_eq_getElem] at hparam
    have hparam' : callee.parameters[i]? = some ⟨params[i], .stackSlot id⟩ := by
      rw [getElem?_eq_getElem hlength, hparam]
    simp only [hparam', map_some, bind_some, locate]
    rw [offsetOf_run_param laws hapart hparam' rfl hlabel
      (by rw [hcallee.types laws]; exact hstorage)]
    simp [ArgStorage.location, add_assoc]

theorem agrees_iff_matches (params : List SSAType)
    {callee : Function} {prolog : List PrologInstr} {gap : ℤ}
    (hbefore : Lowered conv type before)
    (hafter : ReflTransGen (Step conv)
      { before with frame := (conv.lowerCall { params } before.frame).2, hasCall := true } after)
    (hcallee : Lowered conv { params } callee)
    (hgap : conv.callDelta + (prolog.map PrologInstr.spDelta).sum +
      (allocaSize conv callee + (conv.createImplicitRegion callee).1.size) = gap) (sp : ℤ) :
    Agrees conv params (conv.lowerCall { params } before.frame).1 after callee prolog sp ↔
      List.Forall₂ (Matches laws.base gap) (laws.callArgs { params })
        (conv.getArgStorage { params }) := by
  obtain ⟨hfresh, -, -⟩ := hbefore.spec laws
  obtain ⟨hfresh', hextends, hplaces⟩ := laws.placeArgs { params } hfresh
  have hkeeps := keeps_of_steps laws hafter
  have hkeeps' : Keeps before after :=
    ⟨fun _ ↦ hkeeps.fresh hfresh', fun _ ↦ hextends.trans (hkeeps.extends_frame hfresh'),
      hkeeps.parameters, fun _ ↦ hkeeps.hasCall rfl⟩
  have hsp : calleeSp conv prolog sp +
      (allocaSize conv callee + (conv.createImplicitRegion callee).1.size) = sp + gap := by
    rw [← hgap, calleeSp]
    omega
  have hargs := laws.length_callArgs { params }
  have hstorages := laws.length_getArgStorage { params }
  -- Both sides know where they have argument `i`.
  have hlocations : ∀ i (hi : i < params.length),
      (conv.lowerCall { params } before.frame).1[i]?.bind
        (locate (run conv after).frame sp) =
          some (CallArg.location laws.base sp ((laws.callArgs { params })[i])) ∧
      (lowerLoadarg conv { params } callee i).bind
        (locate (run conv callee).frame (calleeSp conv prolog sp)) =
          some (ArgStorage.location (sp + gap) ((conv.getArgStorage { params })[i])) := by
    intro i hi
    have hi' : i < (conv.lowerCall { params } before.frame).1.length := by
      rw [← hplaces.length_eq, hargs]
      exact hi
    constructor
    · rw [getElem?_eq_getElem hi', bind_some]
      have := (forall₂_iff_get.mp hplaces).2 i (by rw [hargs]; exact hi) hi'
      exact locate_of_places laws hbefore hkeeps' (hkeeps.hasCall rfl)
        (this.extends (hkeeps.extends_frame hfresh')) sp
    · rw [← hsp]
      exact locate_loadarg laws hcallee (getElem?_eq_getElem _) _
  rw [forall₂_iff_get]
  constructor
  · refine fun h ↦ ⟨hargs.trans hstorages.symm, fun i hi hi' ↦ ?_⟩
    rw [hargs] at hi
    obtain ⟨location, hcaller, hcallee⟩ := h i hi
    obtain ⟨hcaller', hcallee'⟩ := hlocations i hi
    refine (location_eq_iff_matches laws.base gap sp _ _).mp ?_
    exact some.inj (hcaller'.symm.trans (hcaller.trans (hcallee.symm.trans hcallee')))
  · rintro ⟨-, h⟩ i hi
    obtain ⟨hcaller, hcallee⟩ := hlocations i hi
    have hmatches := h i (by rw [hargs]; exact hi) (by rw [hstorages]; exact hi)
    refine ⟨_, hcaller, hcallee.trans (congrArg some ?_)⟩
    exact ((location_eq_iff_matches laws.base gap sp _ _).mpr hmatches).symm

end Banjo.Codegen.StackFramePass
