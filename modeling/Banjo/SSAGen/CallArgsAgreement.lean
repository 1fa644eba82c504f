import Banjo.SSAGen.CallArgs

/-!
# What a function finds in its slots

The slots of the parameters are placed below each other without gaps. The second part of an argument
is stored whole, so that it may reach over the end of the slot, into the slots of earlier
parameters.
-/

open List Option

namespace Banjo.SSAGen.CallArgs

open SSA (Primitive)
open Target

/-! ## Stack slots of arguments -/

def lowest (objects : List (ℤ × ℕ)) : ℤ := objects.foldr (fun object low ↦ min object.1 low) 0

theorem lowest_le {objects : List (ℤ × ℕ)} {object : ℤ × ℕ} (h : object ∈ objects) :
    lowest objects ≤ object.1 := by
  induction h with
  | head _ => exact min_le_left _ _
  | tail _ _ ih => exact (min_le_right _ _).trans ih

/-- The slots of arguments, as in `create_arg_store_region`: each below the one before. -/
def argStores : Allocator where
  place objects size := lowest objects - size
  fresh _ _ _ hobject := Or.inl (by have := lowest_le hobject; omega)

variable (objects : List (ℤ × ℕ))

theorem lowest_append (object : ℤ × ℕ) :
    lowest (objects ++ [object]) = min (lowest objects) object.1 := by
  induction objects with
  | nil => exact min_comm _ _
  | cons first objects ih =>
    show min first.1 (lowest (objects ++ [object])) = min (min first.1 (lowest objects)) object.1
    rw [ih, min_assoc]

theorem lowest_argStores (size : ℕ) :
    lowest (objects ++ [(argStores.place objects size, size)]) = lowest objects - size := by
  rw [lowest_append]
  show min (lowest objects) (lowest objects - size) = _
  omega

/-! ## One slot -/

variable {platform : Platform}

/-- The size of the slot of a parameter. -/
def slotSize (platform : Platform) (type : LayoutType) : ℕ :=
  if fitsInRegister platform type ∨ Splits platform type then getSize platform type
  else primitiveSize platform .ADDR

variable {type : LayoutType}

theorem passedSize_eq_slotSize (h : fitsInRegister platform type ∨ ¬Splits platform type) :
    passedSize platform type = slotSize platform type := by
  unfold slotSize
  by_cases hfits : fitsInRegister platform type
  · simp [passedSize, wordSizes, hfits]
  · simp [passedSize, wordSizes, hfits, h.resolve_left hfits]

/-- Only the second part of an argument may be longer than what it is for. -/
theorem passedSize_bounds (platform : Platform) (type : LayoutType) :
    slotSize platform type ≤ passedSize platform type ∧
      passedSize platform type ≤ slotSize platform type + 8 := by
  by_cases h : fitsInRegister platform type ∨ ¬Splits platform type
  · rw [passedSize_eq_slotSize h]
    omega
  · obtain ⟨hfits, hsplits⟩ := not_or.mp h
    rw [not_not] at hsplits
    rw [passedSize_of_splits hfits hsplits, slotSize, if_pos (Or.inr hsplits)]
    have hlow := tailSize_le_getSize_sized platform hsplits
    have hhigh := getSize_sized_le platform (tailSize platform type)
    have hsize := hsplits.2.1
    unfold tailSize at *
    omega

theorem getSize_slotType (platform : Platform) (type : LayoutType) :
    getSize platform (if (getArgPassMethod platform type).viaPointer then .primitive .ADDR
      else type) = slotSize platform type := by
  rw [viaPointer_eq, slotSize]
  by_cases h : fitsInRegister platform type ∨ Splits platform type
  · rw [if_neg fun hpointer ↦ absurd h (of_decide_eq_true hpointer), if_pos h]
  · rw [if_pos (decide_eq_true h), if_neg h, getSize, mul_one]

/-- The state with the words in a new slot. -/
def State.withSlot (platform : Platform) (alloc : Allocator) (s : State) (type : LayoutType)
    (words : List Word) : State where
  mem := write s.mem (alloc.place s.objects (slotSize platform type))
    (words.flatMap (Word.cells platform))
  objects := s.objects ++ [(alloc.place s.objects (slotSize platform type), slotSize platform type)]

theorem generateParamSlot_spec (alloc : Allocator) (s : State) {args words rest : List Word}
    {index : ℕ} (hargs : args.drop index = words ++ rest) (hfills : Fills platform type words) :
    generateParamSlot platform alloc args type index s =
      some (alloc.place s.objects (slotSize platform type),
        s.withSlot platform alloc type words) := by
  have hget : ∀ i < words.length, args[index + i]? = words[i]? := fun i hi ↦ by
    rw [← getElem?_drop, hargs, getElem?_append_left hi]
  unfold generateParamSlot State.withSlot
  have hnum := hfills.length
  simp only [← hnum]
  by_cases hsplits : ¬fitsInRegister platform type ∧ Splits platform type
  · obtain ⟨first, second, rfl⟩ : ∃ first second, words = [first, second] := by
      refine length_eq_two.mp ?_
      rw [hnum, numArgs_eq, wordSizes, if_neg hsplits.1, if_pos hsplits.2]
      rfl
    have hfirst : (first.cells platform).length = 8 := by
      have h := hfills
      rw [Fills, wordSizes, if_neg hsplits.1, if_pos hsplits.2] at h
      exact (cons_eq_cons.mp h).1
    have husize : getSize platform (.primitive platform.params.usizeType) = 8 := by
      rw [usizeType_of_splits hsplits.2]
      rfl
    have happend := write_append s.mem (alloc.place s.objects (slotSize platform type))
      (first.cells platform) (second.cells platform)
    rw [hfirst] at happend
    have h0 := hget 0 (by simp)
    have h1 := hget 1 (by simp)
    simp [alloca, getSize_slotType, loadarg, store, offsetptr, husize, bind, StateT.bind, pure,
      statePure_apply, h1, ← happend, show List.range 2 = [0, 1] from rfl] at h0 ⊢
    simp [h0]
  · obtain ⟨word, rfl⟩ : ∃ word, words = [word] := by
      refine length_eq_one_iff.mp ?_
      rw [hnum, numArgs_eq, wordSizes]
      split_ifs with hfits hsplit
      · rfl
      · exact absurd ⟨hfits, hsplit⟩ hsplits
      · rfl
    have h0 := hget 0 (by simp)
    simp [alloca, getSize_slotType, loadarg, store, bind, StateT.bind, pure,
      statePure_apply] at h0 ⊢
    simp [h0]

/-! ## All slots -/

/-- How far the arguments reach over the end of the first slot. -/
def reach (platform : Platform) : List LayoutType → ℕ
  | [] => 0
  | type :: types =>
    max (passedSize platform type - slotSize platform type)
      (reach platform types - slotSize platform type)

theorem reach_le (platform : Platform) (types : List LayoutType) : reach platform types ≤ 8 := by
  induction types with
  | nil => exact Nat.zero_le _
  | cons type types ih =>
    have hover := (passedSize_bounds platform type).2
    unfold reach
    omega

/-- The bytes behind the ends of the arguments are all this one. -/
def Spills (platform : Platform) (cell : Cell) : List LayoutType → List (List Word) → Prop :=
  List.Forall₂ fun type words ↦
    ∀ c ∈ (words.flatMap (Word.cells platform)).drop (slotSize platform type), c = cell

/-- Slot by slot, what is there in the end. -/
inductive Stored (platform : Platform) (mem : ℤ → Cell) :
    List LayoutType → List (List Word) → List ℤ → Prop
  | nil : Stored platform mem [] [] []
  | cons {type types words wordss slot slots}
      (hold : reach platform types = 0 → read mem slot (slotSize platform type) =
        (words.flatMap (Word.cells platform)).take (slotSize platform type))
      (lost : 0 < reach platform types → ∀ cell, Spills platform cell types wordss →
        mem slot = cell)
      (tail : Stored platform mem types wordss slots) :
      Stored platform mem (type :: types) (words :: wordss) (slot :: slots)

variable {types : List LayoutType} {wordss : List (List Word)}

/-- The slots, and what the code changes above them. -/
theorem generateParamSlots_spec (hfills : List.Forall₂ (Fills platform) types wordss) :
    ∀ (args : List Word) (index : ℕ) (s : State), args.drop index = wordss.flatten →
      ∃ slots s', generateParamSlots platform argStores args types index s = some (slots, s') ∧
        (∀ a, lowest s.objects + reach platform types ≤ a → s'.mem a = s.mem a) ∧
        (∀ cell, Spills platform cell types wordss →
          ∀ a, lowest s.objects ≤ a → a < lowest s.objects + reach platform types →
            s'.mem a = cell) ∧
        Stored platform s'.mem types wordss slots := by
  induction hfills with
  | nil =>
    intro args index s _
    refine ⟨[], s, rfl, fun _ _ ↦ rfl, fun _ _ a hlow hhigh ↦ ?_, .nil⟩
    simp only [reach] at hhigh
    omega
  | @cons type words types wordss hwords hall ih =>
    intro args index s hargs
    rw [flatten_cons] at hargs
    have hslot := generateParamSlot_spec argStores s hargs hwords
    have hdrop : args.drop (index + (getArgPassMethod platform type).numArgs) = wordss.flatten := by
      rw [← drop_drop, hargs, ← hwords.length, drop_left]
    obtain ⟨slots, s', hrun, hframe, hspill, hstored⟩ :=
      ih args _ (s.withSlot platform argStores type words) hdrop
    set slot := argStores.place s.objects (slotSize platform type) with hslotdef
    have hplace : slot = lowest s.objects - slotSize platform type := rfl
    have hlowest : lowest (s.withSlot platform argStores type words).objects = slot :=
      lowest_argStores _ _
    have hlength := hwords.length_flatMap
    have hle := (passedSize_bounds platform type).1
    rw [hlowest] at hframe hspill
    refine ⟨slot :: slots, s', ?_, fun a ha ↦ ?_, fun cell hcell a hlow hhigh ↦ ?_,
      .cons (fun hreach ↦ ?_) (fun hreach cell hcell ↦ ?_) hstored⟩
    · simp [generateParamSlots, bind, StateT.bind, hslot, hrun, pure, statePure_apply]
    · -- Behind the reach of this slot and of all the later ones.
      unfold reach at ha
      rw [hframe a (by omega)]
      exact write_of_outside (by omega)
    · obtain ⟨hthis, hlater⟩ := forall₂_cons.mp hcell
      obtain hin | hout := lt_or_ge a (slot + reach platform types)
      · exact hspill cell hlater a (by omega) hin
      · unfold reach at hhigh
        obtain ⟨k, rfl⟩ : ∃ k : ℕ, a = slot + (slotSize platform type + k : ℕ) :=
          ⟨(a - lowest s.objects).toNat, by omega⟩
        rw [hframe _ hout]
        have hk : slotSize platform type + k < (words.flatMap (Word.cells platform)).length := by
          omega
        refine (write_of_inside hk).trans (hthis _ ?_)
        rw [mem_drop_iff_getElem]
        exact ⟨k, by omega, by congr 1⟩
    · rw [read_congr fun k _ ↦ hframe (slot + k) (by omega)]
      exact read_write_self _ _ _ (by omega)
    · exact hspill cell hcell slot le_rfl (by omega)

/-! ## The entry of a function -/

/-- At the entry, the return address and the saved registers are below the frame of the caller. -/
def State.enter (s : State) (link : List Cell) : State where
  mem := write s.mem (argStores.place s.objects link.length) link
  objects := s.objects ++ [(argStores.place s.objects link.length, link.length)]

theorem generateFuncEntry_spec
    (hfills : List.Forall₂ (Fills platform) types wordss) (returnType : LayoutType)
    (hidden : List Word) (s : State) (ret : ℤ)
    (hhidden : hidden =
      if getReturnMethod platform returnType = .VIA_POINTER_ARG then [.addr ret] else []) :
    ∃ slots s', generateFuncEntry platform argStores returnType types (hidden ++ wordss.flatten) s =
        some (slots, s') ∧
      (∀ a, lowest s.objects + reach platform types ≤ a → s'.mem a = s.mem a) ∧
      Stored platform s'.mem types wordss slots := by
  unfold generateFuncEntry
  by_cases hvia : getReturnMethod platform returnType = .VIA_POINTER_ARG
  · rw [if_pos hvia] at hhidden
    subst hhidden
    set size := getSize platform (.primitive .ADDR) with hsize
    set slot := argStores.place s.objects size with hslotdef
    have hplace : slot = lowest s.objects - size := rfl
    obtain ⟨slots, s', hrun, hframe, -, hstored⟩ := generateParamSlots_spec hfills
      ([.addr ret] ++ wordss.flatten) 1
      ⟨write s.mem slot ((Word.addr ret).cells platform), s.objects ++ [(slot, size)]⟩ rfl
    have hlength : ((Word.addr ret).cells platform).length = size := by
      rw [length_addr_cells, hsize, getSize, mul_one]
    rw [show lowest (s.objects ++ [(slot, size)]) = lowest s.objects - size from
      lowest_argStores _ _] at hframe
    refine ⟨slots, s', ?_, fun a ha ↦ ?_, hstored⟩
    · rw [if_pos hvia]
      simpa [alloca, loadarg, store, bind, StateT.bind, pure, statePure_apply] using hrun
    · rw [hframe a (by omega)]
      exact write_of_outside (by omega)
  · rw [if_neg hvia] at hhidden
    subst hhidden
    obtain ⟨slots, s', hrun, hframe, -, hstored⟩ := generateParamSlots_spec hfills
      ([] ++ wordss.flatten) 0 s rfl
    exact ⟨slots, s', by rw [if_neg hvia]; exact hrun, hframe, hstored⟩

/-!
## The two sides of a call

The operands of a call are the parameters of the function, and the slots hold the arguments, unless
an argument is undefined and needs more than a register, or the second part of an argument is stored
over the slot of an earlier one.
-/

variable {platform : Platform}

/-! ## The caller -/

theorem setCallee_spec (platform : Platform) (alloc : Allocator) (callee : Word)
    (returnType : LayoutType) (hint : Option ℤ) (s : State) :
    ∃ first hidden s' ret, setCallee platform alloc callee returnType hint s =
        some (first :: hidden, s') ∧ Keeps s s' ∧
      hidden = if getReturnMethod platform returnType = .VIA_POINTER_ARG then
        [(.addr ret, .primitive .ADDR)] else [] := by
  unfold setCallee
  by_cases hvia : getReturnMethod platform returnType = .VIA_POINTER_ARG
  · simp only [if_pos hvia]
    cases hint with
    | some dst => exact ⟨_, _, s, dst, rfl, .refl s, rfl⟩
    | none =>
      refine ⟨_, _, _, _, rfl, ?_, rfl⟩
      have hkeeps := @keeps_write alloc s (getSize platform returnType) [] (Nat.zero_le _)
      rwa [write_nil] at hkeeps
  · simp only [if_neg hvia]
    exact ⟨_, _, s, 0, rfl, .refl s, rfl⟩

variable (alloc : Allocator) {s : State} {values : List StoredValue}

/-- What the caller gives to the function. -/
theorem generateCall_spec (callee : Word) (returnType : LayoutType) (hint : Option ℤ)
    (hvalid : ∀ value ∈ values, value.Valid platform s)
    (hundefined : ∀ value ∈ values, value.kind = .UNDEFINED → fitsInRegister platform value.type) :
    ∃ first hidden operandss t ret,
      generateCall platform alloc callee returnType hint values s =
        some (first :: hidden ++ operandss.flatten, t) ∧ Keeps s t ∧
      hidden = (if getReturnMethod platform returnType = .VIA_POINTER_ARG then
        [(.addr ret, .primitive .ADDR)] else []) ∧
      List.Forall₂ (Passes platform s t) values operandss := by
  obtain ⟨first, hidden, u, ret, hcallee, hkeeps, hhidden⟩ :=
    setCallee_spec platform alloc callee returnType hint s
  obtain ⟨operandss, t, hmap, hkeeps', hall⟩ := mapM_addArg_spec alloc values
    (fun value hvalue ↦ (hvalid value hvalue).keeps hkeeps) hundefined
  refine ⟨first, hidden, operandss, t, ret, ?_, hkeeps.trans hkeeps', hhidden, ?_⟩
  · simp [generateCall, bind, StateT.bind, hcallee, hmap, pure, statePure_apply]
  · exact forall₂_keeps_left hvalid hkeeps hall

/-! ## Agreement -/

/-- What is known of an argument when the code is generated. -/
structure Shape (platform : Platform) where
  kind : Kind
  type : LayoutType
  fits : kind = .VALUE → fitsInRegister platform type

def StoredValue.HasShape (value : StoredValue) (shape : Shape platform) : Prop :=
  value.kind = shape.kind ∧ value.type = shape.type

/-- The slot has the value, or a pointer to it. -/
def Holds (platform : Platform) (mem : ℤ → Cell) (type : LayoutType) (slot : ℤ)
    (cells : List Cell) : Prop :=
  if fitsInRegister platform type ∨ Splits platform type then
    read mem slot (getSize platform type) = cells
  else ∃ copy, read mem slot (primitiveSize platform .ADDR) = (Word.addr copy).cells platform ∧
    read mem copy (getSize platform type) = cells

/-- The code is generated, the operands have the types of the parameters, and every slot has its
value when the code at the entry of the function has run. -/
def Agrees (platform : Platform) (returnType : LayoutType)
    (shapes : List (Shape platform)) : Prop :=
  ∀ (alloc : Allocator) (s : State) (values : List StoredValue) (callee : Word) (hint : Option ℤ)
    (link : List Cell), List.Forall₂ StoredValue.HasShape values shapes →
    (∀ value ∈ values, value.Valid platform s) → 8 ≤ link.length →
    ∃ operands t, generateCall platform alloc callee returnType hint values s = some (operands, t) ∧
      operands.tail.map Prod.snd = generateParams platform returnType (shapes.map Shape.type) ∧
      ∃ slots s', generateFuncEntry platform argStores returnType (shapes.map Shape.type)
          (operands.tail.map Prod.fst) (t.enter link) = some (slots, s') ∧
        List.Forall₂ (fun value slot ↦ ∀ cells, value.cells platform s = some cells →
          Holds platform s'.mem value.type slot cells) values slots

/-- No argument reaches into the slot of an earlier one that has a value. -/
def Clear (platform : Platform) : List (Shape platform) → Prop
  | [] => True
  | shape :: shapes =>
    (shape.kind ≠ .UNDEFINED → 0 < slotSize platform shape.type →
      reach platform (shapes.map Shape.type) = 0) ∧ Clear platform shapes

/-! ## What holds when nothing is overwritten -/

variable {operandss : List (List (Word × LayoutType))} {t : State}

theorem types_flatten (hall : List.Forall₂ (Passes platform s t) values operandss) :
    operandss.flatten.map Prod.snd =
      (values.map StoredValue.type).flatMap (paramTypes platform) := by
  induction hall with
  | nil => rfl
  | cons hpasses _ ih =>
    rw [flatten_cons, map_append, hpasses.types, ih, map_cons, flatMap_cons]

theorem fills_of_passes (hall : List.Forall₂ (Passes platform s t) values operandss) :
    List.Forall₂ (Fills platform) (values.map StoredValue.type)
      (operandss.map (map Prod.fst)) := by
  induction hall with
  | nil => exact .nil
  | cons hpasses _ ih => exact .cons hpasses.fills ih

variable {shapes : List (Shape platform)}

theorem map_type_of_hasShape (h : List.Forall₂ StoredValue.HasShape values shapes) :
    values.map StoredValue.type = shapes.map Shape.type := by
  induction h with
  | nil => rfl
  | cons hshape _ ih => rw [map_cons, map_cons, hshape.2, ih]

theorem fits_of_hasShape (h : List.Forall₂ StoredValue.HasShape values shapes)
    (hfit : ∀ shape ∈ shapes, shape.kind = .UNDEFINED → fitsInRegister platform shape.type) :
    ∀ value ∈ values, value.kind = .UNDEFINED → fitsInRegister platform value.type := by
  induction h with
  | nil => nofun
  | cons hshape _ ih =>
    rw [forall_mem_cons] at hfit ⊢
    exact ⟨by rw [hshape.1, hshape.2]; exact hfit.1, ih hfit.2⟩

variable {cells : List Cell} {mem : ℤ → Cell} {operands : List (Word × LayoutType)}
  {value : StoredValue}

variable {slot : ℤ}

/-- The slot has what was passed. -/
theorem holds_of_passes (hpasses : Passes platform s t value operands)
    (hmem : ∀ object ∈ t.objects, read mem object.1 object.2 = read t.mem object.1 object.2)
    (hread : read mem slot (slotSize platform value.type) =
      ((operands.map Prod.fst).flatMap (Word.cells platform)).take (slotSize platform value.type))
    (hcells : value.cells platform s = some cells) :
    Holds platform mem value.type slot cells := by
  have hencodes := hpasses.encodes cells hcells
  unfold Holds
  unfold Encodes at hencodes
  unfold slotSize at hread
  split_ifs at hencodes hread ⊢ with h
  · obtain ⟨hlength, hpart⟩ := hencodes
    rw [hread, ← hlength]
    exact (prefix_iff_eq_take.mp hpart).symm
  · obtain ⟨copy, hwords, hobject, hcopy⟩ := hencodes
    refine ⟨copy, ?_, (hmem _ hobject).trans hcopy⟩
    rw [hread, hwords, flatMap_singleton, ← length_addr_cells copy, take_length]

theorem StoredValue.kind_ne_of_cells
    (h : value.cells platform s = some cells) : value.kind ≠ .UNDEFINED := by
  cases value with
  | undefined type => cases h
  | _ => nofun

variable {slots : List ℤ}

theorem holds_of_stored
    (hshapes : List.Forall₂ StoredValue.HasShape values shapes)
    (hall : List.Forall₂ (Passes platform s t) values operandss)
    (hstored : Stored platform mem (values.map StoredValue.type)
      (operandss.map (map Prod.fst)) slots)
    (hmem : ∀ object ∈ t.objects, read mem object.1 object.2 = read t.mem object.1 object.2)
    (hclear : Clear platform shapes) :
    List.Forall₂ (fun value slot ↦ ∀ cells, value.cells platform s = some cells →
      Holds platform mem value.type slot cells) values slots := by
  induction hall generalizing shapes slots with
  | nil =>
    cases hstored
    exact .nil
  | cons hpasses hrest ih =>
    cases hshapes with
    | cons hshape hshapes =>
      cases hstored with
      | cons hold _ hstored =>
        refine .cons (fun cells hcells ↦ holds_of_passes hpasses hmem ?_ hcells)
          (ih hshapes hstored hclear.2)
        obtain hzero | hpos := Nat.eq_zero_or_pos (slotSize platform _)
        · rw [hzero]
          rfl
        · refine hold ?_
          rw [map_type_of_hasShape hshapes]
          refine hclear.1 ?_ (hshape.2 ▸ hpos)
          rw [← hshape.1]
          exact StoredValue.kind_ne_of_cells hcells

theorem agrees_of_clear (returnType : LayoutType)
    (hfit : ∀ shape ∈ shapes, shape.kind = .UNDEFINED → fitsInRegister platform shape.type)
    (hclear : Clear platform shapes) : Agrees platform returnType shapes := by
  intro alloc s values callee hint link hshapes hvalid hlink
  obtain ⟨first, hidden, operandss, t, ret, hcall, hkeeps, hhidden, hall⟩ :=
    generateCall_spec alloc callee returnType hint hvalid (fits_of_hasShape hshapes hfit)
  have hfills := fills_of_passes hall
  rw [map_type_of_hasShape hshapes] at hfills
  obtain ⟨slots, s', hrun, hframe, hstored⟩ := generateFuncEntry_spec hfills returnType
    (hidden.map Prod.fst) (t.enter link) ret (by rw [hhidden]; split_ifs <;> rfl)
  refine ⟨_, t, hcall, ?_, slots, s', ?_, ?_⟩
  · rw [cons_append, tail_cons, map_append, types_flatten hall,
      map_type_of_hasShape hshapes, hhidden, generateParams]
    congr 1
    split_ifs <;> rfl
  · rw [cons_append, tail_cons, map_append, map_flatten]
    exact hrun
  · rw [← map_type_of_hasShape hshapes] at hstored
    refine holds_of_stored hshapes hall hstored (fun object hobject ↦ ?_) hclear
    -- The frame of the caller is above the saved registers, which nothing reaches over.
    have hlow := lowest_le hobject
    have hreach := reach_le platform (shapes.map Shape.type)
    have henter : lowest (t.enter link).objects = lowest t.objects - link.length :=
      lowest_argStores _ _
    refine read_congr fun k _ ↦ (hframe _ (by omega)).trans (write_of_outside ?_)
    show _ ∨ lowest t.objects - link.length + link.length ≤ object.1 + k
    omega

/-! ## What fails otherwise -/

theorem mapM_cons_inv {f : StoredValue → GenM (List (Word × LayoutType))}
    (h : (value :: values).mapM f s = some (operandss, t)) :
    ∃ operands u rest, f value s = some (operands, u) ∧ values.mapM f u = some (rest, t) ∧
      operandss = operands :: rest := by
  rw [mapM_cons] at h
  simp only [bind, StateT.bind, pure, statePure_apply, bind_eq_some_iff, some.injEq,
    Prod.mk.injEq, Prod.exists] at h
  obtain ⟨operands, u, hvalue, rest, t', hrest, rfl, rfl⟩ := h
  exact ⟨operands, u, rest, hvalue, hrest, rfl⟩

variable {type : LayoutType}

/-- A large argument that is undefined is given up, or has an operand that is none of its
parameter. -/
theorem types_ne_of_undefined {u : State} (hfits : ¬fitsInRegister platform type)
    (h : addArg platform alloc (.undefined type) s = some (operands, u))
    (types types' : List LayoutType) :
    operands.map Prod.snd ++ types ≠ paramTypes platform type ++ types' := by
  by_cases hsplits : Splits platform type
  · have hmethod : getArgPassMethod platform type =
        ⟨false, 2, .sized (tailSize platform type)⟩ := by
      rw [getArgPassMethod_eq, if_neg hfits, if_pos hsplits]
    simp [addArg, StoredValue.type, hmethod, StoredValue.turnIntoReference, bind, StateT.bind,
      failure, StateT.failure] at h
  · rw [addArg_of_numArgs_eq_one alloc (Or.inr hsplits)] at h
    simp [StoredValue.turnIntoValueOrCopy, hfits, alloca, bind, StateT.bind, pure,
      statePure_apply] at h
    rw [← h.1, paramTypes_eq, if_neg hfits, if_neg hsplits]
    simp

theorem fits_of_mapM
    (hvalid : ∀ value ∈ values, value.Valid platform s)
    (hmap : values.mapM (addArg platform alloc) s = some (operandss, t))
    (htypes : operandss.flatten.map Prod.snd =
      (values.map StoredValue.type).flatMap (paramTypes platform)) :
    ∀ value ∈ values, value.kind = .UNDEFINED → fitsInRegister platform value.type := by
  induction values generalizing s operandss with
  | nil => nofun
  | cons value values ih =>
    rw [forall_mem_cons] at hvalid ⊢
    obtain ⟨operands, u, rest, hadd, hrest, rfl⟩ := mapM_cons_inv hmap
    rw [flatten_cons, map_append, map_cons, flatMap_cons] at htypes
    have hfirst : value.kind = .UNDEFINED → fitsInRegister platform value.type := by
      intro hkind
      by_contra hfits
      cases value with
      | undefined type => exact types_ne_of_undefined alloc hfits hadd _ _ htypes
      | _ => cases hkind
    obtain ⟨operands', u', hadd', hkeeps, hpasses⟩ := addArg_spec alloc hvalid.1 hfirst
    obtain ⟨rfl, rfl⟩ := Prod.mk.inj (some.inj (hadd'.symm.trans hadd))
    rw [hpasses.types] at htypes
    exact ⟨hfirst, ih (fun value hvalue ↦ (hvalid.2 value hvalue).keeps hkeeps) hrest
      (append_cancel_left htypes)⟩

/-- An argument of this shape whose first byte is one. -/
def Shape.sample (shape : Shape platform) : StoredValue :=
  match shape.kind with
  | .VALUE => .value (.data (replicate (getSize platform shape.type) (.byte 1))) shape.type
  | .REFERENCE => .reference 0 shape.type
  | .UNDEFINED => .undefined shape.type

/-- All references are to the address 0, and behind the first byte there are zeros. -/
def sampleState (shapes : List (Shape platform)) : State where
  mem a := if a = 0 then .byte 1 else .byte 0
  objects := (0, 24) :: shapes.map fun shape ↦ (0, getSize platform shape.type)

theorem Shape.sample_hasShape (shape : Shape platform) : shape.sample.HasShape shape := by
  obtain ⟨kind, type, fits⟩ := shape
  cases kind <;> exact ⟨rfl, rfl⟩

variable {shape : Shape platform}

theorem Shape.sample_valid
    (h : shape ∈ shapes) : shape.sample.Valid platform (sampleState shapes) := by
  have hobject : (0, getSize platform shape.type) ∈ (sampleState shapes).objects :=
    .tail _ (mem_map.mpr ⟨shape, h, rfl⟩)
  obtain ⟨kind, type, fits⟩ := shape
  cases kind with
  | VALUE => exact ⟨fits rfl, length_replicate⟩
  | REFERENCE => exact hobject
  | UNDEFINED => trivial

theorem Shape.sample_cells (shapes : List (Shape platform)) (hkind : shape.kind ≠ .UNDEFINED) :
    ∃ cells, shape.sample.cells platform (sampleState shapes) = some cells ∧
      (0 < getSize platform shape.type → cells[0]? = some (.byte 1)) := by
  obtain ⟨kind, type, fits⟩ := shape
  cases kind with
  | VALUE => exact ⟨_, rfl, fun hsize ↦ getElem?_replicate_of_lt hsize⟩
  | REFERENCE => exact ⟨_, rfl, fun hsize ↦ getElem?_read hsize⟩
  | UNDEFINED => exact absurd rfl hkind

/-- What is passed behind the end of a reference are the zeros. -/
theorem Shape.sample_spills (hpasses : Passes platform (sampleState shapes) t shape.sample operands)
    (hfit : shape.kind = .UNDEFINED → fitsInRegister platform shape.type) :
    ∀ cell ∈ ((operands.map Prod.fst).flatMap (Word.cells platform)).drop
      (slotSize platform shape.type), cell = .byte 0 := by
  have htype := shape.sample_hasShape.2
  by_cases h : fitsInRegister platform shape.type ∨ ¬Splits platform shape.type
  · have hlength := hpasses.fills.length_flatMap
    rw [htype, passedSize_eq_slotSize h] at hlength
    rw [← hlength, drop_length]
    nofun
  · obtain ⟨hfits, hsplits⟩ := not_or.mp h
    rw [not_not] at hsplits
    have hvalue : shape.sample = .reference 0 shape.type := by
      obtain ⟨kind, type, fits⟩ := shape
      cases kind with
      | VALUE => exact absurd (fits rfl) hfits
      | REFERENCE => rfl
      | UNDEFINED => exact absurd (hfit rfl) hfits
    have hslot : 8 < slotSize platform shape.type := by
      rw [slotSize, if_pos (Or.inr hsplits)]
      exact hsplits.2.1
    have hpassed : passedSize platform shape.type ≤ 24 := by
      have hbound := (passedSize_bounds platform shape.type).2
      rw [slotSize, if_pos (Or.inr hsplits)] at hbound
      have := hsplits.2.2
      omega
    rw [hpasses.parts 0 _ hvalue hfits hsplits 24 (.head _) hpassed]
    intro cell hcell
    obtain ⟨k, hk, rfl⟩ := mem_drop_iff_getElem.mp hcell
    simp only [read, getElem_map, getElem_range]
    exact if_neg (by omega)

variable {all : List (Shape platform)}

theorem spills_of_passes
    (hall : List.Forall₂ (Passes platform (sampleState all) t) (shapes.map Shape.sample) operandss)
    (hfit : ∀ shape ∈ shapes, shape.kind = .UNDEFINED → fitsInRegister platform shape.type) :
    Spills platform (.byte 0) (shapes.map Shape.type) (operandss.map (map Prod.fst)) := by
  induction shapes generalizing operandss with
  | nil =>
    cases hall
    exact .nil
  | cons shape shapes ih =>
    rw [forall_mem_cons] at hfit
    cases hall with
    | cons hpasses hall => exact .cons (shape.sample_spills hpasses hfit.1) (ih hall hfit.2)

/-- A slot that has its value has not been overwritten. -/
theorem Holds.ne_zero (h : Holds platform mem type slot cells) (hslot : 0 < slotSize platform type)
    (hcells : 0 < getSize platform type → cells[0]? = some (.byte 1)) : mem slot ≠ .byte 0 := by
  unfold Holds at h
  unfold slotSize at hslot
  split_ifs at h hslot
  · have hget := hcells hslot
    rw [← h, getElem?_read hslot, Nat.cast_zero, add_zero] at hget
    rw [some.inj hget]
    decide
  · obtain ⟨copy, hpointer, -⟩ := h
    have hget := @getElem?_read mem slot _ 0 hslot
    rw [hpointer, Word.cells, getElem?_map, getElem?_range hslot, map_some,
      Nat.cast_zero, add_zero] at hget
    rw [← some.inj hget]
    intro heq
    cases heq

theorem clear_of_holds
    (hall : List.Forall₂ (Passes platform (sampleState all) t) (shapes.map Shape.sample) operandss)
    (hstored : Stored platform mem (shapes.map Shape.type) (operandss.map (map Prod.fst)) slots)
    (hholds : List.Forall₂ (fun value slot ↦ ∀ cells, value.cells platform (sampleState all) =
      some cells → Holds platform mem value.type slot cells) (shapes.map Shape.sample) slots)
    (hfit : ∀ shape ∈ shapes, shape.kind = .UNDEFINED → fitsInRegister platform shape.type) :
    Clear platform shapes := by
  induction shapes generalizing operandss slots with
  | nil => trivial
  | cons shape shapes ih =>
    rw [forall_mem_cons] at hfit
    cases hall with
    | cons hpasses hall =>
      cases hstored with
      | cons _ lost hstored =>
        obtain ⟨hhold, hholds⟩ := forall₂_cons.mp hholds
        refine ⟨fun hkind hslot ↦ Nat.eq_zero_of_not_pos fun hreach ↦ ?_,
          ih hall hstored hholds hfit.2⟩
        obtain ⟨cells, hcells, hone⟩ := Shape.sample_cells all hkind
        have hvalue := hhold cells hcells
        rw [shape.sample_hasShape.2] at hvalue
        exact hvalue.ne_zero hslot hone (lost hreach _ (spills_of_passes hall hfit.2))

/-! ## Exactly when -/

variable {returnType : LayoutType}

theorem generateCall_inv {callee : Word} {hint : Option ℤ}
    (h : generateCall platform alloc callee returnType hint values s = some (operands, t)) :
    ∃ first hidden operandss u ret, Keeps s u ∧
      hidden = (if getReturnMethod platform returnType = .VIA_POINTER_ARG then
        [(.addr ret, .primitive .ADDR)] else []) ∧
      values.mapM (addArg platform alloc) u = some (operandss, t) ∧
      operands = first :: hidden ++ operandss.flatten := by
  obtain ⟨first, hidden, u, ret, hcallee, hkeeps, hhidden⟩ :=
    setCallee_spec platform alloc callee returnType hint s
  unfold generateCall at h
  simp only [bind, StateT.bind, hcallee, bind_some, pure, statePure_apply,
    bind_eq_some_iff, some.injEq, Prod.mk.injEq, Prod.exists] at h
  obtain ⟨operandss, t', hmap, rfl, rfl⟩ := h
  exact ⟨first, hidden, operandss, u, ret, hkeeps, hhidden, hmap, rfl⟩

theorem forall₂_sample (shapes : List (Shape platform)) :
    List.Forall₂ StoredValue.HasShape (shapes.map Shape.sample) shapes := by
  rw [forall₂_map_left_iff, forall₂_same]
  exact fun shape _ ↦ shape.sample_hasShape

theorem fits_of_agrees (h : Agrees platform returnType shapes) :
    ∀ shape ∈ shapes, shape.kind = .UNDEFINED → fitsInRegister platform shape.type := by
  have hvalid : ∀ value ∈ shapes.map Shape.sample, value.Valid platform (sampleState shapes) :=
    forall_mem_map.mpr fun _ ↦ Shape.sample_valid
  obtain ⟨operands, t, hcall, htypes, -⟩ := h argStores (sampleState shapes)
    (shapes.map Shape.sample) (.addr 0) none (replicate 8 (.byte 0)) (forall₂_sample shapes)
    hvalid le_rfl
  obtain ⟨first, hidden, operandss, u, ret, hkeeps, hhidden, hmap, rfl⟩ :=
    generateCall_inv argStores hcall
  rw [cons_append, tail_cons, map_append, generateParams] at htypes
  have hpart : hidden.map Prod.snd =
      if getReturnMethod platform returnType =
        .VIA_POINTER_ARG then [.primitive .ADDR] else [] := by
    rw [hhidden]
    split_ifs <;> rfl
  rw [hpart, ← map_type_of_hasShape (forall₂_sample shapes)] at htypes
  intro shape hshape hkind
  have hfits := fits_of_mapM argStores (fun value hvalue ↦ (hvalid value hvalue).keeps hkeeps) hmap
    (append_cancel_left htypes) shape.sample (mem_map_of_mem hshape)
    (shape.sample_hasShape.1.trans hkind)
  rwa [shape.sample_hasShape.2] at hfits

theorem clear_of_agrees (h : Agrees platform returnType shapes) : Clear platform shapes := by
  have hfit := fits_of_agrees h
  have hvalid : ∀ value ∈ shapes.map Shape.sample, value.Valid platform (sampleState shapes) :=
    forall_mem_map.mpr fun _ ↦ Shape.sample_valid
  have hshapes := forall₂_sample shapes
  obtain ⟨operands, t, hcall, -, slots, s', hrun, hholds⟩ := h argStores (sampleState shapes)
    (shapes.map Shape.sample) (.addr 0) none (replicate 8 (.byte 0)) hshapes hvalid le_rfl
  -- The call is the one of the specification, and so is the entry.
  obtain ⟨first, hidden, operandss, t', ret, hcall', -, hhidden, hall⟩ :=
    generateCall_spec argStores (.addr 0) returnType none hvalid (fits_of_hasShape hshapes hfit)
  obtain ⟨rfl, rfl⟩ := Prod.mk.inj (some.inj (hcall'.symm.trans hcall))
  have hfills := fills_of_passes hall
  rw [map_type_of_hasShape hshapes] at hfills
  obtain ⟨slots', s'', hrun', -, hstored⟩ := generateFuncEntry_spec hfills returnType
    (hidden.map Prod.fst) (t'.enter (replicate 8 (.byte 0))) ret (by
      rw [hhidden]
      split_ifs <;> rfl)
  rw [cons_append, tail_cons, map_append, map_flatten] at hrun
  obtain ⟨rfl, rfl⟩ := Prod.mk.inj (some.inj (hrun'.symm.trans hrun))
  exact clear_of_holds hall hstored hholds hfit

end Banjo.SSAGen.CallArgs
