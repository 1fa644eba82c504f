import Banjo.Passes.Canonicalization
import Banjo.SSA.Checker

/-!
# Addresses after canonicalization

An `OFFSETPTR` on a structure that fails no assertion is left alone or becomes a `MEMBERPTR` to the
first member at its offset. The offset is a product of 32 bits: it is the one the instruction adds
if that one has no more bits.
-/

open List Option

namespace Banjo.Passes.Canonicalization

open SSA Target StandardDataLayout

variable {platform : Platform} {structs : StructTable}

/-! ## What the pass relies on -/

/-- `validate_memberptr`. -/
def ValidMemberptr (structs : StructTable) (instr : Instruction) : Prop :=
  instr.opcode = .MEMBERPTR → ∃ id index, (instr.getOperand 0).type.kind = .struct_ id ∧
    structs.isUnion id = false ∧ (instr.getOperand 2).value = .intImmediate index ∧
    index.negative = false ∧ (index.magnitude.setWidth 32).toNat < (structs.members id).length

/-- Members are numbered by `unsigned`. -/
def Indexable (structs : StructTable) : Prop := ∀ id, (structs.members id).length ≤ 2 ^ 32

/-- What a rewritten instruction has in common with the one it was. -/
structure SameAddress (platform : Platform) (structs : StructTable) (instr instr' : Instruction) :
    Prop where
  dest : instr'.dest = instr.dest
  other : instr.opcode ≠ .OFFSETPTR → instr' = instr
  address : ∀ env, address platform structs env instr' = address platform structs env instr

/-- The first member at an offset, with the ones before it at lower offsets. -/
def FirstMember (platform : Platform) (structs : StructTable) (id : StructId)
    (target : BitVec 32) (i : ℕ) : Prop :=
  getMemberOffset platform structs id i = some target ∧
    ∀ j < i, ∃ offset, getMemberOffset platform structs id j = some offset ∧ offset < target

/-- What has to hold of a structure and an offset into it. -/
structure SafeOffset (platform : Platform) (structs : StructTable) (id : StructId)
    (offset : LargeInt) (type : SSAType) : Prop where
  nonnegative : offset.negative = false
  notUnion : structs.isUnion id = true → structs.members id = []
  /-- Where there is a member at the lower 32 bits of the offset, they are all there is to it. -/
  narrow : ∀ i, FirstMember platform structs id (byteOffset platform structs offset type) i →
    offset.magnitude.toNat * (getSize platform structs type).toNat % 2 ^ addressWidth platform
      < 2 ^ 32

/-- What has to hold of a function and an instruction: the base is defined by an instruction, and
where that is a pointer to a structure, the offset is safe. -/
def Safe (platform : Platform) (structs : StructTable) (func : Function) (instr : Instruction) :
    Prop :=
  ∀ reg offset, instr.opcode = .OFFSETPTR → (instr.getOperand 0).value = .register reg →
    (instr.getOperand 1).value = .intImmediate offset →
    ∃ baseDef, PassUtils.findDef func reg = some baseDef ∧
      ∀ id, getType structs baseDef = some ⟨.struct_ id, 1⟩ →
        SafeOffset platform structs id offset (instr.getOperand 2).type

/-! ## Members -/

variable {id : StructId} {target : BitVec 32} {instr : Instruction} {offset : LargeInt}

theorem exists_getMemberOffset (platform : Platform) (hunion : structs.isUnion id = false) {i : ℕ}
    (hi : i < (structs.members id).length) :
    ∃ offset, getMemberOffset platform structs id i = some offset := by
  rw [getMemberOffset, if_neg (by simp [hunion]), getElem?_eq_getElem hi]
  exact ⟨_, rfl⟩

theorem FirstMember.lt {i : ℕ} (h : FirstMember platform structs id target i) :
    i < (structs.members id).length := by
  by_contra hi
  have hnone := h.1
  rw [getMemberOffset, List.getElem?_eq_none (Nat.le_of_not_lt hi)] at hnone
  split_ifs at hnone
  cases hnone

theorem FirstMember.not_isUnion {i : ℕ} (h : FirstMember platform structs id target i) :
    structs.isUnion id = false := by
  by_contra hunion
  have hnone := h.1
  rw [getMemberOffset, if_pos (by simpa using hunion)] at hnone
  cases hnone

theorem matchMember_spec (platform : Platform) (target : BitVec 32)
    (hunion : structs.isUnion id = false) : ∀ (m k : ℕ),
    k + m = (structs.members id).length →
    (∀ j < k, ∃ offset, getMemberOffset platform structs id j = some offset ∧ offset < target) →
    ∃ r, matchMember platform structs id target (List.range' k m) = some r ∧
      ∀ i, r = some i ↔ FirstMember platform structs id target i := by
  intro m
  induction m with
  | zero =>
    intro k hk hbefore
    refine ⟨none, rfl, fun i ↦ iff_of_false (some_ne_none i).symm fun h ↦ ?_⟩
    obtain ⟨off, hoff, hlt⟩ := hbefore i (by have := h.lt; omega)
    rw [h.1, some_inj] at hoff
    exact BitVec.lt_irrefl _ (hoff ▸ hlt)
  | succ m ih =>
    intro k hk hbefore
    obtain ⟨off, hoff⟩ := exists_getMemberOffset platform hunion
      (show k < (structs.members id).length by omega)
    rw [List.range'_succ, matchMember, hoff, bind_some]
    -- the members before `k` are at lower offsets, so the first one is `k` or comes after it
    have hfrom : ∀ i, FirstMember platform structs id target i → i = k ∨ k < i ∧ off < target := by
      intro i hi
      rcases lt_trichotomy i k with hlt | heq | hgt
      · obtain ⟨off', hoff', hlt'⟩ := hbefore i hlt
        rw [hi.1, some_inj] at hoff'
        exact absurd (hoff' ▸ hlt') (BitVec.lt_irrefl _)
      · exact Or.inl heq
      · obtain ⟨off', hoff', hlt'⟩ := hi.2 k hgt
        rw [hoff, some_inj] at hoff'
        exact Or.inr ⟨hgt, hoff' ▸ hlt'⟩
    by_cases heq : off = target
    · rw [if_pos heq]
      refine ⟨some k, rfl, fun i ↦ ?_⟩
      rw [some_inj]
      constructor
      · rintro rfl
        exact ⟨heq ▸ hoff, hbefore⟩
      · intro hi
        rcases hfrom i hi with hik | ⟨-, hlt⟩
        · exact hik.symm
        · exact absurd (heq ▸ hlt) (BitVec.lt_irrefl _)
    · rw [if_neg heq]
      by_cases hgt : target < off
      · rw [if_pos hgt]
        refine ⟨none, rfl, fun i ↦ iff_of_false (some_ne_none i).symm fun hi ↦ ?_⟩
        rcases hfrom i hi with rfl | ⟨-, hlt⟩
        · exact heq (some.inj (hoff.symm.trans hi.1))
        · exact BitVec.lt_irrefl _ (BitVec.lt_trans hgt hlt)
      · rw [if_neg hgt]
        refine ih (k + 1) (by omega) fun j hj ↦ ?_
        rcases Nat.lt_succ_iff_lt_or_eq.mp hj with hj | rfl
        · exact hbefore j hj
        · refine ⟨off, hoff, ?_⟩
          rw [BitVec.lt_def] at hgt ⊢
          have : off.toNat ≠ target.toNat := fun h ↦ heq (BitVec.eq_of_toNat_eq h)
          omega

/-- A union has no member whose offset is asked for. -/
theorem matchMember_union (hunion : structs.isUnion id = true) {r : Option ℕ}
    (h : matchMember platform structs id target (range (structs.members id).length) = some r) :
    structs.members id = [] := by
  cases hmembers : structs.members id with
  | nil => rfl
  | cons member rest =>
    rw [hmembers, length_cons, range_succ_eq_map, matchMember, getMemberOffset, if_pos hunion] at h
    cases h

/-! ## One instruction -/

theorem le_addressWidth (platform : Platform) : 32 ≤ addressWidth platform := by
  cases platform with
  | X86_64 isWindows => exact (by decide : 32 ≤ 64)
  | AARCH64 => decide
  | WASM => decide

/-- A product of 32 bits is the product of the width of an address, if that has no more bits. -/
theorem setWidth_product_iff {n : ℕ} (hlow : 32 ≤ n) (a : BitVec 64)
    (b : BitVec 32) : (a.setWidth 32 * b).setWidth n = b.setWidth n * a.setWidth n ↔
      a.toNat * b.toNat % 2 ^ n < 2 ^ 32 := by
  have hb : b.toNat < 2 ^ n := b.isLt.trans_le (Nat.pow_le_pow_right (by decide) hlow)
  have hleft : ((a.setWidth 32 * b).setWidth n).toNat = a.toNat * b.toNat % 2 ^ 32 := by
    rw [BitVec.toNat_setWidth_of_le hlow, BitVec.toNat_mul, BitVec.toNat_setWidth, Nat.mod_mul_mod]
  have hright : (b.setWidth n * a.setWidth n).toNat = a.toNat * b.toNat % 2 ^ n := by
    rw [BitVec.toNat_mul, BitVec.toNat_setWidth, BitVec.toNat_setWidth, ← Nat.mul_mod, Nat.mul_comm]
  rw [← BitVec.toNat_inj, hleft, hright]
  have hdvd : 2 ^ 32 ∣ 2 ^ n := Nat.pow_dvd_pow 2 hlow
  constructor
  · intro heq
    rw [← heq]
    exact Nat.mod_lt _ (by decide)
  · intro hlt
    rw [← Nat.mod_mod_of_dvd _ hdvd, Nat.mod_eq_of_lt hlt]

theorem address_memberptr (hindex : Indexable structs)
    (env : Env (addressWidth platform)) {i : ℕ} (hi : FirstMember platform structs id target i) :
    address platform structs env (memberptr instr ⟨.struct_ id, 1⟩ i)
      = some (env.value (instr.getOperand 0) + target.setWidth (addressWidth platform)) := by
  have hlt := hi.lt.trans_le (hindex id)
  have hnum : ((BitVec.ofNat 64 i).setWidth 32).toNat = i := by
    rw [BitVec.toNat_setWidth, BitVec.toNat_ofNat]
    omega
  have haddress : address platform structs env (memberptr instr ⟨.struct_ id, 1⟩ i)
      = (getMemberOffset platform structs id ((BitVec.ofNat 64 i).setWidth 32).toNat).map
        fun offset ↦ env.value (instr.getOperand 0) + offset.setWidth (addressWidth platform) := rfl
  rw [haddress, hnum, hi.1]
  rfl

theorem address_offsetptr (env : Env (addressWidth platform)) (hop : instr.opcode = .OFFSETPTR)
    (hvalue : (instr.getOperand 1).value = .intImmediate offset) (hneg : offset.negative = false) :
    address platform structs env instr = some (env.value (instr.getOperand 0) +
      (getSize platform structs (instr.getOperand 2).type).setWidth (addressWidth platform) *
        offset.magnitude.setWidth (addressWidth platform)) := by
  have hoff : env.value (instr.getOperand 1) =
    offset.magnitude.setWidth (addressWidth platform) := by
    simp only [Env.value, hvalue, LargeInt.toBits_of_not_negative hneg]
  rw [address, hop, hoff]

/-- A rewritten instruction computes the same address if the offset is narrow. -/
theorem sameAddress_memberptr_iff (hindex : Indexable structs) (hop : instr.opcode = .OFFSETPTR)
    (hvalue : (instr.getOperand 1).value = .intImmediate offset) (hneg : offset.negative = false)
    {i : ℕ} (hi : FirstMember platform structs id
      (byteOffset platform structs offset (instr.getOperand 2).type) i) :
    SameAddress platform structs instr (memberptr instr ⟨.struct_ id, 1⟩ i) ↔
      offset.magnitude.toNat * (getSize platform structs (instr.getOperand 2).type).toNat
        % 2 ^ addressWidth platform < 2 ^ 32 := by
  have hiff := setWidth_product_iff (le_addressWidth platform)
    offset.magnitude (getSize platform structs (instr.getOperand 2).type)
  have haddress : ∀ env, address platform structs env (memberptr instr ⟨.struct_ id, 1⟩ i)
      = address platform structs env instr ↔
        offset.magnitude.toNat * (getSize platform structs (instr.getOperand 2).type).toNat
          % 2 ^ addressWidth platform < 2 ^ 32 := by
    intro env
    rw [address_memberptr hindex env hi, address_offsetptr env hop hvalue hneg, some_inj,
      add_right_inj, byteOffset, hiff]
  constructor
  · exact fun h ↦ (haddress ⟨fun _ ↦ 0, fun _ ↦ 0⟩).mp (h.address _)
  · exact fun h ↦ ⟨rfl, fun hne ↦ absurd hop hne, fun env ↦ (haddress env).mpr h⟩

theorem SameAddress.refl (instr : Instruction) : SameAddress platform structs instr instr :=
  ⟨rfl, fun _ ↦ rfl, fun _ ↦ rfl⟩

theorem rewriteOffset_struct (id : StructId) (n : ℕ) :
    rewriteOffset platform structs instr offset ⟨.struct_ id, n⟩ =
      if n ≠ 1 then some instr
      else if offset.negative then none
      else
        (matchMember platform structs id
          (byteOffset platform structs offset (instr.getOperand 2).type)
          (range (structs.members id).length)).map fun i ↦
            match i with
            | some i => memberptr instr ⟨.struct_ id, n⟩ i
            | none => instr := rfl

theorem rewriteOffset_iff (hindex : Indexable structs) (hop : instr.opcode = .OFFSETPTR)
    (hvalue : (instr.getOperand 1).value = .intImmediate offset) (baseType : SSAType) :
    (∃ instr', rewriteOffset platform structs instr offset baseType = some instr' ∧
        SameAddress platform structs instr instr') ↔
      ∀ id, baseType = ⟨.struct_ id, 1⟩ →
        SafeOffset platform structs id offset (instr.getOperand 2).type := by
  obtain ⟨kind, arrayLength⟩ := baseType
  cases kind with
  | primitive p => exact iff_of_true ⟨instr, rfl, .refl instr⟩ (by simp)
  | struct_ id =>
    rw [rewriteOffset_struct]
    by_cases hone : arrayLength = 1
    · subst hone
      rw [if_neg (by simp)]
      have hcond : (∀ id', SSAType.mk (.struct_ id) 1 = ⟨.struct_ id', 1⟩ →
          SafeOffset platform structs id' offset (instr.getOperand 2).type) ↔
            SafeOffset platform structs id offset (instr.getOperand 2).type := by
        constructor
        · exact fun h ↦ h id rfl
        · intro h id' heq
          cases heq
          exact h
      rw [hcond]
      cases hneg : offset.negative with
      | true =>
        rw [if_pos rfl]
        refine iff_of_false (fun ⟨_, h, _⟩ ↦ by cases h) fun h ↦ ?_
        rw [h.nonnegative] at hneg
        cases hneg
      | false =>
        rw [if_neg Bool.false_ne_true]
        cases hunion : structs.isUnion id with
        | true =>
          constructor
          · rintro ⟨instr', h, -⟩
            obtain ⟨r, hr, -⟩ := map_eq_some_iff.mp h
            refine ⟨hneg, fun _ ↦ matchMember_union hunion hr, fun i hi ↦ ?_⟩
            rw [hi.not_isUnion] at hunion
            cases hunion
          · intro h
            rw [h.notUnion hunion]
            exact ⟨instr, rfl, .refl instr⟩
        | false =>
          obtain ⟨r, hr, hfirst⟩ := matchMember_spec platform
            (byteOffset platform structs offset (instr.getOperand 2).type) hunion
            (structs.members id).length 0 (Nat.zero_add _) (by simp)
          rw [range_eq_range', hr, map_some]
          cases r with
          | none =>
            refine iff_of_true ⟨instr, rfl, .refl instr⟩ ⟨hneg, by simp [hunion], fun i hi ↦ ?_⟩
            cases (hfirst i).mpr hi
          | some i =>
            have hi := (hfirst i).mp rfl
            have hsame := sameAddress_memberptr_iff hindex hop hvalue hneg hi
            constructor
            · rintro ⟨instr', hinstr', h⟩
              obtain rfl := some.inj hinstr'
              exact ⟨hneg, by simp [hunion], fun _ _ ↦ hsame.mp h⟩
            · exact fun h ↦ ⟨_, rfl, hsame.mpr (h.narrow i hi)⟩
    · rw [if_pos hone]
      refine iff_of_true ⟨instr, rfl, .refl instr⟩ fun id' heq ↦ ?_
      cases heq
      exact absurd rfl hone

theorem exists_getType (h : ValidMemberptr structs instr) :
    ∃ type, getType structs instr = some type := by
  by_cases hop : instr.opcode = .MEMBERPTR
  · obtain ⟨id, index, hkind, -, hindex, hneg, hlt⟩ := h hop
    simp only [getType, hop, hkind, hindex, hneg, getElem?_eq_getElem hlt]
    exact ⟨_, rfl⟩
  · rw [getType]
    split
    all_goals first | exact ⟨_, rfl⟩ | exact absurd ‹_› hop

variable {func : Function}

theorem canonicalize_iff (hindex : Indexable structs)
    (hvalid : ∀ instr ∈ func.instrs, ValidMemberptr structs instr) :
    (∃ instr', canonicalize platform structs func instr = some instr' ∧
      SameAddress platform structs instr instr') ↔ Safe platform structs func instr := by
  rw [canonicalize]
  by_cases hop : instr.opcode = .OFFSETPTR
  · rw [if_neg (not_not_intro hop)]
    split
    · rename_i reg offset hbase hvalue
      have hsafe : Safe platform structs func instr ↔
          ∃ baseDef, PassUtils.findDef func reg = some baseDef ∧
            ∀ id, getType structs baseDef = some ⟨.struct_ id, 1⟩ →
              SafeOffset platform structs id offset (instr.getOperand 2).type := by
        constructor
        · exact fun h ↦ h reg offset hop hbase hvalue
        · intro h reg' offset' _ hbase' hvalue'
          obtain rfl := Value.register.inj (hbase.symm.trans hbase')
          obtain rfl := Value.intImmediate.inj (hvalue.symm.trans hvalue')
          exact h
      rw [hsafe]
      cases hdef : PassUtils.findDef func reg with
      | none => simp
      | some baseDef =>
        obtain ⟨baseType, htype⟩ := exists_getType (hvalid baseDef (mem_of_find?_eq_some hdef))
        rw [bind_some, htype, bind_some, rewriteOffset_iff hindex hop hvalue]
        constructor
        · exact fun h ↦ ⟨baseDef, rfl, fun id hid ↦ h id (some.inj (htype.symm.trans hid))⟩
        · rintro ⟨baseDef', heq, h⟩ id rfl
          obtain rfl := some.inj heq
          exact h id htype
    · rename_i hnot
      exact iff_of_true ⟨instr, rfl, .refl instr⟩
        fun reg offset _ hbase hvalue ↦ absurd hvalue (hnot reg offset hbase)
  · rw [if_pos hop]
    exact iff_of_true ⟨instr, rfl, .refl instr⟩ fun _ _ h ↦ absurd h hop

/-- What is put in the place of an instruction is one the pass can deal with. -/
theorem validMemberptr_canonicalize (hindex : Indexable structs)
    (hvalid : ValidMemberptr structs instr) {instr' : Instruction}
    (h : canonicalize platform structs func instr = some instr') :
    ValidMemberptr structs instr' := by
  rw [canonicalize] at h
  split_ifs at h with hop
  · exact some.inj h ▸ hvalid
  · split at h
    · obtain ⟨baseDef, -, h⟩ := bind_eq_some_iff.mp h
      obtain ⟨⟨kind, arrayLength⟩, -, h⟩ := bind_eq_some_iff.mp h
      cases kind with
      | primitive p => exact some.inj h ▸ hvalid
      | struct_ id =>
        rw [rewriteOffset_struct] at h
        split_ifs at h with hone hneg
        · exact some.inj h ▸ hvalid
        · obtain ⟨r, hr, h⟩ := map_eq_some_iff.mp h
          cases r with
          | none => exact h ▸ hvalid
          | some i =>
            subst h
            cases hunion : structs.isUnion id with
            | true =>
              rw [matchMember_union hunion hr] at hr
              cases hr
            | false =>
              obtain ⟨r, hr', hfirst⟩ := matchMember_spec platform _ hunion
                (structs.members id).length 0 (Nat.zero_add _) (by simp)
              rw [range_eq_range', hr'] at hr
              obtain rfl := some.inj hr
              have hlt := ((hfirst i).mp rfl).lt
              have hle := hlt.trans_le (hindex id)
              refine fun _ ↦ ⟨id, _, rfl, hunion, rfl, rfl, ?_⟩
              rw [BitVec.toNat_setWidth, BitVec.toNat_ofNat]
              omega
    · exact some.inj h ▸ hvalid

/-!
## The run of canonicalization

Each place of a function is visited once, and a visit changes what is there and nothing else. The
definitions a visit looks up may be rewritten ones, so what is asked of an instruction is asked of
the function as it is by then.
-/

open SSA Target StandardDataLayout OptionLists

variable {platform : Platform} {structs : StructTable} {func func' state : Function}
  {instr : Instruction} {place : Place}

/-! ## Places -/

theorem getElem?_setInstr (c : ℕ) : (setInstr func place instr).blocks[c]? =
    (func.blocks[c]?).map fun entry ↦
      if place.1 = c then (entry.1, { entry.2 with instrs := entry.2.instrs.set place.2 instr })
      else entry := by
  rw [setInstr, List.getElem?_modify, Option.map_eq_map]

theorem instrAt_setInstr (h : (instrAt func place).isSome) (q : Place) :
    instrAt (setInstr func place instr) q = if q = place then some instr else instrAt func q := by
  obtain ⟨old, hold⟩ := Option.isSome_iff_exists.mp h
  obtain ⟨entry, hentry, hi⟩ := bind_eq_some_iff.mp hold
  obtain ⟨hlt, -⟩ := List.getElem?_eq_some_iff.mp hi
  rw [instrAt, instrAt, getElem?_setInstr]
  by_cases hblock : place.1 = q.1
  · rw [← hblock, hentry, map_some, bind_some, bind_some, if_pos rfl, List.getElem?_set]
    by_cases hindex : place.2 = q.2
    · rw [if_pos hindex, if_pos (hindex ▸ hlt), if_pos (Prod.ext hblock hindex).symm]
    · rw [if_neg hindex, if_neg fun heq ↦ hindex (congrArg Prod.snd heq).symm]
  · rw [if_neg fun heq ↦ hblock (congrArg Prod.fst heq).symm]
    simp only [if_neg hblock, Option.map_id_fun', id_eq]

theorem mem_instrs_iff : instr ∈ func.instrs ↔ ∃ place, instrAt func place = some instr := by
  rw [Function.instrs, mem_flatMap]
  constructor
  · rintro ⟨entry, hentry, hinstr⟩
    obtain ⟨b, hb⟩ := mem_iff_getElem?.mp hentry
    obtain ⟨i, hi⟩ := mem_iff_getElem?.mp hinstr
    exact ⟨(b, i), by rw [instrAt, hb]; exact hi⟩
  · rintro ⟨place, hplace⟩
    obtain ⟨entry, hentry, hi⟩ := bind_eq_some_iff.mp hplace
    exact ⟨entry, mem_of_getElem? hentry, mem_of_getElem? hi⟩

theorem mem_places_iff : place ∈ places func ↔ (instrAt func place).isSome := by
  obtain ⟨b, i⟩ := place
  simp only [places, List.mem_flatMap, List.mem_range, List.mem_map, Prod.mk.injEq, instrAt]
  cases hb : func.blocks[b]? with
  | none =>
    refine iff_of_false ?_ (by simp)
    rintro ⟨c, hc, j, hj, rfl, rfl⟩
    rw [hb] at hj
    exact absurd hj (Nat.not_lt_zero j)
  | some entry =>
    rw [bind_some, isSome_getElem?]
    constructor
    · rintro ⟨c, -, j, hj, rfl, rfl⟩
      rw [hb] at hj
      exact hj
    · intro hi
      exact ⟨b, (List.getElem?_eq_some_iff.mp hb).1, i, by rw [hb]; exact hi, rfl, rfl⟩

theorem nodup_places (func : Function) : (places func).Nodup := by
  rw [places, nodup_flatMap]
  refine ⟨fun b _ ↦ ?_, ?_⟩
  · exact nodup_range.map fun i j h ↦ (Prod.mk.inj h).2
  · refine nodup_range.imp fun hne ↦ disjoint_left.mpr ?_
    rintro place hplace hplace'
    obtain ⟨i, -, rfl⟩ := mem_map.mp hplace
    obtain ⟨j, -, heq⟩ := mem_map.mp hplace'
    exact hne (Prod.mk.inj heq).1.symm

/-! ## Runs -/

/-- What the validator asks for, of every instruction. -/
def ValidMemberptrs (structs : StructTable) (func : Function) : Prop :=
  ∀ instr ∈ func.instrs, ValidMemberptr structs instr

/-- Whenever the run gets to an instruction, what has to hold of it does. -/
def SafeRun (platform : Platform) (structs : StructTable) : List Place → Function → Prop
  | [], _ => True
  | place :: rest, state =>
    (∀ instr, instrAt state place = some instr → Safe platform structs state instr) ∧
      ∀ next, visit platform structs state place = some next → SafeRun platform structs rest next

/-- The blocks without their instructions. -/
def outline (func : Function) : List (BlockId × List VirtualRegister × List SSAType) :=
  func.blocks.map fun entry ↦ (entry.1, entry.2.paramRegs, entry.2.paramTypes)

/-- The same function, but for instructions that compute the same address. -/
structure KeepsAddresses (platform : Platform) (structs : StructTable) (func func' : Function) :
    Prop where
  outline : outline func' = outline func
  instrs : ∀ place, Option.Rel (SameAddress platform structs) (instrAt func place)
    (instrAt func' place)

theorem outline_setInstr (func : Function) (place : Place) (instr : Instruction) :
    outline (setInstr func place instr) = outline func := by
  refine List.ext_getElem? fun b ↦ ?_
  rw [outline, outline, getElem?_map, getElem?_map, getElem?_setInstr, Option.map_map]
  refine congrFun (congrArg Option.map (funext fun entry ↦ ?_)) _
  rw [Function.comp_apply]
  split_ifs <;> rfl

theorem visit_cases (h : visit platform structs state place = some func') :
    ∃ instr instr', instrAt state place = some instr ∧
      canonicalize platform structs state instr = some instr' ∧
      func' = setInstr state place instr' := by
  obtain ⟨instr, hinstr, h⟩ := bind_eq_some_iff.mp h
  obtain ⟨instr', hinstr', h⟩ := map_eq_some_iff.mp h
  exact ⟨instr, instr', hinstr, hinstr', h.symm⟩

theorem validMemberptrs_visit (hindex : Indexable structs) (hvalid : ValidMemberptrs structs state)
    (h : visit platform structs state place = some func') : ValidMemberptrs structs func' := by
  obtain ⟨instr, instr', hinstr, hcanon, rfl⟩ := visit_cases h
  intro other hother
  obtain ⟨q, hq⟩ := mem_instrs_iff.mp hother
  rw [instrAt_setInstr (isSome_of_eq_some hinstr)] at hq
  split_ifs at hq
  · obtain rfl := some.inj hq
    exact validMemberptr_canonicalize hindex (hvalid instr (mem_instrs_iff.mpr ⟨place, hinstr⟩))
      hcanon
  · exact hvalid other (mem_instrs_iff.mpr ⟨q, hq⟩)

/-- A run leaves the places it does not visit alone. -/
theorem instrAt_foldlM_visit {q : Place} : ∀ {l : List Place} {state : Function},
    l.foldlM (visit platform structs) state = some func' → q ∉ l →
    instrAt func' q = instrAt state q := by
  intro l
  induction l with
  | nil =>
    intro state h _
    rw [← some.inj h]
  | cons place rest ih =>
    intro state h hq
    rw [List.foldlM_cons] at h
    obtain ⟨next, hnext, hrest⟩ := bind_eq_some_iff.mp h
    obtain ⟨instr, instr', hinstr, -, rfl⟩ := visit_cases hnext
    rw [List.mem_cons, not_or] at hq
    rw [ih hrest hq.2, instrAt_setInstr (Option.isSome_of_eq_some hinstr), if_neg hq.1]

theorem outline_foldlM_visit : ∀ {l : List Place} {state : Function},
    l.foldlM (visit platform structs) state = some func' → outline func' = outline state := by
  intro l
  induction l with
  | nil =>
    intro state h
    rw [← some.inj h]
  | cons place rest ih =>
    intro state h
    rw [foldlM_cons] at h
    obtain ⟨next, hnext, hrest⟩ := bind_eq_some_iff.mp h
    obtain ⟨instr, instr', -, -, rfl⟩ := visit_cases hnext
    rw [ih hrest, outline_setInstr]

/-- The places that are left are visited and keep their addresses if what has to hold of the
instructions does on the way. -/
theorem foldlM_visit_iff (hindex : Indexable structs) : ∀ (l : List Place) (state : Function),
    ValidMemberptrs structs state → l.Nodup → (∀ place ∈ l, (instrAt state place).isSome) →
    ((∃ func', l.foldlM (visit platform structs) state = some func' ∧
      ∀ place ∈ l, Option.Rel (SameAddress platform structs) (instrAt state place)
        (instrAt func' place)) ↔ SafeRun platform structs l state) := by
  intro l
  induction l with
  | nil => exact fun state _ _ _ ↦ iff_of_true ⟨state, rfl, by simp⟩ trivial
  | cons place rest ih =>
    intro state hvalid hnodup hplaces
    rw [nodup_cons] at hnodup
    obtain ⟨instr, hinstr⟩ := isSome_iff_exists.mp (hplaces place mem_cons_self)
    have hsafe : (∃ instr', canonicalize platform structs state instr = some instr' ∧
        SameAddress platform structs instr instr') ↔ Safe platform structs state instr :=
      canonicalize_iff hindex hvalid
    -- what a visit leaves for the rest of the run
    have hnext : ∀ {instr'}, canonicalize platform structs state instr = some instr' →
        visit platform structs state place = some (setInstr state place instr') := by
      intro instr' hcanon
      rw [visit, hinstr, bind_some, hcanon]
      rfl
    have hother : ∀ {instr'} {q}, q ∈ rest →
        instrAt (setInstr state place instr') q = instrAt state q := by
      intro instr' q hq
      rw [instrAt_setInstr (isSome_of_eq_some hinstr), if_neg]
      exact fun heq ↦ hnodup.1 (heq ▸ hq)
    have hih : ∀ {instr'}, canonicalize platform structs state instr = some instr' →
        ((∃ func', rest.foldlM (visit platform structs) (setInstr state place instr') = some func' ∧
          ∀ q ∈ rest, Option.Rel (SameAddress platform structs) (instrAt state q)
            (instrAt func' q)) ↔ SafeRun platform structs rest (setInstr state place instr')) := by
      intro instr' hcanon
      rw [← ih (setInstr state place instr') (validMemberptrs_visit hindex hvalid (hnext hcanon))
        hnodup.2 fun q hq ↦ by rw [hother hq]; exact hplaces q (mem_cons_of_mem _ hq)]
      refine exists_congr fun func' ↦ and_congr_right fun _ ↦ forall₂_congr fun q hq ↦ ?_
      rw [hother hq]
    constructor
    · rintro ⟨func', hrun, hsame⟩
      rw [foldlM_cons] at hrun
      obtain ⟨next, hvisit, hrest⟩ := bind_eq_some_iff.mp hrun
      obtain ⟨instr₀, instr', hinstr₀, hcanon, rfl⟩ := visit_cases hvisit
      obtain rfl := some.inj (hinstr₀.symm.trans hinstr)
      have hplace : instrAt func' place = some instr' := by
        rw [instrAt_foldlM_visit hrest hnodup.1, instrAt_setInstr (isSome_of_eq_some hinstr),
          if_pos rfl]
      constructor
      · intro instr₁ hinstr₁
        obtain rfl := some.inj (hinstr.symm.trans hinstr₁)
        have hrel := hsame place mem_cons_self
        rw [hinstr, hplace, rel_some_some] at hrel
        exact hsafe.mp ⟨instr', hcanon, hrel⟩
      · intro next hnext'
        obtain rfl := some.inj (hvisit.symm.trans hnext')
        exact (hih hcanon).mp ⟨func', hrest, fun q hq ↦ hsame q (mem_cons_of_mem _ hq)⟩
    · rintro ⟨hplace, hrest⟩
      obtain ⟨instr', hcanon, hsame⟩ := hsafe.mpr (hplace instr hinstr)
      obtain ⟨func', hrun, hall⟩ := (hih hcanon).mpr (hrest _ (hnext hcanon))
      refine ⟨func', ?_, fun q hq ↦ ?_⟩
      · rw [foldlM_cons, hnext hcanon]
        exact hrun
      · rcases mem_cons.mp hq with rfl | hq
        · rw [hinstr, instrAt_foldlM_visit hrun hnodup.1,
            instrAt_setInstr (isSome_of_eq_some hinstr), if_pos rfl, rel_some_some]
          exact hsame
        · exact hall q hq

/-- The pass completes and keeps the addresses if each instruction is safe when it is visited. -/
theorem run_keepsAddresses_iff (hindex : Indexable structs)
    (hvalid : ValidMemberptrs structs func) :
    (∃ func', run platform structs func = some func' ∧ KeepsAddresses platform structs func func') ↔
    SafeRun platform structs (places func) func := by
  rw [← foldlM_visit_iff hindex (places func) func hvalid (nodup_places func)
    fun place hplace ↦ mem_places_iff.mp hplace]
  refine exists_congr fun func' ↦ and_congr_right fun hrun ↦ ?_
  constructor
  · exact fun h place _ ↦ h.instrs place
  · refine fun h ↦ ⟨outline_foldlM_visit hrun, fun place ↦ ?_⟩
    by_cases hplace : place ∈ places func
    · exact h place hplace
    · have hnone : instrAt func place = none :=
        not_isSome_iff_eq_none.mp fun hsome ↦ hplace (mem_places_iff.mpr hsome)
      rw [instrAt_foldlM_visit hrun hplace, hnone]
      exact .none

/-! ## Pairs -/

/-- A structure of two integers. -/
def pairs : StructTable where
  members id := if id = 0 then [Primitive.I32, Primitive.I32] else []
  isUnion _ := false
  depth _ := 0
  nested := by
    intro id inner type hmem hkind
    split_ifs at hmem
    · obtain rfl | rfl := mem_pair.mp hmem <;> cases hkind
    · exact absurd hmem not_mem_nil

theorem indexable_pairs : Indexable pairs := by
  intro id
  by_cases hid : id = 0
  · rw [hid]
    decide
  · simp [pairs, hid]

def pairType : SSAType := ⟨.struct_ 0, 1⟩

/-- The second member of a pair on the stack, by its offset from `base`. -/
def secondOf (base : VirtualRegister) (dest : VirtualRegister) : Instruction where
  opcode := .OFFSETPTR
  dest := some dest
  operands := [⟨.register base, Primitive.ADDR⟩, ⟨.intImmediate ⟨4, false⟩, Primitive.U64⟩,
    ⟨.type, Primitive.U8⟩]

def allocaPair : Instruction where
  opcode := .ALLOCA
  dest := some 0
  operands := [⟨.type, pairType⟩]

def slotBase : Function where
  blocks := [(0, { instrs := [allocaPair, secondOf 0 1, { opcode := .RET }] })]
  lastVirtualReg := 2

theorem run_keepsAddresses_iff_slotBase :
    (∃ func', run (.X86_64 false) pairs slotBase = some func' ∧
      KeepsAddresses (.X86_64 false) pairs slotBase func') ↔
    SafeRun (.X86_64 false) pairs (places slotBase) slotBase :=
  run_keepsAddresses_iff indexable_pairs fun instr hinstr hop ↦ absurd hop
    ((by decide : ∀ instr ∈ slotBase.instrs, instr.opcode ≠ .MEMBERPTR) instr hinstr)

/-- The slot is passed to another block, and the pointer into it is computed there. -/
def blockParamBase : Function where
  blocks :=
    [(0, { instrs := [allocaPair,
        { opcode := .JMP, targets := [⟨1, [⟨.register 0, Primitive.ADDR⟩]⟩] }] }),
     (1, { instrs := [secondOf 1 2, { opcode := .RET }]
           paramRegs := [1], paramTypes := [Primitive.ADDR] })]
  lastVirtualReg := 3

/-- The definition of a block parameter is looked up among the instructions, and the null pointer
that comes back is read from. -/
theorem not_run_blockParamBase :
    blockParamBase.WellFormed ∧ ValidMemberptrs pairs blockParamBase ∧
      run (.X86_64 false) pairs blockParamBase = none := by
  refine ⟨Function.wellFormed_of_check (fun _ ↦ []) (by decide), ?_, by decide⟩
  intro instr hinstr hop
  have hall : ∀ instr ∈ blockParamBase.instrs, instr.opcode ≠ .MEMBERPTR := by decide
  exact absurd hop (hall instr hinstr)

end Banjo.Passes.Canonicalization
