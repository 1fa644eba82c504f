import Banjo.Source.EditList.Applied

/-!
# Requested edits

The edits asked for by calls with ranges apart from each other, against what the application of the
collected list returns.
-/

open List

namespace Banjo.EditList

variable {content : List Char} {requests : List Request}

namespace Request

/-- The edit a call asks for. -/
def edit (content : List Char) : Request → Edit
  | .replace range replacement => ⟨range, replacement⟩
  | .move dstRange srcRange => ⟨dstRange, textIn content srcRange⟩
  | .insert position replacement => ⟨⟨position, position⟩, replacement⟩
  | .delete range => ⟨range, []⟩

/-- The call adds to the list. -/
def recorded (content : List Char) : Request → Bool
  | .replace range replacement => ¬(range.start ≠ range.stop ∧ textIn content range = replacement)
  | .move dstRange srcRange => dstRange ≠ srcRange
  | .insert _ _ => true
  | .delete _ => true

/-- The range a call takes text from. -/
def source : Request → Option TextRange
  | .move _ srcRange => some srcRange
  | _ => none

theorem idle_of_not_recorded {request : Request} (h : request.recorded content = false) :
    Idle content (request.edit content) := by
  cases request with
  | replace range replacement =>
    have h : range.start ≠ range.stop ∧ textIn content range = replacement := by
      simpa [recorded] using h
    exact h.2.symm
  | move dstRange srcRange =>
    obtain rfl : dstRange = srcRange := by simpa [recorded] using h
    rfl
  | insert position replacement => simp [recorded] at h
  | delete range => simp [recorded] at h

end Request

/-- The calls give ranges of the text, and the edits they ask for are apart. -/
structure ApartIn (content : List Char) (requests : List Request) : Prop where
  ranges : ∀ request ∈ requests, InText content (request.edit content).range
  sources : ∀ request ∈ requests, ∀ range ∈ request.source, InText content range
  apart : (requests.map (·.edit content)).Pairwise Apart

/-! ## What is collected -/

theorem add_eq (list : EditList) (request : Request) :
    list.add request = if request.recorded list.fileContent then
      list.push (request.edit list.fileContent) else list := by
  cases request with
  | replace range replacement =>
    by_cases h : range.start ≠ range.stop ∧ textIn list.fileContent range = replacement
    · have hnot : (Request.replace range replacement).recorded list.fileContent = false :=
        decide_eq_false (not_not.mpr h)
      rw [add, addReplaceEdit, if_pos h, hnot, if_neg Bool.false_ne_true]
    · have hrecorded : (Request.replace range replacement).recorded list.fileContent = true :=
        decide_eq_true h
      rw [add, addReplaceEdit, if_neg h, hrecorded, if_pos rfl, Request.edit]
  | move dstRange srcRange =>
    by_cases h : dstRange = srcRange
    · simp [add, addMoveEdit, Request.recorded, h]
    · simp [add, addMoveEdit, Request.recorded, Request.edit, h]
  | insert position replacement => rfl
  | delete range => rfl

theorem collect_eq (content : List Char) (requests : List Request) :
    collect content requests
      = ⟨content, (requests.filter (·.recorded content)).map (·.edit content)⟩ := by
  suffices h : ∀ edits, requests.foldl add ⟨content, edits⟩
      = ⟨content, edits ++ (requests.filter (·.recorded content)).map (·.edit content)⟩ by
    rw [collect, h, nil_append]
  induction requests with
  | nil => simp
  | cons request requests ih =>
    intro edits
    rw [foldl_cons, add_eq]
    cases hrecorded : request.recorded content with
    | true => simp [push, ih, hrecorded]
    | false => simp [ih, hrecorded]

theorem ApartIn.replaceAtOnce_collect (h : ApartIn content requests) :
    replaceAtOnce content (collect content requests).edits
      = replaceAtOnce content (requests.map (·.edit content)) := by
  rw [collect_eq]
  exact (replaceAtOnce_filter (Request.edit content) (Request.recorded content) [] requests
    h.ranges h.apart fun _ _ hkeep ↦ Request.idle_of_not_recorded hkeep).symm

theorem ApartIn.inText_collect (h : ApartIn content requests) :
    ∀ e ∈ (collect content requests).edits, InText content e.range := by
  rw [collect_eq]
  rintro e he
  obtain ⟨request, hrequest, rfl⟩ := mem_map.mp he
  exact h.ranges request (mem_of_mem_filter hrequest)

theorem ApartIn.apart_collect (h : ApartIn content requests) :
    (collect content requests).edits.Pairwise Apart := by
  rw [collect_eq]
  exact h.apart.sublist (filter_sublist.map _)

/-! ## The whole file -/

section File

variable {list : EditList} {r : List Char}

theorem entireFile_fileRange (hlen : list.fileContent.length < 2 ^ 32) :
    list.entireFile list.fileRange = true :=
  decide_eq_true ⟨rfl, Nat.mod_eq_of_lt hlen⟩

theorem applyEdits_iff_pieces (hlen : list.fileContent.length < 2 ^ 32)
    (hedits : list.edits.length < 2 ^ 32) :
    ApplyEditsToSourceCopy list r
      ↔ ∀ sorted, SortsTo list.edits sorted → pieces list.fileContent 0 sorted = some r := by
  have hentire := entireFile_fileRange hlen
  have hinput : list.inputIn list.fileRange = some list.fileContent := if_pos hentire
  have heditsIn : list.editsIn list.fileRange = list.edits := if_pos hentire
  rw [ApplyEditsToSourceCopy, heditsIn]
  refine forall_congr' fun sorted ↦ forall_congr' fun hsort ↦ ?_
  have hsorted : sorted.length < 2 ^ 32 := hsort.1.length_eq.trans_lt hedits
  rw [ApplyIn, hinput]
  constructor
  · rintro ⟨input, hinput, hout⟩
    obtain rfl := Option.some_injective _ hinput
    exact ((outputs_iff hsorted).mp hout).symm
  · exact fun h ↦ ⟨_, rfl, (outputs_iff hsorted).mpr h.symm⟩

/-- A list too long for the index comes to no end. -/
theorem not_applyEdits_of_many (hlen : list.fileContent.length < 2 ^ 32)
    (hedits : 2 ^ 32 ≤ list.edits.length) : ¬ApplyEditsToSourceCopy list r := by
  have hentire := entireFile_fileRange hlen
  have heditsIn : list.editsIn list.fileRange = list.edits := if_pos hentire
  intro h
  rw [ApplyEditsToSourceCopy, heditsIn] at h
  have hsort := sortsTo_mergeSort list.edits
  obtain ⟨input, -, hout⟩ := h _ hsort
  exact not_outputs_of_long (hedits.trans hsort.1.length_eq.ge) hout

theorem localEdit_file {k : ℕ} {e : Edit} (he : InText content e.range) :
    localEdit ⟨0, k⟩ e = if e.range.stop ≤ k then some e else none := by
  obtain ⟨⟨start, stop⟩, replacement⟩ := e
  obtain ⟨hle, -, hstop⟩ : start ≤ stop ∧ stop ≤ content.length ∧ stop < 2 ^ 32 := he
  have hstart : (start + 2 ^ 32 - 0) % 2 ^ 32 = start := by omega
  have hstop : (stop + 2 ^ 32 - 0) % 2 ^ 32 = stop := by omega
  by_cases h : stop ≤ k
  · simp only [localEdit, hstart, hstop, Nat.not_lt_zero, not_lt.mpr h, or_self, if_false, h,
      if_true]
  · simp only [localEdit, not_le.mp h, or_true, if_true, h, if_false]

/-- Of a text too long for its range only a part is taken, and the output is too short. -/
theorem not_applyEdits_of_long (list : EditList)
    (hrange : ∀ e ∈ list.edits, InText list.fileContent e.range)
    (hlen : 2 ^ 32 ≤ list.fileContent.length) :
    ¬ApplyEditsToSourceCopy list (replaceAtOnce list.fileContent list.edits) := by
  set k := list.fileContent.length % 2 ^ 32 with hk
  have hklt : k < 2 ^ 32 := Nat.mod_lt _ (Nat.two_pow_pos 32)
  have hkle : k + 2 ^ 32 ≤ list.fileContent.length := by omega
  have hentire : list.entireFile list.fileRange = false := by
    simp only [entireFile, fileRange, ← hk, decide_eq_false_iff_not]
    omega
  have heditsIn : list.editsIn list.fileRange = list.edits.filterMap (localEdit ⟨0, k⟩) := by
    rw [editsIn, if_neg (by simp [hentire]), fileRange]
  have hkeep : list.edits.filterMap (localEdit ⟨0, k⟩)
      = list.edits.filter (·.range.stop ≤ k) := by
    rw [filterMap_congr fun e he ↦ localEdit_file (hrange e he), ← filterMap_eq_filter]
    refine filterMap_congr fun e _ ↦ ?_
    by_cases h : e.range.stop ≤ k <;> simp [Option.guard, h]
  intro h
  rw [ApplyEditsToSourceCopy, heditsIn, hkeep] at h
  have hsort := sortsTo_mergeSort (list.edits.filter (·.range.stop ≤ k))
  set sorted := (list.edits.filter (·.range.stop ≤ k)).mergeSort startLE
  obtain ⟨input, hinput, hout⟩ := h sorted hsort
  have hinputLen : input.length = k := by
    have hsub : (k + 2 ^ 32 - 0) % 2 ^ 32 = k := by omega
    rw [inputIn, if_neg (by simp [hentire]), fileRange, if_pos (Nat.zero_le _),
      Option.some.injEq] at hinput
    rw [← hinput, ← hk, hsub, drop_zero, length_take]
    omega
  have hsorted : sorted.length < 2 ^ 32 := by
    by_contra hlong
    exact not_outputs_of_long (not_lt.mp hlong) hout
  have hpieces := ((outputs_iff hsorted).mp hout).symm
  have hmem : ∀ e ∈ sorted, e.range.start ≤ e.range.stop := fun e he ↦
    (hrange e (mem_of_mem_filter (hsort.1.mem_iff.mp he))).1
  have hupper := length_pieces_le hmem hpieces
  have hlower := le_length_replaceAtOnce hrange
  have hadded := added_le_of_sublist (filter_sublist (p := (·.range.stop ≤ k)) (l := list.edits))
  rw [added_eq_of_perm hsort.1] at hupper
  omega

end File

/-- **The edits are applied at once**, whatever order the sort leaves, exactly where no order
matters and the text and the list are short enough. -/
theorem ApartIn.applyEdits_iff (h : ApartIn content requests) :
    ApplyEditsToSourceCopy (collect content requests)
        (replaceAtOnce content (requests.map (·.edit content)))
      ↔ content.length < 2 ^ 32 ∧ (collect content requests).edits.length < 2 ^ 32 ∧
        (collect content requests).edits.Pairwise OrderFree := by
  have hcontent : (collect content requests).fileContent = content := by rw [collect_eq]
  have hrange := h.inText_collect
  rw [← h.replaceAtOnce_collect]
  constructor
  · intro happly
    have hlen : content.length < 2 ^ 32 := by
      by_contra hlong
      refine not_applyEdits_of_long (collect content requests) ?_ ?_ ?_
      · rwa [hcontent]
      · rwa [hcontent, ← not_lt]
      · rwa [hcontent]
    rw [← hcontent] at hlen
    have hedits : (collect content requests).edits.length < 2 ^ 32 := by
      by_contra hmany
      exact not_applyEdits_of_many hlen (not_lt.mp hmany) happly
    rw [applyEdits_iff_pieces hlen hedits] at happly
    rw [hcontent] at hlen happly
    exact ⟨hlen, hedits, orderFree_of_forall hrange happly⟩
  · rintro ⟨hlen, hedits, hfree⟩
    rw [← hcontent] at hlen
    rw [applyEdits_iff_pieces hlen hedits, hcontent]
    exact fun sorted hsort ↦ pieces_of_sorted hsort hrange h.apart_collect hfree

/-- A text put in at the start of a range that is replaced. -/
theorem ApartIn.applyEdits_insert_replace :
    ApplyEditsToSourceCopy
        (collect ['a', 'b'] [.insert 0 ['x'], .replace ⟨1, 2⟩ ['y'], .move ⟨0, 1⟩ ⟨0, 1⟩])
        (replaceAtOnce ['a', 'b']
          [⟨⟨0, 0⟩, ['x']⟩, ⟨⟨1, 2⟩, ['y']⟩, ⟨⟨0, 1⟩, ['a']⟩]) := by
  have h : ApartIn ['a', 'b']
      [.insert 0 ['x'], .replace ⟨1, 2⟩ ['y'], .move ⟨0, 1⟩ ⟨0, 1⟩] :=
    ⟨by decide, by decide, by decide⟩
  exact h.applyEdits_iff.mpr (by decide)

/-- A replacement, and behind it an insertion at its start: the loop copies back from the end of the
range to its start. -/
theorem exists_not_applyEdits :
    ∃ content requests, ApartIn content requests ∧
      ¬ApplyEditsToSourceCopy (collect content requests)
        (replaceAtOnce content (requests.map (·.edit content))) := by
  refine ⟨['a', 'b'], [.replace ⟨0, 1⟩ ['x'], .insert 0 ['y']],
    ⟨by decide, by decide, by decide⟩, fun h ↦ ?_⟩
  have hsort : SortsTo [⟨⟨0, 1⟩, ['x']⟩, ⟨⟨0, 0⟩, ['y']⟩] [⟨⟨0, 1⟩, ['x']⟩, ⟨⟨0, 0⟩, ['y']⟩] :=
    ⟨List.Perm.refl _, by decide⟩
  have hlist : collect ['a', 'b'] [.replace ⟨0, 1⟩ ['x'], .insert 0 ['y']]
      = ⟨['a', 'b'], [⟨⟨0, 1⟩, ['x']⟩, ⟨⟨0, 0⟩, ['y']⟩]⟩ := rfl
  rw [hlist, applyEdits_iff_pieces (by decide) (by decide)] at h
  exact absurd (h _ hsort) (by decide)

end Banjo.EditList
