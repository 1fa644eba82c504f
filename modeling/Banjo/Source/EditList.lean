import Banjo.Lib.Loops
import Banjo.Lexer.Token

/-!
# Edit lists

The edits collected for a source text, and their application: they are sorted by where they start
and the text between them is copied, one after the other. `std::sort` may leave edits with one start
in any order, so that an application is a relation. Positions are `unsigned`.
-/

namespace Banjo

/-- `Edit` -/
structure Edit where
  range : TextRange
  replacement : List Char
deriving DecidableEq

/-- `EditList` -/
structure EditList where
  fileContent : List Char
  edits : List Edit

namespace EditList

open Loops

/-- The characters from a position up to another, which the ranges given to `insert` are. -/
def slice (text : List Char) (start stop : ℕ) : Option (List Char) :=
  if start ≤ stop ∧ stop ≤ text.length then some ((text.drop start).take (stop - start)) else none

/-- What stands in a range, by `substr`. -/
def textIn (text : List Char) (range : TextRange) : List Char :=
  (text.drop range.start).take (range.stop - range.start)

/-! ## Collecting edits -/

def push (list : EditList) (edit : Edit) : EditList := { list with edits := list.edits ++ [edit] }

/-- `add_replace_edit` with a text -/
def addReplaceEdit (list : EditList) (range : TextRange) (replacement : List Char) : EditList :=
  if range.start ≠ range.stop ∧ textIn list.fileContent range = replacement then list
  else list.push ⟨range, replacement⟩

/-- `add_replace_edit` with the range of a text -/
def addMoveEdit (list : EditList) (dstRange srcRange : TextRange) : EditList :=
  if dstRange = srcRange then list else list.push ⟨dstRange, textIn list.fileContent srcRange⟩

def addInsertEdit (list : EditList) (position : ℕ) (replacement : List Char) : EditList :=
  list.push ⟨⟨position, position⟩, replacement⟩

def addDeleteEdit (list : EditList) (range : TextRange) : EditList := list.push ⟨range, []⟩

/-- A call of one of the four. -/
inductive Request
  | replace (range : TextRange) (replacement : List Char)
  | move (dstRange srcRange : TextRange)
  | insert (position : ℕ) (replacement : List Char)
  | delete (range : TextRange)

def add (list : EditList) : Request → EditList
  | .replace range replacement => list.addReplaceEdit range replacement
  | .move dstRange srcRange => list.addMoveEdit dstRange srcRange
  | .insert position replacement => list.addInsertEdit position replacement
  | .delete range => list.addDeleteEdit range

/-- The list after the calls, in order. -/
def collect (content : List Char) (requests : List Request) : EditList :=
  requests.foldl add ⟨content, []⟩

/-! ## Applying them -/

/-- An edit with its positions counted from the start of a range, if it lies in it. -/
def localEdit (range : TextRange) (edit : Edit) : Option Edit :=
  if edit.range.start < range.start ∨ range.stop < edit.range.stop then none
  else some { edit with range :=
    ⟨(edit.range.start + 2 ^ 32 - range.start) % 2 ^ 32,
      (edit.range.stop + 2 ^ 32 - range.start) % 2 ^ 32⟩ }

def entireFile (list : EditList) (range : TextRange) : Bool :=
  range.start = 0 ∧ range.stop = list.fileContent.length

/-- The text the edits are applied to; `none` where `substr` throws. -/
def inputIn (list : EditList) (range : TextRange) : Option (List Char) :=
  if list.entireFile range then some list.fileContent
  else if range.start ≤ list.fileContent.length then
    some ((list.fileContent.drop range.start).take ((range.stop + 2 ^ 32 - range.start) % 2 ^ 32))
  else none

def editsIn (list : EditList) (range : TextRange) : List Edit :=
  if list.entireFile range then list.edits else list.edits.filterMap (localEdit range)

/-- A list `std::sort` may leave. -/
def SortsTo (edits sorted : List Edit) : Prop :=
  sorted.Perm edits ∧ sorted.Pairwise fun lhs rhs ↦ lhs.range.start ≤ rhs.range.start

/-- A turn of the loop, at an index and the output so far. The result is `none` where the bounds of
an `insert` are no range of the input. -/
def editTurn (input : List Char) (edits : List Edit) :
    ℕ × List Char → (ℕ × List Char) ⊕ Option (List Char)
  | (i, output) =>
    match edits[i]? with
    | some edit =>
      let prevEnd := if i = 0 then 0 else (edits[i - 1]?.map (·.range.stop)).getD 0
      match slice input prevEnd edit.range.start with
      | some between => .inl (next i, output ++ between ++ edit.replacement)
      | none => .inr none
    | none =>
      let lastEnd := (edits.getLast?.map (·.range.stop)).getD 0
      .inr ((slice input lastEnd input.length).map (output ++ ·))

/-- The output for sorted edits is `r`. -/
def Outputs (input : List Char) (sorted : List Edit) (r : Option (List Char)) : Prop :=
  if sorted = [] then r = some input else Ends (editTurn input sorted) (0, []) r

/-- `apply_edits_to_source_copy` on a range returns `r` when the sort leaves `sorted`. -/
def ApplyIn (list : EditList) (range : TextRange) (sorted : List Edit) (r : List Char) : Prop :=
  ∃ input, list.inputIn range = some input ∧ Outputs input sorted (some r)

/-- The range of the whole file, as the function without a range takes it. -/
def fileRange (list : EditList) : TextRange := ⟨0, list.fileContent.length % 2 ^ 32⟩

/-- `apply_edits_to_source_copy` returns `r`, whatever the sort makes of edits with one start. -/
def ApplyEditsToSourceCopy (list : EditList) (r : List Char) : Prop :=
  ∀ sorted, SortsTo (list.editsIn list.fileRange) sorted → list.ApplyIn list.fileRange sorted r

end EditList

end Banjo
