import Mathlib.Data.List.Forall2
import LineBasic.Analysis.Source
import LineBasic.Proofs.Grammar.PhysicalLines
import LineBasic.Proofs.Grammar.Places

/-!
# Where the faults of a text are

A text is refused if some line of it is rejected, and then there is one diagnostic for each such
line. It has the line, the column and the byte offset of the place where reading the line stopped.
The offsets are counted along the lines with one byte for each terminator, so behind lines that end
with a carriage return and a line feed they stand too far left, by one byte for each of them
(`SourceFile.parsed_exact`).
-/

namespace LineBasic

open Grammar

namespace SourceFile

variable (f : SourceFile) {i n line column offset offset' : Nat} {piece : List Char}

/-! ## Lines and columns of offsets -/

/-- The line and the column of a place in a line. -/
theorem lineColumn_of_piece (h : (Text.cut f.content.toList)[i]? = some piece)
    (hn : n ≤ Text.byteSize piece) :
    f.lineColumn (Text.sizeOfLines ((Text.cut f.content.toList).take i) + n) = (i + 1, n + 1) := by
  have hbefore : f.lineStarts.takeWhile
      (· ≤ Text.sizeOfLines ((Text.cut f.content.toList).take i) + n) = f.lineStarts.take (i + 1) :=
    Text.takeWhile_starts_go h hn (by rw [Nat.zero_add])
  have hstart :
      f.lineStarts[i]? = some (Text.sizeOfLines ((Text.cut f.content.toList).take i)) := by
    rw [lineStarts, Text.starts, Text.starts_go_getElem?, h, Option.map_some, Nat.zero_add]
  have hlt := (List.getElem?_eq_some_iff.1 hstart).1
  rw [lineColumn, hbefore, List.length_take, Nat.min_eq_left hlt, List.getLast?_take,
    if_neg (Nat.succ_ne_zero i), Nat.add_sub_cancel, hstart]
  simp

/-- An offset is known by its line and column. -/
theorem lineColumn_injective : Function.Injective f.lineColumn := by
  intro offset offset' h
  simp only [lineColumn, Prod.mk.injEq] at h
  obtain ⟨hlength, hcolumn⟩ := h
  have hsame : f.lineStarts.takeWhile (· ≤ offset) = f.lineStarts.takeWhile (· ≤ offset') := by
    have h₁ := List.prefix_iff_eq_take.1 (List.takeWhile_prefix (· ≤ offset) (l := f.lineStarts))
    have h₂ := List.prefix_iff_eq_take.1 (List.takeWhile_prefix (· ≤ offset') (l := f.lineStarts))
    rw [h₁, h₂, hlength]
  have hle (o : Nat) : (f.lineStarts.takeWhile (· ≤ o)).getLast?.getD 0 ≤ o := by
    cases hlast : (f.lineStarts.takeWhile (· ≤ o)).getLast? with
    | none => exact Nat.zero_le o
    | some start => simpa using List.mem_takeWhile_imp (List.mem_of_getLast? hlast)
  have h₁ := hle offset
  have h₂ := hle offset'
  rw [hsame] at h₁ hcolumn
  omega

/-! ## Rejected lines -/

/-- The numbers of the physical lines that are neither blank nor accepted. -/
def rejectedLines : List Nat :=
  (Text.lines f.content.toList).zipIdx.filterMap fun (text, i) =>
    if (Text.trim text).isEmpty || (programLine (i + 1)).accepts text then none else some (i + 1)

/-- The diagnostic has the place where reading the line stopped, but its offset is short by the
carriage returns at the ends of the lines before. -/
def MarksStop (line : Nat) (d : Diagnostic) : Prop :=
  ∃ text front place offset,
    (Text.lines f.content.toList)[line - 1]? = some text ∧ text = front ++ place ∧
    (programLine line text = .refused place ∨ programLine line text = .aborted place) ∧
    d.position = some ⟨line, Text.byteSize front + 1, offset⟩ ∧
    f.lineColumn (offset + Text.returnsBefore f.content.toList (line - 1)) =
      (line, Text.byteSize front + 1) ∧
    (f.lineColumn offset = (line, Text.byteSize front + 1) ↔
      Text.returnsBefore f.content.toList (line - 1) = 0)

variable {f} {text place : List Char}

/-- The place where the reading of a line stopped. -/
theorem marksStop_of_stop (htext : (Text.lines f.content.toList)[i]? = some text)
    (hstop : programLine (i + 1) text = .refused place ∨
      programLine (i + 1) text = .aborted place) :
    f.MarksStop (i + 1) (LineFault.ofStop (i + 1)
      (Text.sizeOfLines ((Text.lines f.content.toList).take i)) text place).toDiagnostic := by
  have hsuffix := Parser.Advances.suffix (p := programLine (i + 1)) text
  have hplace : (programLine (i + 1) text).place = place := by
    rcases hstop with h | h <;> rw [h] <;> rfl
  obtain ⟨front, rfl⟩ : place <:+ text := hplace ▸ hsuffix
  obtain ⟨piece, hpiece, hline⟩ := Text.lines_getElem? htext
  have hle : Text.byteSize front ≤ Text.byteSize piece := by
    have hsize : Text.byteSize (front ++ place) ≤ Text.byteSize piece := by
      rcases hline with h | ⟨h, -⟩
      · rw [h, ← Text.byteSize_dropReturn piece]
        exact Nat.le_add_right _ _
      · rw [h]
    rw [Text.byteSize_append] at hsize
    exact Nat.le_trans (Nat.le_add_right _ _) hsize
  have hcounted := Text.sizeOfLines_take_lines (List.getElem?_eq_some_iff.1 htext).1
  have hcolumn := f.lineColumn_of_piece hpiece hle
  have hreal : Text.sizeOfLines ((Text.lines f.content.toList).take i) + Text.byteSize front +
      Text.returnsBefore f.content.toList i =
        Text.sizeOfLines ((Text.cut f.content.toList).take i) + Text.byteSize front := by
    omega
  refine ⟨_, front, place, Text.sizeOfLines ((Text.lines f.content.toList).take i) +
    Text.byteSize front, htext, rfl, hstop, ?_, ?_, ?_⟩
  · simp [LineFault.toDiagnostic, LineFault.ofStop]
  · rw [Nat.add_sub_cancel, hreal, hcolumn]
  · rw [Nat.add_sub_cancel, ← hcolumn, ← hreal, f.lineColumn_injective.eq_iff]
    omega

/-- The elements that two functions keep, if they keep the same ones. -/
theorem forall₂_filterMap {α β γ : Type} {R : β → γ → Prop} {g : α → Option β} {g' : α → Option γ}
    {l : List α} (h : ∀ a ∈ l, Option.Rel R (g a) (g' a)) :
    List.Forall₂ R (l.filterMap g) (l.filterMap g') := by
  induction l with
  | nil => exact .nil
  | cons a rest ih =>
    obtain ⟨ha, hrest⟩ := List.forall_mem_cons.1 h
    rw [List.filterMap_cons, List.filterMap_cons]
    cases hg : g a <;> cases hg' : g' a <;> rw [hg, hg'] at ha <;> cases ha
    · exact ih hrest
    · exact .cons ‹_› (ih hrest)

/-- The rejected lines and the faults, in the order of the text. -/
theorem forall₂_faults (f : SourceFile) :
    List.Forall₂ (fun line fault => f.MarksStop line fault.toDiagnostic) f.rejectedLines
      (Program.faults (Text.lines f.content.toList)) := by
  refine forall₂_filterMap fun (text, i) hmem => ?_
  rw [List.mk_mem_zipIdx_iff_getElem?] at hmem
  dsimp only
  rw [Program.lineFault?, Parser.accepts]
  by_cases hblank : (Text.trim text).isEmpty
  · simp only [hblank, Bool.true_or, if_true]
    exact .none
  · cases hread : programLine (i + 1) text <;> simp only [hblank, Bool.or_true, Bool.or_false,
      Bool.false_eq_true, if_true, if_false]
    · exact .none
    · exact .some (marksStop_of_stop hmem (.inl hread))
    · exact .some (marksStop_of_stop hmem (.inr hread))

/--
A text is read as a program if no line is rejected, and otherwise each rejected line has a
diagnostic, in the order of the text, at the place where reading the line stopped. Its offset stands
for its line and column once the carriage returns before the line feeds of the lines before are
added, and without them only if there are none.
-/
theorem parsed_exact (f : SourceFile) :
    match f.parsed.program with
    | .ok _ => f.rejectedLines = []
    | .error diagnostics => f.rejectedLines ≠ [] ∧
        List.Forall₂ f.MarksStop f.rejectedLines diagnostics := by
  have hfaults := f.forall₂_faults
  have hparse := Program.parse_eq f.content
  rw [parsed]
  split at hparse
  next hempty =>
    rw [hparse]
    rw [List.isEmpty_iff.1 hempty, List.forall₂_nil_right_iff] at hfaults
    exact hfaults
  next hne =>
    rw [hparse]
    refine ⟨fun hnil => hne ?_, List.forall₂_map_right_iff.2 hfaults⟩
    rw [hnil, List.forall₂_nil_left_iff] at hfaults
    rw [hfaults]
    rfl

/-- A program line, and a line without a number. -/
def unnumberedText : String := "10 END\r\nX\r\n"

/-- Behind a carriage return and a line feed the offset of a fault does not stand for its line and
its column. -/
theorem lineColumn_ne_unnumbered :
    ¬ ∀ (f : SourceFile) diagnostics, f.parsed.program = .error diagnostics →
      ∀ d ∈ diagnostics, ∀ place, d.position = some place →
        f.lineColumn place.offset = (place.line, place.column) := by
  intro h
  let f : SourceFile := ⟨"", unnumberedText⟩
  have positions : (match f.parsed.program with
      | .ok _ => []
      | .error diagnostics => diagnostics.map Diagnostic.position) = [some ⟨2, 1, 7⟩] := by
    decide +kernel
  have hcolumn : f.lineColumn 7 ≠ (2, 1) := by decide +kernel
  cases hparsed : f.parsed.program with
  | ok => simp [hparsed] at positions
  | error diagnostics =>
    rw [hparsed] at positions
    change diagnostics.map Diagnostic.position = _ at positions
    have hmem : some (SourcePosition.mk 2 1 7) ∈ diagnostics.map Diagnostic.position := by
      rw [positions]
      exact List.mem_singleton_self _
    obtain ⟨d, hd, hplace⟩ := List.mem_map.1 hmem
    exact hcolumn (h f diagnostics hparsed d hd _ hplace)

end SourceFile
end LineBasic
