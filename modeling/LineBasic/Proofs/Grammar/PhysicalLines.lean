import LineBasic.Source.File
import LineBasic.Proofs.Grammar.Accepted
import LineBasic.Proofs.Grammar.Characters
import LineBasic.Proofs.Text.Lines

/-!
# Reading the lines of a text one by one

The lines of a text are read independently of each other: those that are accepted (`Program.read`)
make up the program, and those that are rejected (`Program.faults`) have a fault each
(`Program.parse_eq`). A line that is accepted begins with its number as the source file finds it
(`Grammar.leadingNumber?_of_programLine`), so a blank line is never accepted.
-/

namespace LineBasic

/-! ## Accepted lines -/

theorem Text.not_isWhite_of_isDigit {c : Char} (h : c.isDigit = true) : isWhite c = false := by
  rw [isDigit_iff] at h
  simp only [isWhite, Bool.or_eq_false_iff, Bool.and_eq_false_iff, decide_eq_false_iff_not,
    beq_eq_false_iff_ne]
  omega

theorem Text.trimStart_eq_nil_of_trim {s : List Char} (h : trim s = []) : trimStart s = [] := by
  rw [trim, trimEnd, List.reverse_eq_nil_iff, List.dropWhile_eq_nil_iff] at h
  have hhead := List.head?_dropWhile_not isWhite s
  cases htrim : trimStart s with
  | nil => rfl
  | cons c rest =>
    have hwhite := h c (by simp [htrim])
    rw [trimStart] at htrim
    rw [htrim] at hhead
    simp [hwhite] at hhead

namespace Grammar

open LineBasic.Parser

variable {sourceLine n : Nat} {text rest : List Char} {l : ProgramLine}

/-- What is accepted as a line is a number and statements up to the end of the text. -/
theorem of_programLine (h : programLine sourceLine text = .accepted l rest) :
    rest = [] ∧ l.sourceLine = sourceLine ∧ ∃ after left,
      wholeNumber text = .accepted l.number after ∧
        statements (Text.byteSize text) l.number after = .accepted l.statements left := by
  obtain ⟨number, after, hnumber, h⟩ := exists_of_bind h
  obtain ⟨found, s₁, hfound, h⟩ := exists_of_bind h
  obtain ⟨_, s₂, -, h⟩ := exists_of_bind h
  obtain ⟨left, s₃, hleft, h⟩ := exists_of_bind h
  obtain ⟨rfl, rfl⟩ := Outcome.accepted.inj hleft
  split at h
  · obtain ⟨rfl, rfl⟩ := Outcome.accepted.inj h
    exact ⟨rfl, rfl, after, s₁, hnumber, hfound⟩
  · cases h

/-- The number that the grammar reads is the one that the line begins with. -/
theorem leadingNumber?_of_wholeNumber (h : wholeNumber text = .accepted n rest) :
    SourceFile.leadingNumber? text = some n := by
  obtain ⟨front, s₁, hblanks, hthen⟩ := exists_of_bind h
  obtain ⟨digits, s₂, hdigits, hvalue⟩ := exists_of_bind (of_wholly hthen)
  obtain ⟨rfl, hfront, -⟩ := of_takeWhile hblanks
  obtain ⟨rfl, hne, hall, hrest⟩ := of_takeWhile1 hdigits
  have htake : (digits ++ s₂).takeWhile Char.isDigit = digits :=
    (Outcome.accepted.inj (takeWhile_append hall hrest)).1
  have htrim : Text.trimStart (front ++ (digits ++ s₂)) = digits ++ s₂ := by
    rw [Text.trimStart,
      List.dropWhile_append_of_pos fun c hc => Text.isWhite_of_isBlank (hfront c hc)]
    cases digits with
    | nil => exact absurd rfl hne
    | cons d digits =>
      exact List.dropWhile_cons_of_neg (by simp [Text.not_isWhite_of_isDigit (hall d (by simp))])
  rw [SourceFile.leadingNumber?, htrim, htake]
  dsimp only at hvalue
  split at hvalue
  next hlt =>
    obtain ⟨rfl, -⟩ := Outcome.accepted.inj hvalue
    cases digits with
    | nil => exact absurd rfl hne
    | cons => exact if_pos hlt
  next => cases hvalue

theorem leadingNumber?_of_programLine (h : programLine sourceLine text = .accepted l rest) :
    SourceFile.leadingNumber? text = some l.number := by
  obtain ⟨-, -, after, _, hnumber, -⟩ := of_programLine h
  exact leadingNumber?_of_wholeNumber hnumber

theorem leadingNumber?_of_blank (h : (Text.trim text).isEmpty) :
    SourceFile.leadingNumber? text = none := by
  rw [SourceFile.leadingNumber?, Text.trimStart_eq_nil_of_trim (List.isEmpty_iff.1 h)]
  rfl

end Grammar

/-! ## Line by line -/

namespace Program

open Grammar

/-- The line as the grammar accepts it. -/
def readLine? (sourceLine : Nat) (text : List Char) : Option ProgramLine :=
  match programLine sourceLine text with
  | .accepted l _ => some l
  | _ => none

/-- The fault of a line that is not blank and not accepted. -/
def lineFault? (sourceLine offset : Nat) (text : List Char) : Option LineFault :=
  if (Text.trim text).isEmpty then none
  else match programLine sourceLine text with
    | .accepted .. => none
    | .refused place | .aborted place => some (.ofStop sourceLine offset text place)

/-- The program lines of a text in the order of the text. -/
def read (texts : List (List Char)) : List ProgramLine :=
  texts.zipIdx.filterMap fun (text, i) => readLine? (i + 1) text

/-- The faults of a text, every line before them counted with one terminator byte. -/
def faults (texts : List (List Char)) : List LineFault :=
  texts.zipIdx.filterMap fun (text, i) =>
    lineFault? (i + 1) (Text.sizeOfLines (texts.take i)) text

theorem readLine?_eq_some {sourceLine : Nat} {text : List Char} {l : ProgramLine} :
    readLine? sourceLine text = some l ↔ programLine sourceLine text = .accepted l [] := by
  rw [readLine?]
  constructor
  · intro h
    split at h
    next l' rest haccepted =>
      obtain rfl := Option.some.inj h
      rw [haccepted, (of_programLine haccepted).1]
    next => cases h
  · intro h
    rw [h]

/-- One line gives a program line or a fault; a blank one gives nothing. -/
theorem readLines_cons (sourceLine offset : Nat) (text : List Char) (rest : List (List Char)) :
    readLines sourceLine offset (text :: rest) =
      ((readLine? sourceLine text).map .ok).toList ++
        ((lineFault? sourceLine offset text).map .error).toList ++
          readLines (sourceLine + 1) (offset + Text.byteSize text + 1) rest := by
  rw [readLines, readLine?, lineFault?]
  by_cases hblank : (Text.trim text).isEmpty
  · cases haccepted : programLine sourceLine text with
    | accepted l rest =>
      have hsome := leadingNumber?_of_programLine haccepted
      rw [leadingNumber?_of_blank hblank] at hsome
      cases hsome
    | refused => simp [hblank]
    | aborted => simp [hblank]
  · cases programLine sourceLine text <;> simp [hblank]

/-- The lines after others, read one by one. -/
theorem readLines_eq_flatMap (before texts : List (List Char)) :
    readLines (before.length + 1) (Text.sizeOfLines before) texts =
      (texts.zipIdx before.length).flatMap fun (text, i) =>
        ((readLine? (i + 1) text).map .ok).toList ++
          ((lineFault? (i + 1) (Text.sizeOfLines ((before ++ texts).take i)) text).map
            .error).toList := by
  induction texts generalizing before with
  | nil => rfl
  | cons text rest ih =>
    have hsize : Text.sizeOfLines (before ++ [text]) =
        Text.sizeOfLines before + Text.byteSize text + 1 := by
      simp [Text.sizeOfLines_append, Nat.add_assoc]
    have htail := ih (before ++ [text])
    rw [List.length_append, List.length_singleton, hsize, List.append_assoc,
      List.singleton_append] at htail
    rw [readLines_cons, htail, List.zipIdx_cons, List.flatMap_cons]
    dsimp only
    rw [List.take_left]

variable (texts : List (List Char))

theorem filterMap_ok_readLines :
    ((readLines 1 0 texts).filterMap fun r => match r with
      | .ok l => some l
      | .error _ => none) = read texts := by
  have h := readLines_eq_flatMap [] texts
  simp only [List.length_nil, Nat.zero_add, Text.sizeOfLines_nil, List.nil_append] at h
  rw [h, List.filterMap_flatMap, read, List.filterMap_eq_flatMap_toList]
  congr 1
  funext (text, i)
  dsimp only
  cases readLine? (i + 1) text <;> cases lineFault? (i + 1) _ text <;> rfl

theorem filterMap_error_readLines :
    ((readLines 1 0 texts).filterMap fun r => match r with
      | .error fault => some fault
      | .ok _ => none) = faults texts := by
  have h := readLines_eq_flatMap [] texts
  simp only [List.length_nil, Nat.zero_add, Text.sizeOfLines_nil, List.nil_append] at h
  rw [h, List.filterMap_flatMap, faults, List.filterMap_eq_flatMap_toList]
  congr 1
  funext (text, i)
  dsimp only
  cases readLine? (i + 1) text <;> cases lineFault? (i + 1) _ text <;> rfl

/-- A text is read as the program of its accepted lines, unless some line is rejected. -/
theorem parse_eq (source : String) :
    parse source =
      if (faults (Text.lines source.toList)).isEmpty then
        .ok ⟨(read (Text.lines source.toList)).foldl (fun lines l => insertLine l lines) []⟩
      else .error (faults (Text.lines source.toList)) := by
  rw [← filterMap_error_readLines, ← filterMap_ok_readLines, List.foldl_filterMap, parse]
  congr 4
  funext lines r
  cases r <;> rfl

end Program
end LineBasic
