import Mathlib.Data.List.Sort
import LineBasic.Proofs.Grammar.PhysicalLines
import LineBasic.Proofs.Graph.WellFormed

/-!
# Program lines of a text

A program and the source file of its text number the lines of the text apart from each other: the
grammar reads numbers of lines that it accepts, and the file looks for digits at the beginnings of
all lines. On a text that is read as a program they agree (`Program.agreesWith_of_parse`).
-/

namespace LineBasic

open Grammar

variable {source : String} {p : Program}

/-! ## Lines that replace others -/

namespace Program

variable {lines : List ProgramLine} {line : ProgramLine} {n : Nat}

/-- The lines of ascending numbers. -/
abbrev Ascending (lines : List ProgramLine) : Prop :=
  lines.Pairwise fun a b => a.number < b.number

theorem find?_insertLine (h : Ascending lines) (line : ProgramLine) (n : Nat) :
    (insertLine line lines).find? (·.number == n) =
      if line.number = n then some line else lines.find? (·.number == n) := by
  induction lines with
  | nil => by_cases hn : line.number = n <;> simp [insertLine, hn]
  | cons first rest ih =>
    obtain ⟨hfirst, hrest⟩ := List.pairwise_cons.1 h
    have hnumber : (line.number == n) = decide (line.number = n) := rfl
    rcases Nat.lt_trichotomy line.number first.number with hlt | heq | hgt
    · rw [insertLine, if_pos hlt, List.find?_cons, hnumber]
      by_cases hn : line.number = n <;> simp only [hn, decide_true, decide_false, if_true, if_false]
    · rw [insertLine, if_neg (Nat.not_lt_of_le (Nat.le_of_eq heq.symm)), if_pos heq,
        List.find?_cons, List.find?_cons, ← heq, hnumber]
      by_cases hn : line.number = n <;> simp only [hn, decide_true, decide_false, if_true, if_false]
    · rw [insertLine, if_neg (Nat.not_lt_of_lt hgt), if_neg (Nat.ne_of_gt hgt), List.find?_cons,
        List.find?_cons, ih hrest]
      by_cases hn : line.number = n
      · have hfirst : (first.number == n) = false := beq_eq_false_iff_ne.2 (by omega)
        rw [hfirst, if_pos hn]
      · rw [if_neg hn, if_neg hn]

theorem find?_eq_of_mem {l : ProgramLine} (h : Ascending lines) (hl : l ∈ lines) :
    lines.find? (·.number == l.number) = some l := by
  obtain ⟨before, after, rfl⟩ := List.append_of_mem hl
  have hbefore := (List.pairwise_append.1 h).2.2
  rw [List.find?_eq_some_iff_append]
  refine ⟨by simp, before, after, rfl, fun a ha => ?_⟩
  simpa using Nat.ne_of_lt (hbefore a ha l List.mem_cons_self)

/-- The line of a number is the last one that was put in with it. -/
theorem find?_foldl_insertLine (read : List ProgramLine) (h : Ascending lines) (n : Nat) :
    (read.foldl (fun lines l => insertLine l lines) lines).find? (·.number == n) =
      (read.reverse.find? (·.number == n)).or (lines.find? (·.number == n)) := by
  induction read generalizing lines with
  | nil => rfl
  | cons l rest ih =>
    rw [List.foldl_cons, ih (pairwise_insertLine h), find?_insertLine h, List.reverse_cons,
      List.find?_append, List.find?_singleton, Option.or_assoc]
    by_cases hn : l.number = n <;> simp [hn]

end Program

/-! ## Numbers that are found in the text -/

theorem eraseDups_sublist {α : Type} [BEq α] [LawfulBEq α] (l : List α) :
    l.eraseDups.Sublist l := by
  match l with
  | [] => exact List.Sublist.refl []
  | x :: l =>
    rw [List.eraseDups_cons]
    exact ((eraseDups_sublist _).trans List.filter_sublist).cons_cons x
termination_by l.length
decreasing_by exact Nat.lt_succ_of_le (List.length_filter_le ..)

theorem SourceFile.sorted_programLineNumbers (f : SourceFile) :
    f.programLineNumbers.Pairwise (· < ·) := by
  have hle : f.programLineNumbers.Pairwise (· ≤ ·) :=
    (List.pairwise_mergeSort' (· ≤ ·) _).sublist (eraseDups_sublist _)
  have hne : f.programLineNumbers.Pairwise (· ≠ ·) := nodup_eraseDups _
  exact (hle.and hne).imp fun h => Nat.lt_of_le_of_ne h.1 h.2

theorem SourceFile.mem_programLineNumbers {f : SourceFile} {n : Nat} :
    n ∈ f.programLineNumbers ↔ n ∈ f.numbered.map Prod.fst := by
  rw [programLineNumbers, List.mem_eraseDups, List.mem_mergeSort]

/-- Where no line is rejected, the lines with a number are the ones that are accepted. -/
theorem SourceFile.numbered_eq (name : String)
    (h : Program.faults (Text.lines source.toList) = []) :
    (SourceFile.mk name source).numbered = (Program.read (Text.lines source.toList)).map fun l =>
      (l.number, l.sourceLine) := by
  rw [numbered, Program.read, List.map_filterMap]
  refine List.filterMap_congr fun line hmem => ?_
  have hfault := List.filterMap_eq_nil_iff.1 h line hmem
  obtain ⟨text, i⟩ := line
  dsimp only at hfault ⊢
  rw [Program.lineFault?] at hfault
  cases haccepted : programLine (i + 1) text with
  | accepted l rest =>
    obtain ⟨-, hsource, -⟩ := of_programLine haccepted
    rw [leadingNumber?_of_programLine haccepted, Program.readLine?, haccepted]
    simp [hsource]
  | refused place =>
    have hblank : (Text.trim text).isEmpty := by
      by_contra hblank
      simp [hblank, haccepted] at hfault
    rw [leadingNumber?_of_blank hblank, Program.readLine?, haccepted]
    rfl
  | aborted place =>
    have hblank : (Text.trim text).isEmpty := by
      by_contra hblank
      simp [hblank, haccepted] at hfault
    rw [leadingNumber?_of_blank hblank, Program.readLine?, haccepted]
    rfl

/-! ## Agreement -/

/-- The line is what the grammar reads in a line of the text, and no later line of the text has its
number. -/
structure ProgramLine.IsLastReadIn (l : ProgramLine) (texts : List (List Char)) : Prop where
  read : ∃ i text, texts[i]? = some text ∧ l.sourceLine = i + 1 ∧
    programLine l.sourceLine text = .accepted l []
  last : ∀ i text, texts[i]? = some text → l.sourceLine ≤ i →
    ∀ later rest, programLine (i + 1) text = .accepted later rest → later.number ≠ l.number

/-- A program and a text with the same program lines. -/
structure Program.AgreesWith (p : Program) (f : SourceFile) : Prop where
  ascending : (p.lines.map ProgramLine.number).Pairwise (· < ·)
  read : ∀ l ∈ p.lines, l.IsLastReadIn (Text.lines f.content.toList)
  numbers : f.programLineNumbers = p.lines.map ProgramLine.number
  physicalLine : ∀ n, f.physicalLine? n = (p.line? n).map ProgramLine.sourceLine
  /-- The text of a line in the file is the one that was read for it, but for carriage returns at
  the end. -/
  text : ∀ l ∈ p.lines, ∃ shown k, f.programLine? l.number = some shown ∧
    programLine l.sourceLine (shown.toList ++ List.replicate k '\r') = .accepted l [] ∧
    (Text.lines f.content.toList)[l.sourceLine - 1]? =
      some (shown.toList ++ List.replicate k '\r')

namespace Program

section Read

variable {texts : List (List Char)} {l : ProgramLine}

theorem mem_read_iff : l ∈ read texts ↔ ∃ i text, texts[i]? = some text ∧ l.sourceLine = i + 1 ∧
    programLine l.sourceLine text = .accepted l [] := by
  simp only [read, List.mem_filterMap, Prod.exists, List.mk_mem_zipIdx_iff_getElem?,
    readLine?_eq_some]
  constructor
  · rintro ⟨text, i, htext, haccepted⟩
    obtain ⟨-, hsource, -⟩ := of_programLine haccepted
    exact ⟨i, text, htext, hsource, hsource ▸ haccepted⟩
  · rintro ⟨i, text, htext, hsource, haccepted⟩
    exact ⟨text, i, htext, hsource ▸ haccepted⟩

/-- Lines are read in the order of the text. -/
theorem pairwise_read (texts : List (List Char)) :
    (read texts).Pairwise fun a b => a.sourceLine < b.sourceLine := by
  have order : texts.zipIdx.Pairwise fun a b => a.2 < b.2 := by
    have h := List.pairwise_lt_range' (s := 0) (n := texts.length)
    rw [← List.zipIdx_map_snd] at h
    exact List.pairwise_map.1 h
  refine List.Pairwise.filterMap _ (fun (text, i) (text', j) hlt l hl l' hl' => ?_) order
  obtain hl := readLine?_eq_some.1 hl
  obtain hl' := readLine?_eq_some.1 hl'
  rw [(of_programLine hl).2.1, (of_programLine hl').2.1]
  exact Nat.succ_lt_succ hlt

end Read

variable (h : parse source = .ok p)

include h

theorem faults_of_parse : faults (Text.lines source.toList) = [] := by
  rw [parse_eq] at h
  split at h
  next hempty => exact List.isEmpty_iff.1 hempty
  next => cases h

theorem line?_of_parse (n : Nat) :
    p.line? n = (read (Text.lines source.toList)).reverse.find? (·.number == n) := by
  have hp := parse_eq source
  rw [h, faults_of_parse h] at hp
  obtain rfl := Except.ok.inj hp
  rw [line?, find?_foldl_insertLine _ List.Pairwise.nil]
  simp

theorem line?_of_mem {l : ProgramLine} (hl : l ∈ p.lines) : p.line? l.number = some l :=
  find?_eq_of_mem (lines_of_parse h).1 hl

/-- A line of the program is read in the text, and what is read after it has other numbers. -/
theorem isLastReadIn_of_parse {l : ProgramLine} (hl : l ∈ p.lines) :
    l.IsLastReadIn (Text.lines source.toList) := by
  have hfind := line?_of_mem h hl
  rw [line?_of_parse h, List.find?_eq_some_iff_append] at hfind
  obtain ⟨-, after, before, hsplit, hafter⟩ := hfind
  have hread : read (Text.lines source.toList) = before.reverse ++ l :: after.reverse := by
    rw [← List.reverse_inj, hsplit]
    simp
  have horder := pairwise_read (Text.lines source.toList)
  rw [hread] at horder
  refine ⟨mem_read_iff.1 (hread ▸ by simp), fun i text htext hle later rest haccepted heq => ?_⟩
  obtain ⟨rfl, hsource, -⟩ := of_programLine haccepted
  have hmem : later ∈ read (Text.lines source.toList) :=
    mem_read_iff.2 ⟨i, text, htext, hsource, hsource ▸ haccepted⟩
  rw [hread, List.mem_append, List.mem_cons, List.mem_reverse, List.mem_reverse] at hmem
  rcases hmem with hbefore | rfl | hlater
  · have := (List.pairwise_append.1 horder).2.2 later (List.mem_reverse.2 hbefore) l
      List.mem_cons_self
    omega
  · omega
  · simpa [heq] using hafter later hlater

theorem physicalLine?_of_parse (name : String) (n : Nat) :
    (SourceFile.mk name source).physicalLine? n = (p.line? n).map ProgramLine.sourceLine := by
  rw [SourceFile.physicalLine?, SourceFile.numbered_eq name (faults_of_parse h), ← List.map_reverse,
    List.find?_map, line?_of_parse h, Option.map_map]
  rfl

theorem programLineNumbers_of_parse (name : String) :
    (SourceFile.mk name source).programLineNumbers = p.lines.map ProgramLine.number := by
  have hlines : (p.lines.map ProgramLine.number).Pairwise (· < ·) :=
    List.pairwise_map.2 (lines_of_parse h).1
  have hnumbers := (SourceFile.mk name source).sorted_programLineNumbers
  refine List.Perm.eq_of_pairwise' (r := (· < ·)) hnumbers hlines ?_
  refine (List.perm_ext_iff_of_nodup (hnumbers.imp Nat.ne_of_lt) (hlines.imp Nat.ne_of_lt)).2
    fun n => ?_
  -- a number is in either list if some line that is read has it
  have hfind : n ∈ p.lines.map ProgramLine.number ↔ (p.line? n).isSome := by
    simp [line?]
  rw [SourceFile.mem_programLineNumbers, SourceFile.numbered_eq name (faults_of_parse h), hfind,
    line?_of_parse h]
  simp

theorem text_of_parse (name : String) {l : ProgramLine} (hl : l ∈ p.lines) :
    ∃ shown k, (SourceFile.mk name source).programLine? l.number = some shown ∧
      programLine l.sourceLine (shown.toList ++ List.replicate k '\r') = .accepted l [] ∧
      (Text.lines source.toList)[l.sourceLine - 1]? =
        some (shown.toList ++ List.replicate k '\r') := by
  obtain ⟨i, text, htext, hsource, haccepted⟩ := (isLastReadIn_of_parse h hl).read
  obtain ⟨piece, hpiece, hline⟩ := Text.lines_getElem? htext
  have hshown : ∃ k, text = Text.dropTerminators piece ++ List.replicate k '\r' := by
    have hfeed := Text.not_mem_of_mem_pieces (List.mem_of_getElem? hpiece)
    rcases hline with rfl | ⟨rfl, -⟩
    · rw [← Text.dropTerminators_dropReturn]
      refine Text.exists_eq_dropTerminators_append fun hmem => hfeed ?_
      rw [Text.eq_dropReturn_append piece]
      exact List.mem_append_left _ hmem
    · exact Text.exists_eq_dropTerminators_append hfeed
  obtain ⟨k, rfl⟩ := hshown
  refine ⟨String.ofList (Text.dropTerminators piece), k, ?_, ?_, ?_⟩
  · rw [SourceFile.programLine?, physicalLine?_of_parse h, line?_of_mem h hl, Option.map_some,
      Option.bind_some, hsource, SourceFile.line?, if_neg (Nat.succ_ne_zero i)]
    simp [hpiece]
  · simpa using haccepted
  · simpa [hsource] using htext

/-- On a text that is read as a program, the program and the file have the same program lines. -/
theorem agreesWith_of_parse (name : String) : p.AgreesWith ⟨name, source⟩ where
  ascending := List.pairwise_map.2 (lines_of_parse h).1
  read _ hl := isLastReadIn_of_parse h hl
  numbers := programLineNumbers_of_parse h name
  physicalLine := physicalLine?_of_parse h name
  text _ hl := text_of_parse h name hl

end Program

/-- An indented line, a blank one, a retyped number, and three ways to end a line. -/
def retypedText : String := "20 PRINT A\r\n\n\t 10 A = 1\r\n20 REM B\r\r\n"

/-- The retyped line is read from its last place. -/
theorem agreesWith_retyped :
    ∃ p, Program.parse retypedText = .ok p ∧ p.lines.map ProgramLine.number = [10, 20] ∧
      p.AgreesWith ⟨"retyped", retypedText⟩ ∧
      (SourceFile.mk "retyped" retypedText).physicalLine? 20 = some 4 := by
  have found : ((Program.parse retypedText).toOption.any fun p =>
      p.lines.map (fun l => (l.number, l.sourceLine)) == [(10, 3), (20, 4)]) = true := by
    decide +kernel
  obtain ⟨p, hp, hlines⟩ := (Option.any_eq_true ..).1 found
  have parsed : Program.parse retypedText = .ok p := by
    cases hparse : Program.parse retypedText with
    | error => rw [hparse] at hp; cases hp
    | ok => rw [hparse] at hp; exact congrArg _ (Option.some.inj hp)
  have agrees := Program.agreesWith_of_parse parsed "retyped"
  refine ⟨p, parsed, ?_, agrees, ?_⟩
  · simpa [Function.comp_def] using congrArg (List.map Prod.fst) (beq_iff_eq.1 hlines)
  · decide +kernel

end LineBasic
