import Mathlib.Data.List.TakeWhile
import LineBasic.Text.Lines

/-!
# Lines and their places

The lines of a text are the pieces between its line feeds, but a carriage return before a line feed
is not part of the line (`lines_getElem?`). So offsets that are counted along the lines with one
byte for each terminator fall behind the offsets of the pieces by the number of the carriage
returns that were left out (`sizeOfLines_take_lines`).
-/

namespace LineBasic.Text

variable {s text piece : List Char} {i : Nat}

/-! ## Terminators -/

/-- The piece ends with a carriage return. -/
def endsWithReturn (piece : List Char) : Bool := piece.getLast? == some '\r'

theorem eq_dropReturn_append (piece : List Char) :
    piece = dropReturn piece ++ List.replicate (endsWithReturn piece).toNat '\r' := by
  unfold dropReturn endsWithReturn
  split
  next h =>
    obtain ⟨front, rfl⟩ := List.getLast?_eq_some_iff.1 h
    simp
  next h =>
    rw [beq_eq_false_iff_ne.2 h]
    exact (List.append_nil piece).symm

theorem byteSize_dropReturn (piece : List Char) :
    byteSize (dropReturn piece) + (endsWithReturn piece).toNat = byteSize piece := by
  have h := congrArg byteSize (eq_dropReturn_append piece)
  rw [byteSize_append] at h
  rw [h]
  cases endsWithReturn piece <;> rfl

theorem not_mem_of_mem_pieces {mark : Char} (h : piece ∈ pieces mark s) : mark ∉ piece := by
  induction s generalizing piece with
  | nil => simp_all [pieces]
  | cons c rest ih =>
    rw [pieces] at h
    split at h
    next hc =>
      rcases List.mem_cons.1 h with rfl | h
      · exact List.not_mem_nil
      · exact ih h
    next hc =>
      split at h
      next first others hrest =>
        have hfirst := ih (hrest ▸ List.mem_cons_self)
        rcases List.mem_cons.1 h with rfl | h
        · simp [hfirst, Ne.symm hc]
        · exact ih (hrest ▸ List.mem_cons_of_mem _ h)
      next hrest => exact absurd hrest (pieces_ne_nil mark rest)

/-- In a piece without line feeds only carriage returns are dropped. -/
theorem exists_eq_dropTerminators_append (h : '\n' ∉ piece) :
    ∃ k, piece = dropTerminators piece ++ List.replicate k '\r' := by
  unfold dropTerminators
  let isEnd : Char → Bool := fun c => c == '\n' || c == '\r'
  refine ⟨(piece.reverse.takeWhile isEnd).length, ?_⟩
  have returns : piece.reverse.takeWhile isEnd =
      List.replicate (piece.reverse.takeWhile isEnd).length '\r' := by
    refine List.eq_replicate_iff.2 ⟨rfl, fun c hc => ?_⟩
    have hmem : c ∈ piece := by simpa using (List.takeWhile_sublist isEnd).mem hc
    have hend := List.mem_takeWhile_imp hc
    have hne : c ≠ '\n' := fun heq => h (heq ▸ hmem)
    simpa [isEnd, hne] using hend
  rw [← List.reverse_inj, List.reverse_append, List.reverse_replicate, List.reverse_reverse,
    ← returns]
  exact (List.takeWhile_append_dropWhile ..).symm

theorem dropTerminators_append_returns (s : List Char) (k : Nat) :
    dropTerminators (s ++ List.replicate k '\r') = dropTerminators s := by
  rw [dropTerminators, List.reverse_append, List.reverse_replicate,
    List.dropWhile_append_of_pos fun c hc => by simp [List.eq_of_mem_replicate hc]]
  rfl

theorem dropTerminators_dropReturn (piece : List Char) :
    dropTerminators (dropReturn piece) = dropTerminators piece := by
  rw [← dropTerminators_append_returns _ (endsWithReturn piece).toNat, ← eq_dropReturn_append]

/-! ## Lines among the pieces -/

theorem cut_ne_nil (s : List Char) : cut s ≠ [] := pieces_ne_nil '\n' s

theorem length_dropLast_cut (s : List Char) : (cut s).dropLast.length + 1 = (cut s).length := by
  have := List.length_pos_iff.2 (cut_ne_nil s)
  rw [List.length_dropLast]
  omega

/-- A line is a piece without its carriage return, unless it is the last piece. -/
theorem lines_getElem? (h : (lines s)[i]? = some text) :
    ∃ piece, (cut s)[i]? = some piece ∧
      (text = dropReturn piece ∨ text = piece ∧ i + 1 = (cut s).length) := by
  have hsize := length_dropLast_cut s
  simp only [lines] at h
  rcases Nat.lt_or_ge i (cut s).dropLast.length with hlt | hle
  · rw [List.getElem?_append_left (by simpa using hlt), List.getElem?_map] at h
    obtain ⟨piece, hpiece, rfl⟩ := Option.map_eq_some_iff.1 h
    rw [List.getElem?_dropLast, if_pos (by omega)] at hpiece
    exact ⟨piece, hpiece, .inl rfl⟩
  · rw [List.getElem?_append_right (by simpa using hle), List.length_map] at h
    -- only one piece is left after the terminated ones
    have hlen : (((cut s).getLast?.filter fun piece => !piece.isEmpty).toList).length ≤ 1 := by
      cases ((cut s).getLast?.filter fun piece => !piece.isEmpty) <;> simp
    have hi : i = (cut s).dropLast.length := by
      have := (List.getElem?_eq_some_iff.1 h).1
      omega
    rw [hi, Nat.sub_self, ← List.head?_eq_getElem?, Option.head?_toList] at h
    have hlast := (Option.filter_eq_some_iff.1 h).1
    refine ⟨text, ?_, .inr ⟨rfl, by omega⟩⟩
    rw [hi, List.length_dropLast, ← List.getLast?_eq_getElem?, hlast]

/-- The lines before a line are all terminated. -/
theorem take_lines (h : i < (lines s).length) :
    (lines s).take i = ((cut s).take i).map dropReturn := by
  have hsize := length_dropLast_cut s
  have hle : i ≤ (cut s).dropLast.length := by
    obtain ⟨piece, hpiece, -⟩ := lines_getElem? (List.getElem?_eq_getElem h)
    have := (List.getElem?_eq_some_iff.1 hpiece).1
    omega
  simp only [lines]
  rw [List.take_append_of_le_length (by simpa using hle), ← List.map_take,
    List.dropLast_eq_take, List.take_take, Nat.min_eq_left (by omega)]

/-! ## Offsets -/

/-- The bytes of lines, one terminator byte each included. -/
def sizeOfLines : List (List Char) → Nat
  | [] => 0
  | text :: texts => byteSize text + 1 + sizeOfLines texts

@[simp] theorem sizeOfLines_nil : sizeOfLines [] = 0 := rfl

@[simp] theorem sizeOfLines_cons (text : List Char) (texts : List (List Char)) :
    sizeOfLines (text :: texts) = byteSize text + 1 + sizeOfLines texts := rfl

theorem sizeOfLines_append (texts more : List (List Char)) :
    sizeOfLines (texts ++ more) = sizeOfLines texts + sizeOfLines more := by
  induction texts with
  | nil => simp
  | cons text rest ih => simp [ih, Nat.add_assoc]

theorem starts_go_getElem? (offset : Nat) (texts : List (List Char)) (i : Nat) :
    (starts.go offset texts)[i]? = texts[i]?.map fun _ => offset + sizeOfLines (texts.take i) := by
  induction texts generalizing offset i with
  | nil => rfl
  | cons text rest ih =>
    cases i with
    | zero => rfl
    | succ i =>
      rw [starts.go, List.getElem?_cons_succ, ih, List.getElem?_cons_succ, List.take_succ_cons,
        sizeOfLines_cons]
      congr 1
      funext
      omega

/-- The carriage returns before the terminators of the first `i` lines. -/
def returnsBefore (s : List Char) (i : Nat) : Nat := ((cut s).take i).countP endsWithReturn

theorem sizeOfLines_map_dropReturn (texts : List (List Char)) :
    sizeOfLines (texts.map dropReturn) + texts.countP endsWithReturn = sizeOfLines texts := by
  induction texts with
  | nil => rfl
  | cons text rest ih =>
    have hsize := byteSize_dropReturn text
    rw [List.map_cons, sizeOfLines_cons, sizeOfLines_cons, List.countP_cons]
    cases hend : endsWithReturn text with
    | false =>
      rw [hend, Bool.toNat_false] at hsize
      simp
      omega
    | true =>
      rw [hend, Bool.toNat_true] at hsize
      simp
      omega

/-- Counting one byte for each terminator falls behind by the carriage returns. -/
theorem sizeOfLines_take_lines (h : i < (lines s).length) :
    sizeOfLines ((lines s).take i) + returnsBefore s i = sizeOfLines ((cut s).take i) := by
  rw [take_lines h, returnsBefore, sizeOfLines_map_dropReturn]

/-- The pieces that begin no later than a place in the `i`-th one are those up to it. -/
theorem takeWhile_starts_go {texts : List (List Char)} {offset n place : Nat}
    (h : texts[i]? = some text) (hn : n ≤ byteSize text)
    (hplace : place = offset + sizeOfLines (texts.take i) + n) :
    (starts.go offset texts).takeWhile (· ≤ place) = (starts.go offset texts).take (i + 1) := by
  induction texts generalizing offset i with
  | nil => simp at h
  | cons first rest ih =>
    rw [starts.go, List.takeWhile_cons_of_pos (by simp; omega), List.take_succ_cons]
    congr 1
    cases i with
    | zero =>
      obtain rfl := Option.some.inj h
      rw [List.take_zero]
      cases rest with
      | nil => rfl
      | cons =>
        rw [List.take_zero, sizeOfLines_nil] at hplace
        exact List.takeWhile_cons_of_neg (by simp; omega)
    | succ i =>
      rw [List.take_succ_cons, sizeOfLines_cons] at hplace
      exact ih h (by omega)

end LineBasic.Text
