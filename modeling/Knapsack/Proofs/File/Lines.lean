import Mathlib
import Knapsack.File.TextFormat

/-! # The lines of a text file

A line break is one byte of UTF-8, and no other character has that byte in its encoding. So the lines
of the encoded text are the encoded lines of the text, and every one of them has a text. What reading
depends on is what is left of these lines when the white space around them, the empty ones and the
comments are taken away.
-/

namespace Knapsack

namespace Text

/-- Trimming leaves the part of a line that neither begins nor ends with a blank. -/
theorem trim_eq_iff {line core : List Char} : trim line = core ↔
    ∃ before after, line = before ++ (core ++ after) ∧ (∀ c ∈ before ++ after, isBlank c = true) ∧
      (∀ c ∈ core.head?, isBlank c = false) ∧ ∀ c ∈ core.getLast?, isBlank c = false := by
  change (line.dropWhile isBlank).rdropWhile isBlank = core ↔ _
  constructor
  · rintro rfl
    refine ⟨line.takeWhile isBlank, (line.dropWhile isBlank).rtakeWhile isBlank, ?_, ?_, ?_, ?_⟩
    · rw [List.rdropWhile_append_rtakeWhile, List.takeWhile_append_dropWhile]
    · exact List.forall_mem_append.mpr
        ⟨fun _ => List.mem_takeWhile_imp, fun _ => List.mem_rtakeWhile_imp⟩
    · intro c isFirst
      obtain ⟨trailing, parts⟩ := List.rdropWhile_prefix isBlank (line.dropWhile isBlank)
      have first := List.head?_dropWhile_not isBlank line
      rw [← parts, List.head?_append, Option.mem_def.mp isFirst] at first
      exact first
    · intro c isLast
      obtain ⟨nonempty, rfl⟩ := List.mem_getLast?_eq_getLast isLast
      exact Bool.not_eq_true _ ▸ List.rdropWhile_last_not isBlank _ nonempty
  · rintro ⟨before, after, rfl, blank, first, last⟩
    obtain ⟨leading, trailing⟩ := List.forall_mem_append.mp blank
    rw [List.dropWhile_append_of_pos leading]
    cases core with
    | nil =>
      rw [List.nil_append, List.dropWhile_eq_nil_iff.mpr trailing]
      rfl
    | cons c rest =>
      have stops : isBlank c = false := first c rfl
      rw [List.cons_append, List.dropWhile_cons_of_neg (by simp [stops]), ← List.cons_append,
        List.rdropWhile, List.reverse_append, List.dropWhile_append_of_pos (by simpa using trailing)]
      refine List.rdropWhile_eq_self_iff.mpr fun nonempty => ?_
      rw [last _ (List.getLast?_eq_getLast_of_ne_nil nonempty)]
      exact Bool.false_ne_true

end Text

section Splitting

variable {α β : Type} [DecidableEq α] [DecidableEq β]

/-- What does not hold the separator goes in front of the first part. -/
theorem splitOn_append {separator : α} {front : List α} (free : separator ∉ front)
    (rest : List α) :
    (front ++ rest).splitOn separator = (rest.splitOn separator).modifyHead (front ++ ·) := by
  induction front with
  | nil =>
    rw [List.nil_append]
    cases rest.splitOn separator <;> rfl
  | cons first others ih =>
    rw [List.mem_cons, not_or] at free
    rw [List.cons_append, List.splitOn_cons_eq_if_modifyHead, ih free.2,
      if_neg (by simpa using Ne.symm free.1), List.modifyHead_modifyHead]
    rfl

/-- Where a code spells one letter, and no other, with the separator, the parts of the code are the
codes of the parts. -/
theorem splitOn_flatMap {code : α → List β} {letter : α} {separator : β}
    (spelt : code letter = [separator]) (others : ∀ c ≠ letter, separator ∉ code c)
    (letters : List α) : (letters.flatMap code).splitOn separator =
      (letters.splitOn letter).map (·.flatMap code) := by
  induction letters with
  | nil => rfl
  | cons c rest ih =>
    rw [List.flatMap_cons, List.splitOn_cons_eq_if_modifyHead]
    by_cases same : c = letter
    · subst same
      rw [spelt, List.singleton_append, List.splitOn_cons_eq_if_modifyHead, ih]
      simp
    · rw [splitOn_append (others c same), ih, if_neg (by simpa using same)]
      cases rest.splitOn letter <;> simp

end Splitting

namespace TextFormat

/-- Only a line break has the byte of a line break in its encoding. -/
theorem lineBreak_not_mem {c : Char} (distinct : c ≠ '\n') : 0x0a ∉ String.utf8EncodeChar c := by
  have code : c.toNat ≠ 10 := fun same => distinct (Char.toNat_inj.mp same)
  simp only [String.utf8EncodeChar, Char.toNat_val]
  split_ifs <;> simp [← UInt8.toNat_inj] <;> omega

/-- What is encoded can be decoded. -/
theorem fromUTF8?_encoded (chars : List Char) :
    (String.fromUTF8? ⟨(chars.flatMap String.utf8EncodeChar).toArray⟩).map (·.toList) =
      some chars := by
  have encoded : (⟨(chars.flatMap String.utf8EncodeChar).toArray⟩ : ByteArray) =
      (String.ofList chars).toByteArray := ByteArray.ext List.data_toByteArray.symm
  rw [encoded, String.fromUTF8?, dif_pos (String.ofList chars).isValidUTF8]
  exact congrArg some String.toList_ofList

/-- The bytes of a text are the encodings of its characters. -/
theorem toList_toUTF8 (text : String) :
    text.toUTF8.data.toList = text.toList.flatMap String.utf8EncodeChar := by
  conv_lhs => rw [String.toUTF8_eq_toByteArray, ← String.ofList_toList (s := text)]
  exact List.toList_data_toByteArray

/-- The bytes of a text have the lines of the text. -/
theorem lines_toUTF8 (text : String) :
    lines text.toUTF8.data.toList = (text.toList.splitOn '\n').map some := by
  have split := splitOn_flatMap (show String.utf8EncodeChar '\n' = [0x0a] from rfl)
    (fun c distinct => lineBreak_not_mem distinct) text.toList
  rw [lines, toList_toUTF8, split, List.map_map]
  exact List.map_congr_left fun line _ => fromUTF8?_encoded line

/-- What is left of a line that counts: it is neither empty nor a comment. -/
def counts (line : List Char) : Bool := !(line.isEmpty || isComment line)

/-- What is left of some lines: those that count, without the white space around them. -/
def entries (lines : List (List Char)) : List (List Char) := (lines.map Text.trim).filter counts

/-- Reads a line that counts. -/
def readEntry (draft : Draft) (line : List Char) : Except Fault Draft :=
  match digitRuns? line with
  | none => .error (.unexpectedLine line)
  | some (first, second) => readPair draft first second

theorem readLine_eq (draft : Draft) (line : List Char) : readLine draft (some line) =
    if counts (Text.trim line) then readEntry draft (Text.trim line) else .ok draft := by
  cases passed : (Text.trim line).isEmpty || isComment (Text.trim line) with
  | true => simp only [readLine, counts, passed, if_true, Bool.not_true, Bool.false_eq_true, if_false]
  | false =>
    simp only [readLine, counts, passed, Bool.false_eq_true, if_false, Bool.not_false, if_true]
    rfl

/-- Lines that do not count are passed over. -/
theorem foldlM_readLine (lines : List (List Char)) (draft : Draft) :
    (lines.map some).foldlM readLine draft = (entries lines).foldlM readEntry draft := by
  induction lines generalizing draft with
  | nil => rfl
  | cons line rest ih =>
    rw [List.map_cons, List.foldlM_cons, readLine_eq, entries, List.map_cons, List.filter_cons]
    split_ifs
    · exact bind_congr fun after => ih after
    · exact ih draft

/-- Reading a text is reading the lines that count. -/
theorem read_toUTF8 (text : String) : read text.toUTF8.data.toList =
    (entries (text.toList.splitOn '\n')).foldlM readEntry {} >>= finish := by
  rw [read, lines_toUTF8, foldlM_readLine]

end TextFormat

end Knapsack
