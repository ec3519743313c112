import Knapsack.Proofs.File.Grammar

/-! # Comments in the text format

Lines that do not count may be added to a text anywhere, and reading it gives what it gave before.
That covers comments, which are a `c` alone or followed by white space. A line that merely starts
with a `c` is stray: it is refused wherever the lines before it are taken in. So adding lines that
start with a `c` makes no difference exactly when the stray ones among them come too late to matter.
-/

namespace Knapsack.TextFormat

/-- The lines of a text; a line break ends a line, and the last line may do without. -/
def linesOf (text : String) : List (List Char) :=
  let parts := text.toList.splitOn '\n'
  if parts.getLast? = some [] then parts.dropLast else parts

/-- What follows the last line break of a text does not count when it is empty. -/
theorem entries_linesOf (text : String) :
    entries (linesOf text) = entries (text.toList.splitOn '\n') := by
  unfold linesOf
  dsimp only
  split_ifs with ended
  · obtain ⟨front, parts⟩ := List.getLast?_eq_some_iff.mp ended
    rw [parts, List.dropLast_concat, entries, entries, List.map_append, List.filter_append]
    exact (List.append_nil _).symm
  · rfl

theorem read_eq_linesOf (text : String) : read text.toUTF8.data.toList =
    (entries (linesOf text)).foldlM readEntry {} >>= finish := by
  rw [read_toUTF8, entries_linesOf]

/-- Some lines with additional ones in between. -/
inductive Padded (additional : List Char → Prop) : List (List Char) → List (List Char) → Prop
  | nil : Padded additional [] []
  | keep (line : List Char) {lines longer : List (List Char)}
    (padded : Padded additional lines longer) : Padded additional (line :: lines) (line :: longer)
  | add {line : List Char} {lines longer : List (List Char)} (fits : additional line)
    (padded : Padded additional lines longer) : Padded additional lines (line :: longer)

/-- A line that starts like a comment. -/
def StartsLikeComment (line : List Char) : Prop := line.head? = some 'c'

/-- A comment, with white space around it or without. -/
def Comment (line : List Char) : Prop := isComment (Text.trim line) = true

/-- A line that starts like a comment and is none. -/
structure Stray (line : List Char) : Prop where
  starts : StartsLikeComment line
  other : ¬ Comment line

variable {lines longer : List (List Char)} {line : List Char}

/-- Trimming keeps the first letter of a line. -/
theorem StartsLikeComment.exists_trim (starts : StartsLikeComment line) :
    ∃ rest, Text.trim line = 'c' :: rest := by
  obtain ⟨before, after, parts, blank, -, -⟩ := Text.trim_eq_iff.mp (rfl : Text.trim line = _)
  have letter : ('c' : Char) ∈ line.head? := starts
  obtain ⟨leading, trailing⟩ := List.forall_mem_append.mp blank
  cases before with
  | cons first _ =>
    rw [parts] at letter
    obtain rfl : first = 'c' := Option.some.inj letter
    exact nomatch leading _ (List.mem_cons_self ..)
  | nil =>
    cases core : Text.trim line with
    | cons first rest =>
      rw [parts, core] at letter
      obtain rfl : first = 'c' := Option.some.inj letter
      exact ⟨rest, rfl⟩
    | nil =>
      rw [parts, core] at letter
      exact nomatch trailing _ (List.mem_of_mem_head? letter)

theorem Comment.counts_eq (comment : Comment line) : counts (Text.trim line) = false := by
  rw [counts, show isComment (Text.trim line) = true from comment, Bool.or_true, Bool.not_true]

/-- A stray line counts. -/
theorem Stray.counts_eq (stray : Stray line) : counts (Text.trim line) = true := by
  obtain ⟨rest, trimmed⟩ := stray.starts.exists_trim
  have other : isComment (Text.trim line) = false := Bool.eq_false_iff.mpr stray.other
  rw [counts, other, trimmed]
  rfl

/-- A stray line is refused, whatever was read before. -/
theorem Stray.offends (stray : Stray line) (role : Role) :
    Offends role (Text.trim line) (.unexpectedLine (Text.trim line)) := by
  refine .unexpected ?_
  rintro first second ⟨gap, parts, ⟨some, digits⟩, -, -⟩
  obtain ⟨rest, trimmed⟩ := stray.starts.exists_trim
  obtain ⟨digit, others, rfl⟩ := List.exists_cons_of_ne_nil some
  rw [trimmed] at parts
  obtain rfl : 'c' = digit := (List.cons.inj parts).1
  have isDigit := digits 'c' (List.mem_cons_self ..)
  revert isDigit
  decide +kernel

theorem entries_cons (line : List Char) (rest : List (List Char)) : entries (line :: rest) =
    if counts (Text.trim line) then Text.trim line :: entries rest else entries rest := by
  rw [entries, List.map_cons, List.filter_cons]
  rfl

theorem entries_append (first second : List (List Char)) :
    entries (first ++ second) = entries first ++ entries second := by
  rw [entries, List.map_append, List.filter_append]
  rfl

/-- Some line is stray, and the lines before it are taken in. -/
def HitsStray (draft : Draft) (lines : List (List Char)) : Prop :=
  ∃ before line after middle, lines = before ++ line :: after ∧ Stray line ∧
    (entries before).foldlM readEntry draft = .ok middle

theorem HitsStray.cons {draft next : Draft}
    (passes : (entries [line]).foldlM readEntry draft = .ok next) (hits : HitsStray next lines) :
    HitsStray draft (line :: lines) := by
  obtain ⟨before, bad, after, middle, rfl, stray, passed⟩ := hits
  refine ⟨line :: before, bad, after, middle, rfl, stray, ?_⟩
  rw [← List.singleton_append, entries_append, List.foldlM_append]
  exact bind_eq_ok.mpr ⟨next, passes, passed⟩

namespace Padded

/-- Lines that do not count leave the others as they are. -/
theorem entries_eq (padded : Padded (fun line => counts (Text.trim line) = false) lines longer) :
    entries longer = entries lines := by
  induction padded with
  | nil => rfl
  | keep line _ ih => rw [entries_cons, entries_cons, ih]
  | add silent _ ih => rw [entries_cons, silent, ih, if_neg Bool.false_ne_true]

theorem imp {first second : List Char → Prop} (implies : ∀ line, first line → second line)
    (padded : Padded first lines longer) : Padded second lines longer := by
  induction padded with
  | nil => exact .nil
  | keep line _ ih => exact .keep line ih
  | add fits _ ih => exact .add (implies _ fits) ih

/-- Lines that start like comments make no difference, unless reading hits a stray one. -/
theorem foldlM_eq_or_hitsStray (padded : Padded StartsLikeComment lines longer) (draft : Draft) :
    (entries longer).foldlM readEntry draft = (entries lines).foldlM readEntry draft ∨
      HitsStray draft longer := by
  induction padded generalizing draft with
  | nil => exact Or.inl rfl
  | @keep line lines longer _ ih =>
    rw [entries_cons line longer, entries_cons line lines]
    split_ifs with taken
    · rw [List.foldlM_cons, List.foldlM_cons]
      cases reads : readEntry draft (Text.trim line) with
      | error fault => exact Or.inl rfl
      | ok next =>
        refine (ih next).imp id (HitsStray.cons ?_)
        rw [entries_cons, if_pos taken]
        exact bind_eq_ok.mpr ⟨next, reads, rfl⟩
    · refine (ih draft).imp id (HitsStray.cons ?_)
      rw [entries_cons, if_neg taken]
      rfl
  | @add line lines longer starts _ ih =>
    by_cases comment : Comment line
    · have silent : entries [line] = [] := by
        rw [entries_cons, comment.counts_eq, if_neg Bool.false_ne_true]
        rfl
      rw [← List.singleton_append, entries_append, silent, List.nil_append]
      exact (ih draft).imp id (HitsStray.cons (by rw [silent]; rfl))
    · exact Or.inr ⟨[], line, longer, draft, rfl, ⟨starts, comment⟩, rfl⟩

end Padded

/-- A text is refused for a stray line when the lines before it are sound. -/
theorem read_eq_of_stray {text : String} {before after : List (List Char)}
    (parts : linesOf text = before ++ line :: after) (stray : Stray line)
    (sound : Sound (entries before)) :
    read text.toUTF8.data.toList = .error (.unexpectedLine (Text.trim line)) := by
  rw [read_eq_linesOf, parts, entries_append, entries_cons, if_pos stray.counts_eq]
  refine finish_foldlM_eq_error_iff.mpr ?_
  exact .offence rfl sound (stray.offends _)

/-- Comments may be added to a text anywhere. Lines that start with a `c` may be added exactly when
every stray one of them comes after a line that is refused anyway, or is itself the line that the
text is refused for. -/
theorem comments_may_be_added {text longer : String}
    (padded : Padded StartsLikeComment (linesOf text) (linesOf longer)) :
    (Padded Comment (linesOf text) (linesOf longer) →
      read longer.toUTF8.data.toList = read text.toUTF8.data.toList) ∧
    (read longer.toUTF8.data.toList = read text.toUTF8.data.toList ↔
      ∀ before line after, linesOf longer = before ++ line :: after → Stray line →
        Sound (entries before) →
          read text.toUTF8.data.toList = .error (.unexpectedLine (Text.trim line))) := by
  refine ⟨fun comments => ?_, fun same before line after parts stray sound => ?_, fun strays => ?_⟩
  · have silent := comments.imp fun _ => Comment.counts_eq
    rw [read_eq_linesOf, read_eq_linesOf, silent.entries_eq]
  · rw [← same]
    exact read_eq_of_stray parts stray sound
  · rcases padded.foldlM_eq_or_hitsStray {} with
      same | ⟨before, line, after, middle, parts, stray, passed⟩
    · rw [read_eq_linesOf, read_eq_linesOf, same]
    · have sound := exists_draft_iff.mp ⟨middle, passed⟩
      rw [read_eq_of_stray parts stray sound, strays before line after parts stray sound]

theorem comments_may_be_added_title :
    Padded StartsLikeComment (linesOf "5 1\n3 2\n") (linesOf "c one item\n5 1\nc\n3 2\n") ∧
      read "c one item\n5 1\nc\n3 2\n".toUTF8.data.toList =
        read "5 1\n3 2\n".toUTF8.data.toList := by
  have text : linesOf "5 1\n3 2\n" = ["5 1".toList, "3 2".toList] := by decide +kernel
  have longer : linesOf "c one item\n5 1\nc\n3 2\n" =
      ["c one item".toList, "5 1".toList, "c".toList, "3 2".toList] := by decide +kernel
  have title : Comment "c one item".toList := by unfold Comment; decide +kernel
  have lone : Comment "c".toList := by unfold Comment; decide +kernel
  have padded : Padded StartsLikeComment (linesOf "5 1\n3 2\n")
      (linesOf "c one item\n5 1\nc\n3 2\n") := by
    rw [text, longer]
    exact .add rfl (.keep _ (.add rfl (.keep _ .nil)))
  refine ⟨padded, (comments_may_be_added padded).1 ?_⟩
  rw [text, longer]
  exact .add title (.keep _ (.add lone (.keep _ .nil)))

/-- Adding a line that starts with a `c` can make a text unreadable. -/
theorem comment_without_gap_refused :
    Padded StartsLikeComment (linesOf "5 1\n3 2\n") (linesOf "comment: one item\n5 1\n3 2\n") ∧
      read "5 1\n3 2\n".toUTF8.data.toList = .ok ⟨[⟨2, 3⟩], 5⟩ ∧
      read "comment: one item\n5 1\n3 2\n".toUTF8.data.toList =
        .error (.unexpectedLine "comment: one item".toList) := by
  have text : linesOf "5 1\n3 2\n" = ["5 1".toList, "3 2".toList] := by decide +kernel
  have longer : linesOf "comment: one item\n5 1\n3 2\n" =
      ["comment: one item".toList, "5 1".toList, "3 2".toList] := by decide +kernel
  refine ⟨?_, by decide +kernel, by decide +kernel⟩
  rw [text, longer]
  exact .add rfl (.keep _ (.keep _ .nil))

end Knapsack.TextFormat
