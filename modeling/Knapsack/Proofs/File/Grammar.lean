import Knapsack.Proofs.File.Lines
import Knapsack.Proofs.Outcome

/-! # The grammar of the text format

The lines of a text that count describe an instance when the first one holds the capacity and the
number of items, and each of the others the value and the weight of an item. Reading a text accepts
exactly the texts of which that holds, and otherwise reports the first line that offends against it.
-/

namespace Knapsack

/-- No decimal digit is a blank. -/
theorem Text.isBlank_eq_false {c : Char} (digit : isDecimalDigit c = true) : isBlank c = false := by
  have table : ∀ start ∈ decimalZeros, ∀ offset < 10,
      isBlank (Char.ofNat (start + offset)) = false := by decide +kernel
  obtain ⟨start, listed, within⟩ := List.any_eq_true.mp digit
  simp only [Bool.and_eq_true, decide_eq_true_eq] at within
  have entry := table start listed (c.toNat - start) (by omega)
  rwa [Nat.add_sub_cancel' within.1, Char.ofNat_toNat] at entry

namespace TextFormat

section Runs

/-- A run of characters of one class. -/
def Run (ofClass : Char → Bool) (run : List Char) : Prop :=
  run ≠ [] ∧ ∀ c ∈ run, ofClass c = true

/-- A line of two runs of decimal digits with white space between them. -/
def TwoRuns (line first second : List Char) : Prop :=
  ∃ gap, line = first ++ (gap ++ second) ∧ Run Text.isDecimalDigit first ∧
    Run Text.isBlank gap ∧ Run Text.isDecimalDigit second

/-- A run ends where a character of another class follows. -/
theorem Run.span_append {ofClass : Char → Bool} {run rest : List Char} (whole : Run ofClass run)
    (stops : ∀ c ∈ rest.head?, ofClass c = false) : (run ++ rest).span ofClass = (run, rest) := by
  rw [List.span_eq_takeWhile_dropWhile, List.takeWhile_append_of_pos whole.2,
    List.dropWhile_append_of_pos whole.2]
  cases rest with
  | nil => simp
  | cons c more => simp [stops c rfl]

theorem digitRuns?_eq_some_iff {line first second : List Char} :
    digitRuns? line = some (first, second) ↔ TwoRuns line first second := by
  constructor
  · intro outcome
    simp only [digitRuns?, List.span_eq_takeWhile_dropWhile] at outcome
    split_ifs at outcome with bad
    simp only [Bool.or_eq_true, List.isEmpty_iff, Bool.not_eq_true', not_or, Bool.not_eq_false,
      List.all_eq_true] at bad
    obtain ⟨rfl, rfl⟩ := Prod.mk.inj (Option.some.inj outcome)
    obtain ⟨⟨⟨some, between⟩, more⟩, digits⟩ := bad
    refine ⟨_, ?_, ⟨some, fun _ => List.mem_takeWhile_imp⟩,
      ⟨between, fun _ => List.mem_takeWhile_imp⟩, ⟨more, digits⟩⟩
    rw [List.takeWhile_append_dropWhile, List.takeWhile_append_dropWhile]
  · rintro ⟨gap, rfl, leading, between, trailing⟩
    have gapStarts : ∀ c ∈ (gap ++ second).head?, Text.isDecimalDigit c = false := by
      intro c first
      rw [List.head?_append_of_ne_nil _ between.1] at first
      have blank := between.2 c (List.mem_of_mem_head? first)
      refine Bool.eq_false_iff.mpr fun digit => ?_
      exact nomatch (Text.isBlank_eq_false digit).symm.trans blank
    have gapStops : ∀ c ∈ second.head?, Text.isBlank c = false := fun c first =>
      Text.isBlank_eq_false (trailing.2 c (List.mem_of_mem_head? first))
    have digits : second.all Text.isDecimalDigit = true := List.all_eq_true.mpr trailing.2
    simp only [digitRuns?, leading.span_append gapStarts, between.span_append gapStops, digits]
    simp [leading.1, between.1, trailing.1]

theorem digitRuns?_eq_none_iff {line : List Char} :
    digitRuns? line = none ↔ ∀ first second, ¬ TwoRuns line first second := by
  rw [Option.eq_none_iff_forall_ne_some, Prod.forall]
  exact forall₂_congr fun first second => not_congr digitRuns?_eq_some_iff

/-- A line is made of two runs in at most one way. -/
theorem TwoRuns.unique {line first second left right : List Char} (runs : TwoRuns line first second)
    (runsToo : TwoRuns line left right) : left = first ∧ right = second :=
  Prod.mk.inj (Option.some.inj ((digitRuns?_eq_some_iff.mpr runsToo).symm.trans
    (digitRuns?_eq_some_iff.mpr runs)))

end Runs

section Numbers

/-- A run of ASCII digits that stands for a number below a bound. -/
def Stands (bound : ℕ) (run : List Char) (number : ℕ) : Prop :=
  (∀ c ∈ run, c.isDigit = true) ∧ Nat.ofDigitChars 10 run 0 = number ∧ number < bound

/-- What is wrong with a run of digits that does not stand for a number below a bound: it is too
large by its ASCII digits before the first other one, or there is another one. -/
inductive BadNumber (bound : ℕ) (run : List Char) : Fault → Prop
  | tooLarge (large : bound ≤ Nat.ofDigitChars 10 (run.takeWhile (·.isDigit)) 0) :
    BadNumber bound run .tooLarge
  | invalidDigit (small : Nat.ofDigitChars 10 (run.takeWhile (·.isDigit)) 0 < bound)
    (other : ∃ c ∈ run, c.isDigit = false) : BadNumber bound run .invalidDigit

variable {bound : ℕ} {run : List Char}

/-- More digits never make a number smaller. -/
theorem le_ofDigitChars (digits : List Char) (start : ℕ) :
    start ≤ Nat.ofDigitChars 10 digits start := by
  induction digits generalizing start with
  | nil => exact le_rfl
  | cons c rest ih =>
    rw [Nat.ofDigitChars_cons]
    exact le_trans (by omega) (ih _)

/-- The digits are read one by one, but all of them together decide. -/
theorem foldlM_digit_eq (run : List Char) {start : ℕ} (small : start < bound) :
    run.foldlM (digit bound) start =
      if bound ≤ Nat.ofDigitChars 10 (run.takeWhile (·.isDigit)) start then .error .tooLarge
      else if run.all (·.isDigit) then .ok (Nat.ofDigitChars 10 run start)
      else .error .invalidDigit := by
  induction run generalizing start with
  | nil => simp [small.not_ge, pure, Except.pure]
  | cons c rest ih =>
    rw [List.foldlM_cons, digit, List.takeWhile_cons, List.all_cons, Nat.ofDigitChars_cons]
    cases ascii : c.isDigit with
    | false => simp [small.not_ge, bind, Except.bind]
    | true =>
      simp only [Bool.not_true, Bool.false_eq_true, if_false, if_true, Bool.true_and,
        Nat.ofDigitChars_cons]
      by_cases large : bound ≤ 10 * start + (c.toNat - '0'.toNat)
      · rw [if_pos large, if_pos (large.trans (le_ofDigitChars _ _))]
        rfl
      · rw [if_neg large]
        exact ih (not_le.mp large)

theorem number_eq_ok_iff (positive : 0 < bound) {value : ℕ} :
    number bound run = .ok value ↔ Stands bound run value := by
  rw [number, foldlM_digit_eq run positive]
  constructor
  · intro outcome
    split_ifs at outcome with large ascii
    have all := List.all_eq_true.mp ascii
    rw [List.takeWhile_eq_self_iff.mpr all] at large
    obtain rfl := Except.ok.inj outcome
    exact ⟨all, rfl, not_le.mp large⟩
  · rintro ⟨all, rfl, small⟩
    rw [List.takeWhile_eq_self_iff.mpr all, if_neg small.not_ge, if_pos (List.all_eq_true.mpr all)]

theorem number_eq_error_iff (positive : 0 < bound) {fault : Fault} :
    number bound run = .error fault ↔ BadNumber bound run fault := by
  rw [number, foldlM_digit_eq run positive]
  constructor
  · intro outcome
    split_ifs at outcome with large ascii
    · obtain rfl := Except.error.inj outcome
      exact .tooLarge large
    · obtain rfl := Except.error.inj outcome
      exact .invalidDigit (not_le.mp large) (by simpa using ascii)
  · rintro (large | ⟨small, other⟩)
    · exact if_pos large
    · have notAll : ¬ run.all (·.isDigit) = true := by simpa using other
      rw [if_neg small.not_ge, if_neg notAll]

end Numbers

section Lines

/-- What a line that counts has to hold. -/
inductive Role where
  | header
  | item

/-- The numbers of a header fit 64 bits, and those of an item 32 bits. -/
def Role.bound : Role → ℕ
  | .header => UInt64.size
  | .item => UInt32.size

theorem Role.bound_pos (role : Role) : 0 < role.bound := by
  cases role <;> decide

/-- The two runs of a line in the order in which they are read: those of an item from the back. -/
def Role.inOrder : Role → List Char → List Char → List Char × List Char
  | .header, first, second => (first, second)
  | .item, first, second => (second, first)

/-- A line that holds two numbers. -/
def Holds (role : Role) (line : List Char) (a b : ℕ) : Prop :=
  ∃ first second, TwoRuns line first second ∧ Stands role.bound first a ∧ Stands role.bound second b

theorem Holds.lt {role : Role} {line : List Char} {a b : ℕ} (holds : Holds role line a b) :
    a < role.bound ∧ b < role.bound := by
  obtain ⟨_, _, -, ⟨-, -, first⟩, ⟨-, -, second⟩⟩ := holds
  exact ⟨first, second⟩

/-- What is wrong with a line that does not hold two numbers: it is not made of two runs of digits,
or the run that is read first is no number, or only the other one is not. -/
inductive Offends (role : Role) (line : List Char) : Fault → Prop
  | unexpected (other : ∀ first second, ¬ TwoRuns line first second) :
    Offends role line (.unexpectedLine line)
  | earlier {first second : List Char} {fault : Fault} (runs : TwoRuns line first second)
    (bad : BadNumber role.bound (role.inOrder first second).1 fault) : Offends role line fault
  | later {first second : List Char} {fault : Fault} (runs : TwoRuns line first second)
    (good : ∃ number, Stands role.bound (role.inOrder first second).1 number)
    (bad : BadNumber role.bound (role.inOrder first second).2 fault) : Offends role line fault

/-- The first line that counts is the header. -/
def Draft.role (draft : Draft) : Role := if draft.header?.isNone then .header else .item

/-- A draft with the two numbers of one more line. -/
def Draft.extend (draft : Draft) (a b : ℕ) : Draft :=
  match draft.header? with
  | none => { draft with header? := some ⟨.ofNat a, b⟩ }
  | some _ => { draft with items := ⟨.ofNat b, .ofNat a⟩ :: draft.items }

/-- The numbers of a line are read in the order of its role. -/
theorem readPair_eq (draft : Draft) (first second : List Char) :
    readPair draft first second = (do
      let earlier ← number draft.role.bound (draft.role.inOrder first second).1
      let later ← number draft.role.bound (draft.role.inOrder first second).2
      return match draft.role with
        | .header => draft.extend earlier later
        | .item => draft.extend later earlier) := by
  obtain ⟨header?, items⟩ := draft
  cases header? <;> rfl

theorem readPair_eq_ok_iff {draft after : Draft} {first second : List Char} :
    readPair draft first second = .ok after ↔ ∃ a b, Stands draft.role.bound first a ∧
      Stands draft.role.bound second b ∧ after = draft.extend a b := by
  rw [readPair_eq, bind_eq_ok]
  simp only [bind_eq_ok, number_eq_ok_iff draft.role.bound_pos]
  cases draft.role with
  | header =>
    constructor
    · rintro ⟨a, reads, b, readsToo, outcome⟩
      exact ⟨a, b, reads, readsToo, (Except.ok.inj outcome).symm⟩
    · rintro ⟨a, b, reads, readsToo, rfl⟩
      exact ⟨a, reads, b, readsToo, rfl⟩
  | item =>
    constructor
    · rintro ⟨b, reads, a, readsToo, outcome⟩
      exact ⟨a, b, readsToo, reads, (Except.ok.inj outcome).symm⟩
    · rintro ⟨a, b, readsToo, reads, rfl⟩
      exact ⟨b, reads, a, readsToo, rfl⟩

theorem readPair_eq_error_iff {draft : Draft} {first second : List Char} {fault : Fault} :
    readPair draft first second = .error fault ↔
      BadNumber draft.role.bound (draft.role.inOrder first second).1 fault ∨
        (∃ number, Stands draft.role.bound (draft.role.inOrder first second).1 number) ∧
          BadNumber draft.role.bound (draft.role.inOrder first second).2 fault := by
  rw [readPair_eq, bind_eq_error]
  simp only [bind_eq_error, number_eq_ok_iff draft.role.bound_pos,
    number_eq_error_iff draft.role.bound_pos]
  refine or_congr_right ?_
  constructor
  · rintro ⟨value, reads, bad | ⟨_, -, absent⟩⟩
    · exact ⟨⟨value, reads⟩, bad⟩
    · exact nomatch absent
  · rintro ⟨⟨value, reads⟩, bad⟩
    exact ⟨value, reads, Or.inl bad⟩

/-- A line is taken in when it holds the numbers that its role asks for. -/
theorem readEntry_eq_ok_iff {draft after : Draft} {line : List Char} :
    readEntry draft line = .ok after ↔
      ∃ a b, Holds draft.role line a b ∧ after = draft.extend a b := by
  rw [readEntry]
  cases runs : digitRuns? line with
  | none =>
    refine iff_of_false (fun absent => nomatch absent) ?_
    rintro ⟨a, b, ⟨first, second, parts, -⟩, -⟩
    exact digitRuns?_eq_none_iff.mp runs first second parts
  | some pair =>
    obtain ⟨first, second⟩ := pair
    refine readPair_eq_ok_iff.trans ?_
    constructor
    · rintro ⟨a, b, reads, readsToo, rfl⟩
      exact ⟨a, b, ⟨first, second, digitRuns?_eq_some_iff.mp runs, reads, readsToo⟩, rfl⟩
    · rintro ⟨a, b, ⟨left, right, parts, reads, readsToo⟩, rfl⟩
      obtain ⟨rfl, rfl⟩ := (digitRuns?_eq_some_iff.mp runs).unique parts
      exact ⟨a, b, reads, readsToo, rfl⟩

/-- A line is refused with what is wrong with it. -/
theorem readEntry_eq_error_iff {draft : Draft} {line : List Char} {fault : Fault} :
    readEntry draft line = .error fault ↔ Offends draft.role line fault := by
  rw [readEntry]
  cases runs : digitRuns? line with
  | none =>
    have other := digitRuns?_eq_none_iff.mp runs
    constructor
    · intro outcome
      obtain rfl := Except.error.inj outcome
      exact .unexpected other
    · rintro (_ | ⟨parts, -⟩ | ⟨parts, -, -⟩)
      · rfl
      · exact absurd parts (other _ _)
      · exact absurd parts (other _ _)
  | some pair =>
    obtain ⟨first, second⟩ := pair
    have known := digitRuns?_eq_some_iff.mp runs
    refine readPair_eq_error_iff.trans ?_
    constructor
    · rintro (bad | ⟨good, bad⟩)
      · exact .earlier known bad
      · exact .later known good bad
    · rintro (other | ⟨parts, bad⟩ | ⟨parts, good, bad⟩)
      · exact absurd known (other first second)
      · obtain ⟨rfl, rfl⟩ := known.unique parts
        exact Or.inl bad
      · obtain ⟨rfl, rfl⟩ := known.unique parts
        exact Or.inr ⟨good, bad⟩

end Lines

section Texts

/-- The role of the line at an index among those that count. -/
def roleAt : ℕ → Role
  | 0 => .header
  | _ + 1 => .item

/-- Lines of which none offends. -/
def Sound (lines : List (List Char)) : Prop :=
  ∀ index line, lines[index]? = some line → ∃ a b, Holds (roleAt index) line a b

/-- A line that describes an item: it holds the value and then the weight. -/
def Itemizes (line : List Char) (item : Item) : Prop :=
  Holds .item line item.value.toNat item.weight.toNat

/-- Lines that describe an instance: the header holds the capacity and the number of the others, and
each of these the value and the weight of an item. -/
def Describes (lines : List (List Char)) (inst : Instance) : Prop :=
  ∃ header others, lines = header :: others ∧
    Holds .header header inst.capacity.toNat others.length ∧
      List.Forall₂ Itemizes others inst.items

/-- What is wrong with lines that describe no instance: the first one that offends, by its layout or
by a number, or if there is none, that the header is missing or holds another number than that of the
items. -/
inductive Faulty (lines : List (List Char)) : Fault → Prop
  | offence {before : List (List Char)} {line : List Char} {after : List (List Char)} {fault : Fault}
    (parts : lines = before ++ line :: after) (sound : Sound before)
    (offends : Offends (roleAt before.length) line fault) : Faulty lines fault
  | missingHeader (empty : lines = []) : Faulty lines .missingHeader
  | wrongCount {header : List Char} {others : List (List Char)} {capacity count : ℕ}
    (parts : lines = header :: others) (sound : Sound lines)
    (holds : Holds .header header capacity count) (differs : count ≠ others.length) :
    Faulty lines (.wrongCount count others.length)

variable {lines others : List (List Char)} {header : List Char} {after : Draft} {inst : Instance}
  {fault : Fault}

theorem itemizes_of_holds {line : List Char} {a b : ℕ} (holds : Holds .item line a b) :
    Itemizes line ⟨.ofNat b, .ofNat a⟩ := by
  obtain ⟨small, smallToo⟩ := holds.lt
  rwa [Itemizes, UInt32.toNat_ofNat_of_lt' small, UInt32.toNat_ofNat_of_lt' smallToo]

/-- Lines describe items when each of them holds two numbers. -/
theorem exists_itemizes_iff : (∃ items, List.Forall₂ Itemizes lines items) ↔
    ∀ line ∈ lines, ∃ a b, Holds .item line a b := by
  induction lines with
  | nil => exact iff_of_true ⟨[], .nil⟩ (List.forall_mem_nil _)
  | cons line rest ih =>
    rw [List.forall_mem_cons, ← ih]
    constructor
    · rintro ⟨_, each⟩
      obtain ⟨item, items, first, more, rfl⟩ := List.forall₂_cons_left_iff.mp each
      exact ⟨⟨_, _, first⟩, items, more⟩
    · rintro ⟨⟨a, b, first⟩, items, more⟩
      exact ⟨_, .cons (itemizes_of_holds first) more⟩

theorem sound_cons : Sound (header :: others) ↔
    (∃ a b, Holds .header header a b) ∧ ∃ items, List.Forall₂ Itemizes others items := by
  rw [exists_itemizes_iff]
  constructor
  · intro sound
    refine ⟨sound 0 header rfl, fun line member => ?_⟩
    obtain ⟨index, present⟩ := List.mem_iff_getElem?.mp member
    exact sound (index + 1) line present
  · rintro ⟨first, each⟩ (_ | index) line present
    · obtain rfl := Option.some.inj present
      exact first
    · exact each line (List.mem_of_getElem? present)

/-- The lines after the header give the items of a draft, the latest one first. -/
theorem foldlM_readEntry_item_eq_ok_iff (header : Header) (items : List Item) :
    lines.foldlM readEntry ⟨some header, items⟩ = .ok after ↔ ∃ more,
      List.Forall₂ Itemizes lines more ∧ after = ⟨some header, more.reverse ++ items⟩ := by
  induction lines generalizing items with
  | nil =>
    constructor
    · intro outcome
      exact ⟨[], .nil, (Except.ok.inj outcome).symm⟩
    · rintro ⟨more, each, rfl⟩
      obtain rfl := List.forall₂_nil_left_iff.mp each
      rfl
  | cons line rest ih =>
    rw [List.foldlM_cons, bind_eq_ok]
    constructor
    · rintro ⟨next, taken, outcome⟩
      obtain ⟨a, b, holds, rfl⟩ := readEntry_eq_ok_iff.mp taken
      obtain ⟨more, others, rfl⟩ := (ih _).mp outcome
      exact ⟨⟨.ofNat b, .ofNat a⟩ :: more, .cons (itemizes_of_holds holds) others, by simp⟩
    · rintro ⟨_, each, rfl⟩
      obtain ⟨item, more, first, others, rfl⟩ := List.forall₂_cons_left_iff.mp each
      refine ⟨⟨some header, item :: items⟩, readEntry_eq_ok_iff.mpr ⟨_, _, first, ?_⟩,
        (ih _).mpr ⟨more, others, by simp⟩⟩
      simp only [Draft.extend, UInt32.ofNat_toNat]

/-- What a sound text gives: the numbers of the header, and the items of the other lines. -/
theorem foldlM_readEntry_eq_ok_iff : (header :: others).foldlM readEntry {} = .ok after ↔
    ∃ capacity count items, Holds .header header capacity count ∧
      List.Forall₂ Itemizes others items ∧
        after = ⟨some ⟨.ofNat capacity, count⟩, items.reverse⟩ := by
  rw [List.foldlM_cons, bind_eq_ok]
  constructor
  · rintro ⟨next, taken, outcome⟩
    obtain ⟨capacity, count, holds, rfl⟩ := readEntry_eq_ok_iff.mp taken
    obtain ⟨items, each, rfl⟩ := (foldlM_readEntry_item_eq_ok_iff _ _).mp outcome
    exact ⟨capacity, count, items, holds, each, by rw [List.append_nil]⟩
  · rintro ⟨capacity, count, items, holds, each, rfl⟩
    refine ⟨_, readEntry_eq_ok_iff.mpr ⟨capacity, count, holds, rfl⟩, ?_⟩
    exact (foldlM_readEntry_item_eq_ok_iff _ _).mpr ⟨items, each, by rw [List.append_nil]⟩

/-- Lines are taken in when none of them offends, and then the next line has the next role. -/
theorem exists_draft_iff : (∃ after, lines.foldlM readEntry {} = .ok after) ↔ Sound lines := by
  cases lines with
  | nil => exact iff_of_true ⟨{}, rfl⟩ fun _ _ absent => nomatch absent
  | cons header others =>
    rw [sound_cons]
    constructor
    · rintro ⟨after, outcome⟩
      obtain ⟨capacity, count, items, holds, each, -⟩ := foldlM_readEntry_eq_ok_iff.mp outcome
      exact ⟨⟨capacity, count, holds⟩, items, each⟩
    · rintro ⟨⟨capacity, count, holds⟩, items, each⟩
      exact ⟨_, foldlM_readEntry_eq_ok_iff.mpr ⟨capacity, count, items, holds, each, rfl⟩⟩

theorem role_of_foldlM (outcome : lines.foldlM readEntry {} = .ok after) :
    after.role = roleAt lines.length := by
  cases lines with
  | nil =>
    obtain rfl := Except.ok.inj outcome
    rfl
  | cons header others =>
    obtain ⟨_, _, _, -, -, rfl⟩ := foldlM_readEntry_eq_ok_iff.mp outcome
    rfl

/-- The lines before the first one that offends are taken in. -/
theorem foldlM_readEntry_eq_error_iff : lines.foldlM readEntry {} = .error fault ↔
    ∃ before line after, lines = before ++ line :: after ∧ Sound before ∧
      Offends (roleAt before.length) line fault := by
  rw [foldlM_eq_error_iff]
  constructor
  · rintro ⟨before, line, after, middle, parts, passed, failed⟩
    refine ⟨before, line, after, parts, exists_draft_iff.mp ⟨middle, passed⟩, ?_⟩
    exact role_of_foldlM passed ▸ readEntry_eq_error_iff.mp failed
  · rintro ⟨before, line, after, parts, sound, offends⟩
    obtain ⟨middle, passed⟩ := exists_draft_iff.mpr sound
    refine ⟨before, line, after, middle, parts, passed, readEntry_eq_error_iff.mpr ?_⟩
    exact (role_of_foldlM passed).symm ▸ offends

/-- The header has to hold the number of items. -/
theorem finish_eq (capacity : UInt64) (count : ℕ) (items : List Item) :
    finish ⟨some ⟨capacity, count⟩, items.reverse⟩ =
      if items.length = count then .ok ⟨items, capacity⟩
      else .error (.wrongCount count items.length) := by
  simp only [finish, List.length_reverse, List.reverse_reverse]

/-- Lines are read as the instance that they describe. -/
theorem finish_foldlM_eq_ok_iff :
    lines.foldlM readEntry {} >>= finish = .ok inst ↔ Describes lines inst := by
  rw [bind_eq_ok]
  constructor
  · rintro ⟨after, outcome, finished⟩
    cases lines with
    | nil =>
      obtain rfl := Except.ok.inj outcome
      exact nomatch finished
    | cons header others =>
      obtain ⟨capacity, count, items, holds, each, rfl⟩ := foldlM_readEntry_eq_ok_iff.mp outcome
      rw [finish_eq] at finished
      split_ifs at finished with same
      obtain rfl := Except.ok.inj finished
      refine ⟨header, others, rfl, ?_, each⟩
      rwa [UInt64.toNat_ofNat_of_lt' holds.lt.1, each.length_eq, same]
  · rintro ⟨header, others, rfl, holds, each⟩
    refine ⟨_, foldlM_readEntry_eq_ok_iff.mpr ⟨_, _, _, holds, each, rfl⟩, ?_⟩
    rw [finish_eq, if_pos each.length_eq.symm, UInt64.ofNat_toNat]

/-- Lines that describe no instance are refused with what is wrong with them. -/
theorem finish_foldlM_eq_error_iff :
    lines.foldlM readEntry {} >>= finish = .error fault ↔ Faulty lines fault := by
  rw [bind_eq_error, foldlM_readEntry_eq_error_iff]
  constructor
  · rintro (⟨before, line, after, parts, sound, offends⟩ | ⟨after, outcome, finished⟩)
    · exact .offence parts sound offends
    · have sound := exists_draft_iff.mp ⟨after, outcome⟩
      cases lines with
      | nil =>
        obtain rfl := Except.ok.inj outcome
        obtain rfl := Except.error.inj finished
        exact .missingHeader rfl
      | cons header others =>
        obtain ⟨capacity, count, items, holds, each, rfl⟩ := foldlM_readEntry_eq_ok_iff.mp outcome
        rw [finish_eq] at finished
        split_ifs at finished with same
        obtain rfl := Except.error.inj finished
        rw [← each.length_eq] at same ⊢
        exact .wrongCount rfl sound holds (Ne.symm same)
  · rintro (⟨parts, sound, offends⟩ | rfl | ⟨rfl, sound, holds, differs⟩)
    · exact Or.inl ⟨_, _, _, parts, sound, offends⟩
    · exact Or.inr ⟨{}, rfl, rfl⟩
    · obtain ⟨-, items, each⟩ := sound_cons.mp sound
      refine Or.inr ⟨_, foldlM_readEntry_eq_ok_iff.mpr ⟨_, _, _, holds, each, rfl⟩, ?_⟩
      rw [finish_eq, ← each.length_eq, if_neg (Ne.symm differs)]

/-- The reader accepts exactly the texts of which the lines that count describe an instance, and
gives that instance. Any other text is refused with its first line that offends, and only if there is
none, for its header or its number of items. -/
theorem read_iff_grammar (text : String) :
    (∀ inst, read text.toUTF8.data.toList = .ok inst ↔
      Describes (entries (text.toList.splitOn '\n')) inst) ∧
    ∀ fault, read text.toUTF8.data.toList = .error fault ↔
      Faulty (entries (text.toList.splitOn '\n')) fault := by
  rw [read_toUTF8]
  exact ⟨fun inst => finish_foldlM_eq_ok_iff, fun fault => finish_foldlM_eq_error_iff⟩

example : read "c value weight\r\n 4  1 \n\n3\t2".toUTF8.data.toList = .ok ⟨[⟨2, 3⟩], 4⟩ := by
  decide +kernel

end Texts

end TextFormat

end Knapsack
