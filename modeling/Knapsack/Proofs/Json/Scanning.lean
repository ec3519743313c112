import Knapsack.Json.Reader
import Knapsack.Proofs.File.Grammar

/-! # Reading numbers and names

A natural number of 64 bits that is written in decimal is read as that number. Its digits all fit in
the significand, and it ends in front of any byte that could not go on with a number. A name of
letters is read up to its closing quote.
-/

namespace Knapsack.Json

variable {α β : Type} {bytes left : List UInt8}

/-- A reader in two parts goes on from where the first part stopped. -/
theorem bind_apply_of_ok {first : Reader α} {next : α → Reader β} {value : α}
    (outcome : first bytes = .ok (value, left)) : (first >>= next) bytes = next value left := by
  change Except.bind (first bytes) _ = _
  rw [outcome]
  rfl

theorem get_apply (bytes : List UInt8) : (get : Reader (List UInt8)) bytes = .ok (bytes, bytes) :=
  rfl

section Digits

/-- A digit of a text has one of ten code points, which is its code as well. -/
theorem toNat_byte {c : Char} (digit : c.isDigit = true) :
    (byte c).toNat = c.toNat ∧ 48 ≤ c.toNat ∧ c.toNat ≤ 57 := by
  simp only [Char.isDigit, Bool.and_eq_true, decide_eq_true_eq, ge_iff_le, UInt32.le_iff_toNat_le,
    Char.toNat_val] at digit
  obtain ⟨low, high⟩ := digit
  have low : 48 ≤ c.toNat := low
  have high : c.toNat ≤ 57 := high
  exact ⟨Nat.mod_eq_of_lt (high.trans_lt (by decide)), low, high⟩

theorem isDigit_iff {b : UInt8} : isDigit b = true ↔ 48 ≤ b.toNat ∧ b.toNat ≤ 57 := by
  simp only [isDigit, Bool.and_eq_true, decide_eq_true_eq, UInt8.le_iff_toNat_le]
  rfl

theorem isDigit_byte {c : Char} (digit : c.isDigit = true) : isDigit (byte c) = true := by
  obtain ⟨same, bounds⟩ := toNat_byte digit
  rwa [isDigit_iff, same]

/-- A number is written with digits. -/
theorem isDigit_of_mem_toDigits {n : ℕ} : ∀ c ∈ Nat.toDigits 10 n, c.isDigit = true :=
  fun _ => Nat.isDigit_of_mem_toDigits (by decide) (by decide)

/-- No white space belongs to a number. -/
theorem ends_of_isSpace {b : UInt8} (blank : isSpace b = true) :
    isDigit b = false ∧ b ≠ byte '.' ∧ b ≠ byte 'e' ∧ b ≠ byte 'E' := by
  simp only [isSpace, Bool.or_eq_true, beq_iff_eq] at blank
  rcases blank with ((rfl | rfl) | rfl) | rfl <;> decide

theorem isSpace_of_isDigit {b : UInt8} (digit : isDigit b = true) : isSpace b = false := by
  by_contra blank
  rw [(ends_of_isSpace (Bool.not_eq_false _ ▸ blank)).1] at digit
  exact Bool.false_ne_true digit

/-- The digits of a number of 64 bits all fit in the significand. -/
theorem absorb_map_byte {digits : List Char} (ascii : ∀ c ∈ digits, c.isDigit = true) {start : ℕ}
    (small : Nat.ofDigitChars 10 digits start < UInt64.size) :
    Significand.absorb start (digits.map byte) =
      (Nat.ofDigitChars 10 digits start, digits.length) := by
  induction digits generalizing start with
  | nil => rfl
  | cons c rest ih =>
    obtain ⟨digit, others⟩ := List.forall_mem_cons.mp ascii
    rw [Nat.ofDigitChars_cons] at small ⊢
    have next : 10 * start + ((byte c).toNat - (byte '0').toNat) =
        10 * start + (c.toNat - '0'.toNat) := by
      rw [(toNat_byte digit).1]
      rfl
    have fits := (TextFormat.le_ofDigitChars rest _).trans_lt small
    rw [List.map_cons, Significand.absorb, next, if_neg (not_le.mpr fits), ih others small]
    rfl

/-- The significand of a written number is the number. -/
theorem ofInteger_toDigits {n : ℕ} (small : n < UInt64.size) :
    Significand.ofInteger ((Nat.toDigits 10 n).map byte) = ⟨n, 0⟩ := by
  have value : Nat.ofDigitChars 10 (Nat.toDigits 10 n) 0 = n := Nat.ofDigitChars_ten_toDigits
  have absorbed := absorb_map_byte isDigit_of_mem_toDigits (value.symm ▸ small)
  rw [Significand.ofInteger, absorbed, value, List.length_map]
  simp

/-- Only zero is written with a leading zero. -/
theorem head?_toDigits_ne {n : ℕ} (positive : 0 < n) : (Nat.toDigits 10 n).head? ≠ some '0' := by
  induction n using Nat.strong_induction_on with
  | _ n ih =>
    by_cases small : n < 10
    · rw [Nat.toDigits_of_lt_base small]
      interval_cases n <;> decide
    · rw [Nat.toDigits_of_base_le (by decide) (not_lt.mp small), List.head?_append_of_ne_nil _
        Nat.toDigits_ne_nil]
      exact ih (n / 10) (by omega) (by omega)

/-- Bytes in front of which a number ends. -/
def Ends (left : List UInt8) : Prop :=
  ∀ b ∈ left.head?, isDigit b = false ∧ b ≠ byte '.' ∧ b ≠ byte 'e' ∧ b ≠ byte 'E'

/-- All digits that come next are taken, up to a byte that is no digit. -/
theorem takeSomeDigits_append {digits : List UInt8} (all : ∀ b ∈ digits, isDigit b = true)
    (some : digits ≠ []) (ends : Ends left) :
    takeSomeDigits (digits ++ left) = .ok (digits, left) := by
  have taken : takeDigits (digits ++ left) = .ok (digits, left) := by
    have stops : left.takeWhile isDigit = [] ∧ left.dropWhile isDigit = left := by
      cases left with
      | nil => exact ⟨rfl, rfl⟩
      | cons b rest => simp [(ends b rfl).1]
    change Except.ok ((digits ++ left).takeWhile isDigit, (digits ++ left).dropWhile isDigit) = _
    rw [List.takeWhile_append_of_pos all, List.dropWhile_append_of_pos all, stops.1, stops.2,
      List.append_nil]
  rw [takeSomeDigits, bind_apply_of_ok taken]
  simp [List.isEmpty_iff, some, pure, StateT.pure, Except.pure]

/-- At the end of a number there is neither a decimal point nor an exponent. -/
theorem Ends.head?_beq (ends : Ends left) {b : UInt8}
    (goesOn : b = byte '.' ∨ b = byte 'e' ∨ b = byte 'E') : (left.head? == some b) = false := by
  rw [beq_eq_false_iff_ne]
  intro same
  obtain ⟨-, point, small, large⟩ := ends b same
  rcases goesOn with rfl | rfl | rfl
  · exact point rfl
  · exact small rfl
  · exact large rfl

/-- A number that ends after its integral digits is natural. -/
theorem readFraction_of_ends {n : ℕ} (ends : Ends left) :
    readFraction false ⟨n, 0⟩ left = .ok (.natural n, left) := by
  have exponent : atExponent left = .ok (false, left) := by
    change Except.ok (left.head? == some (byte 'e') || left.head? == some (byte 'E'), left) = _
    rw [ends.head?_beq (Or.inr (Or.inl rfl)), ends.head?_beq (Or.inr (Or.inr rfl))]
    rfl
  have peeked : peek? left = .ok (left.head?, left) := rfl
  rw [readFraction, bind_apply_of_ok peeked, ends.head?_beq (Or.inl rfl),
    if_neg Bool.false_ne_true, bind_apply_of_ok exponent]
  rfl

/-- A written number is read up to its end. -/
theorem readNumber_toDigits {n : ℕ} (small : n < UInt64.size) (ends : Ends left) :
    readNumber ((Nat.toDigits 10 n).map byte ++ left) = .ok (.natural n, left) := by
  have all : ∀ b ∈ (Nat.toDigits 10 n).map byte, isDigit b = true :=
    List.forall_mem_map.mpr fun c member => isDigit_byte (isDigit_of_mem_toDigits c member)
  have written : (Nat.toDigits 10 n).map byte ≠ [] :=
    List.map_eq_nil_iff.not.mpr Nat.toDigits_ne_nil
  have taken := takeSomeDigits_append all written ends
  have peeked : peek? ((Nat.toDigits 10 n).map byte ++ left) =
    .ok (((Nat.toDigits 10 n).map byte ++ left).head?, (Nat.toDigits 10 n).map byte ++ left) := rfl
  have positive : (((Nat.toDigits 10 n).map byte ++ left).head? == some (byte '-')) = false := by
    rw [beq_eq_false_iff_ne, List.head?_append_of_ne_nil _ written]
    exact fun minus => absurd (all _ (List.mem_of_head? minus)) (by decide)
  have padded : ¬(1 < ((Nat.toDigits 10 n).map byte).length ∧
      ((Nat.toDigits 10 n).map byte).head? = some (byte '0')) := by
    rintro ⟨several, zero⟩
    obtain rfl | above := Nat.eq_zero_or_pos n
    · simp at several
    · rw [List.head?_map] at zero
      obtain ⟨c, first, same⟩ := Option.map_eq_some_iff.mp zero
      have code := (toNat_byte (isDigit_of_mem_toDigits c (List.mem_of_head? first))).1
      rw [same] at code
      obtain rfl : c = '0' := Char.toNat_inj.mp code.symm
      exact head?_toDigits_ne above first
  rw [readNumber, bind_apply_of_ok peeked, positive]
  simp only [Bool.false_eq_true, if_false]
  rw [bind_apply_of_ok taken]
  simp only [if_neg padded]
  rw [ofInteger_toDigits small]
  exact readFraction_of_ends ends

end Digits

section Names

/-- A name of ASCII letters, which stand for themselves in a string. -/
def IsPlain (text : String) : Prop := text.toList.all Char.isAlpha = true

instance (text : String) : Decidable (IsPlain text) := inferInstanceAs (Decidable (_ = true))

theorem IsPlain.isAlpha {text : String} (plain : IsPlain text) :
    ∀ c ∈ text.toList, c.isAlpha = true := List.all_eq_true.mp plain

/-- The codes of ASCII characters are their encodings. -/
theorem word_eq_toUTF8 {text : String} (ascii : ∀ c ∈ text.toList, c.toNat < 128) :
    word text = text.toUTF8.data.toList := by
  rw [TextFormat.toList_toUTF8, word, List.map_eq_flatMap]
  refine List.flatMap_congr fun c listed => ?_
  have small : c.val.toNat ≤ 127 := Nat.le_of_lt_succ (ascii c listed)
  rw [String.utf8EncodeChar, if_pos small]
  rfl

theorem toNat_of_isAlpha {c : Char} (letter : c.isAlpha = true) :
    65 ≤ c.toNat ∧ c.toNat < 128 ∧ c.toNat ≠ 92 := by
  simp only [Char.isAlpha, Char.isUpper, Char.isLower, Bool.or_eq_true, Bool.and_eq_true,
    decide_eq_true_eq, ge_iff_le, UInt32.le_iff_toNat_le] at letter
  change (65 ≤ c.toNat ∧ c.toNat ≤ 90) ∨ (97 ≤ c.toNat ∧ c.toNat ≤ 122) at letter
  omega

/-- A letter is neither a quote nor a backslash nor a control character. -/
theorem byte_of_isAlpha {c : Char} (letter : c.isAlpha = true) :
    byte c ≠ byte '"' ∧ byte c ≠ byte '\\' ∧ ¬byte c < 0x20 := by
  obtain ⟨low, high, backslash⟩ := toNat_of_isAlpha letter
  have code : (byte c).toNat = c.toNat := Nat.mod_eq_of_lt (high.trans (by decide))
  rw [Ne, Ne, ← UInt8.toNat_inj, ← UInt8.toNat_inj, UInt8.lt_iff_toNat_lt, code]
  refine ⟨fun same => ?_, fun same => backslash same, fun less => ?_⟩
  · exact absurd (low.trans_eq same) (by decide)
  · exact absurd (low.trans_lt less) (by decide)

/-- Letters are read as they are, up to the closing quote. -/
theorem scanString_plain {letters : List Char} (plain : ∀ c ∈ letters, c.isAlpha = true)
    (left : List UInt8) : scanString false .plain (letters.map byte ++ byte '"' :: left) =
      .ok (letters.map byte, left) := by
  induction letters with
  | nil => rfl
  | cons c rest ih =>
    obtain ⟨letter, others⟩ := List.forall_mem_cons.mp plain
    obtain ⟨quote, backslash, control⟩ := byte_of_isAlpha letter
    have kept : advance false .plain (byte c) = .ok (.plain, [byte c]) := by
      simp only [advance, if_neg backslash, if_neg control]
    rw [List.map_cons, List.cons_append, scanString, if_neg fun both => quote both.2]
    simp only [kept, ih others, List.singleton_append]

/-- A plain name is read up to its closing quote. -/
theorem readString_plain {text : String} (plain : IsPlain text) (left : List UInt8) :
    readString (word text ++ byte '"' :: left) = .ok (word text, left) := by
  have scanned : (liftM (scanString false .plain (word text ++ byte '"' :: left)) :
      Reader (List UInt8 × List UInt8)) (word text ++ byte '"' :: left) =
      .ok ((word text, left), word text ++ byte '"' :: left) := by
    rw [word, scanString_plain plain.isAlpha]
    rfl
  have moved : (set left : Reader PUnit) (word text ++ byte '"' :: left) = .ok ((), left) := rfl
  have valid : ByteArray.validateUTF8 ⟨(word text).toArray⟩ = true := by
    rw [word_eq_toUTF8 fun c listed => (toNat_of_isAlpha (plain.isAlpha c listed)).2.1]
    exact ByteArray.validateUTF8_eq_true_iff.mpr text.isValidUTF8
  rw [readString, bind_apply_of_ok (get_apply _), bind_apply_of_ok scanned]
  dsimp only
  rw [bind_apply_of_ok moved]
  simp only [valid, if_true]
  rfl

end Names

end Knapsack.Json
