import Knapsack.Json.Writer
import Knapsack.Proofs.Json.Scanning

/-! # The tokens of a document

A document is a sequence of tokens with any white space between them. A reader of a value takes the
tokens of that value and leaves the others, however they are laid out. Only the end of a number does
not show, so no number may follow a value. What is written is the layout without white space.
-/

namespace Knapsack.Json

variable {α : Type} {bytes : List UInt8}

/-- A token of a document: a punctuation mark, a name between quotes or a natural number. -/
inductive Token where
  | openBrace
  | closeBrace
  | openBracket
  | closeBracket
  | colon
  | comma
  | name (text : String)
  | number (n : ℕ)

namespace Token

def text : Token → String
  | openBrace => "\x7b"
  | closeBrace => "\x7d"
  | openBracket => "["
  | closeBracket => "]"
  | colon => ":"
  | comma => ","
  | name text => quoted text
  | number n => toString n

/-- The codes of the characters of a token. -/
def codes (token : Token) : List UInt8 := word token.text

/-- The first one of the codes. -/
def initial (token : Token) : UInt8 := token.codes.headD 0

theorem codes_name (text : String) :
    (name text).codes = byte '"' :: (word text ++ [byte '"']) := by
  simp [codes, Token.text, quoted, word]

theorem codes_number (n : ℕ) : (number n).codes = (Nat.toDigits 10 n).map byte := by
  simp [codes, Token.text, word, Nat.toString_eq_repr, Nat.toList_repr]

end Token

/-- The layouts of some tokens, with any white space in front of each of them and at the end. -/
inductive Spaced : List Token → List UInt8 → Prop
  | done {space : List UInt8} (blank : ∀ b ∈ space, isSpace b = true) : Spaced [] space
  | token {space bytes : List UInt8} {token : Token} {tokens : List Token}
      (blank : ∀ b ∈ space, isSpace b = true) (others : Spaced tokens bytes) :
      Spaced (token :: tokens) (space ++ (token.codes ++ bytes))

section Layouts

variable {token : Token} {tokens : List Token}

theorem Token.initial_eq {b : UInt8} {more : List UInt8} (codes : token.codes = b :: more) :
    token.initial = b := by
  rw [initial, codes, List.headD_cons]

theorem Token.isDigit_initial (n : ℕ) : isDigit (number n).initial = true := by
  obtain ⟨c, rest, digits⟩ := List.exists_cons_of_ne_nil (@Nat.toDigits_ne_nil n 10)
  have codes : (number n).codes = byte c :: rest.map byte := by
    rw [codes_number, digits, List.map_cons]
  rw [initial_eq codes]
  exact isDigit_byte (isDigit_of_mem_toDigits c (digits ▸ List.mem_cons_self ..))

/-- No token begins with white space. -/
theorem Token.isSpace_initial (token : Token) : isSpace token.initial = false := by
  cases token with
  | name text => rw [initial_eq (codes_name text)]; rfl
  | number n => exact isSpace_of_isDigit (isDigit_initial n)
  | _ => rfl

theorem Token.exists_codes (token : Token) : ∃ more, token.codes = token.initial :: more := by
  have written : token.codes ≠ [] := by
    cases token with
    | name text => simp [codes_name]
    | number n => simp [codes_number]
    | _ => exact List.cons_ne_nil _ _
  obtain ⟨b, more, codes⟩ := List.exists_cons_of_ne_nil written
  exact ⟨more, initial_eq codes ▸ codes⟩

/-- White space is passed over, and the next token stays where it is. -/
theorem upcoming_eq (spaced : Spaced (token :: tokens) bytes) : ∃ left,
    upcoming bytes = .ok (token.initial, token.codes ++ left) ∧ Spaced tokens left := by
  obtain ⟨more, codes⟩ := token.exists_codes
  cases spaced with
  | @token space left _ _ blank others =>
    refine ⟨left, ?_, others⟩
    have skipped : skipSpace (space ++ (token.codes ++ left)) = .ok ((), token.codes ++ left) := by
      have stops : isSpace token.initial = false := token.isSpace_initial
      change Except.ok ((), (space ++ (token.codes ++ left)).dropWhile isSpace) = _
      rw [List.dropWhile_append_of_pos blank, codes, List.cons_append,
        List.dropWhile_cons_of_neg (by simp [stops])]
    rw [upcoming, bind_apply_of_ok skipped, codes]
    rfl

/-- A token of one byte is passed over. -/
theorem Token.discard_codes (lone : token.codes.length = 1) (left : List UInt8) :
    discard (token.codes ++ left) = .ok ((), left) := by
  obtain ⟨b, codes⟩ := List.length_eq_one_iff.mp lone
  rw [codes]
  rfl

/-- Every token takes a byte at least. -/
theorem Spaced.length_le (spaced : Spaced tokens bytes) : tokens.length ≤ bytes.length := by
  induction spaced with
  | done _ => exact Nat.zero_le _
  | @token space bytes token tokens blank others ih =>
    obtain ⟨more, codes⟩ := token.exists_codes
    simp only [codes, List.length_append, List.length_cons]
    omega

/-- Tokens that do not begin with a number. -/
def Apart (tokens : List Token) : Prop := ∀ n, tokens.head? ≠ some (.number n)

/-- In front of tokens that do not begin with a number, a number ends. -/
theorem Spaced.ends (spaced : Spaced tokens bytes) (apart : Apart tokens) : Ends bytes := by
  intro b isFirst
  cases spaced with
  | done blank => exact ends_of_isSpace (blank b (List.mem_of_head? isFirst))
  | @token space left token _ blank others =>
    cases space with
    | cons first rest =>
      obtain rfl := Option.some.inj isFirst
      exact ends_of_isSpace (blank first (List.mem_cons_self ..))
    | nil =>
      obtain ⟨more, codes⟩ := token.exists_codes
      rw [codes] at isFirst
      obtain rfl := Option.some.inj isFirst
      cases token with
      | name text => rw [Token.initial_eq (Token.codes_name text)]; decide
      | number n => exact absurd rfl (apart n)
      | _ => decide

/-- A layout of a token and of others that is not spaced in front of the token. -/
theorem Spaced.tight (spaced : Spaced tokens bytes) (token : Token) :
    Spaced (token :: tokens) (token.codes ++ bytes) :=
  @Spaced.token [] bytes token tokens (by simp) spaced

end Layouts

/-- The tokens of an array of elements. -/
def arrayTokens (elements : List (List Token)) : List Token :=
  .openBracket :: ([.comma].intercalate elements ++ [.closeBracket])

/-- The tokens of an object of members. -/
def objectTokens (members : List (String × List Token)) : List Token :=
  .openBrace :: ([.comma].intercalate (members.map fun m => .name m.1 :: .colon :: m.2) ++
    [.closeBrace])

/-- Elements are separated by commas. -/
theorem intercalate_cons (first : List Token) (others : List (List Token)) :
    [.comma].intercalate (first :: others) = first ++ others.flatMap (.comma :: ·) := by
  induction others generalizing first with
  | nil => simp [List.intercalate]
  | cons second others ih =>
    have next := ih second
    simp only [List.intercalate, List.intersperse_cons_cons, List.flatten_cons] at next ⊢
    rw [next, List.flatMap_cons]
    rfl

section Spelling

/-- The text of some tokens without any white space. -/
def spell (tokens : List Token) : String := String.join (tokens.map Token.text)

theorem spell_append (first second : List Token) :
    spell (first ++ second) = spell first ++ spell second := by
  rw [spell, List.map_append, String.join_append]
  rfl

theorem spell_cons (token : Token) (tokens : List Token) :
    spell (token :: tokens) = token.text ++ spell tokens := by
  rw [spell, List.map_cons, String.join_cons]
  rfl

theorem spell_intercalate (elements : List (List Token)) :
    spell ([.comma].intercalate elements) = ",".intercalate (elements.map spell) := by
  induction elements with
  | nil => rfl
  | cons first others ih =>
    cases others with
    | nil => simp [List.intercalate]
    | cons second others =>
      have next : [.comma].intercalate (first :: second :: others) =
          first ++ .comma :: [.comma].intercalate (second :: others) := by
        simp only [intercalate_cons, List.flatMap_cons, List.cons_append]
      rw [next, spell_append, spell_cons, ih]
      simp only [List.map_cons, String.intercalate_cons_cons, String.append_assoc]
      rfl

/-- The text of an array has the texts of its elements. -/
theorem spell_arrayTokens (elements : List (List Token)) :
    spell (arrayTokens elements) = array (elements.map spell) := by
  rw [arrayTokens, spell_cons, spell_append, spell_intercalate, ← String.append_assoc]
  rfl

/-- The text of an object has the texts of its members. -/
theorem spell_objectTokens (members : List (String × List Token)) :
    spell (objectTokens members) = object (members.map fun m => (m.1, spell m.2)) := by
  rw [objectTokens, spell_cons, spell_append, spell_intercalate, ← String.append_assoc, object,
    List.map_map, List.map_map]
  refine congrArg (_ ++ ",".intercalate · ++ _) (List.map_congr_left fun m _ => ?_)
  rw [Function.comp_apply, spell_cons, spell_cons, ← String.append_assoc]
  rfl

/-- A token is written in ASCII, if it is no name of other characters. -/
theorem Token.lt_of_mem_text {token : Token} (plain : ∀ name, token = .name name → IsPlain name) :
    ∀ c ∈ token.text.toList, c.toNat < 128 := by
  cases token with
  | name name =>
    have written : (Token.name name).text.toList = '"' :: (name.toList ++ ['"']) := by
      simp [Token.text, quoted]
    rw [written, List.forall_mem_cons, List.forall_mem_append, List.forall_mem_singleton]
    have letters := (plain name rfl).isAlpha
    exact ⟨by decide, fun c letter => (toNat_of_isAlpha (letters c letter)).2.1, by decide⟩
  | number n =>
    have written : (number n).text.toList = Nat.toDigits 10 n := by
      rw [Token.text, Nat.toString_eq_repr, Nat.toList_repr]
    rw [written]
    exact fun c digit => (toNat_byte (isDigit_of_mem_toDigits c digit)).2.2.trans_lt (by decide)
  | _ => exact List.forall_mem_singleton.mpr (by decide)

/-- The text of tokens with plain names is encoded as their codes. -/
theorem toUTF8_spell {tokens : List Token} (plain : ∀ name, .name name ∈ tokens → IsPlain name) :
    (spell tokens).toUTF8.data.toList = tokens.flatMap Token.codes := by
  have letters : (spell tokens).toList = tokens.flatMap (·.text.toList) := by
    rw [spell, String.toList_join, List.flatMap_map]
  rw [← word_eq_toUTF8, word, letters, List.map_flatMap]
  · rfl
  · intro c listed
    rw [letters] at listed
    obtain ⟨token, member, within⟩ := List.mem_flatMap.mp listed
    exact Token.lt_of_mem_text (fun name same => plain name (same ▸ member)) c within

/-- The names between commas are those of the elements. -/
theorem name_mem_intercalate {name : String} {elements : List (List Token)}
    (listed : .name name ∈ [.comma].intercalate elements) :
    ∃ element ∈ elements, .name name ∈ element := by
  cases elements with
  | nil => exact nomatch listed
  | cons first others =>
    rw [intercalate_cons, List.mem_append, List.mem_flatMap] at listed
    rcases listed with here | ⟨element, member, within⟩
    · exact ⟨first, List.mem_cons_self .., here⟩
    · exact ⟨element, List.mem_cons_of_mem _ member, by simpa using within⟩

theorem name_mem_arrayTokens {name : String} {elements : List (List Token)}
    (listed : .name name ∈ arrayTokens elements) : ∃ element ∈ elements, .name name ∈ element := by
  refine name_mem_intercalate ?_
  simpa [arrayTokens] using listed

theorem name_mem_objectTokens {name : String} {members : List (String × List Token)}
    (listed : .name name ∈ objectTokens members) :
    ∃ m ∈ members, name = m.1 ∨ .name name ∈ m.2 := by
  have inside : Token.name name ∈ [.comma].intercalate
      (members.map fun m => .name m.1 :: .colon :: m.2) := by
    simpa [objectTokens] using listed
  obtain ⟨_, member, within⟩ := name_mem_intercalate inside
  obtain ⟨m, present, rfl⟩ := List.mem_map.mp member
  exact ⟨m, present, by simpa using within⟩

/-- The codes of tokens are a layout of them. -/
theorem spaced_flatMap_codes (tokens : List Token) :
    Spaced tokens (tokens.flatMap Token.codes) := by
  induction tokens with
  | nil => exact .done nofun
  | cons token others ih => exact ih.tight token

end Spelling

/-- A reader that takes the given tokens for a value, and leaves what follows. -/
def Reads (read : Reader α) (tokens : List Token) (value : α) : Prop :=
  ∀ rest bytes, Apart rest → Spaced (tokens ++ rest) bytes →
    ∃ left, read bytes = .ok (value, left) ∧ Spaced rest left

end Knapsack.Json
