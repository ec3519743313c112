import Knapsack.File.JsonFormat
import Knapsack.Proofs.Json.Tokens

/-! # What is written as JSON can be read again

The writer gives one text of an instance, and the reader takes many: the members of each object may
come in either order, and white space may stand around every token. Each reader takes the tokens of
its value and leaves the rest, so what holds of numbers carries over to items, to lists of any
length and to instances. The text that is written is the layout without any white space.
-/

namespace Knapsack.JsonFormat

open Json

variable {α β : Type} {tokens : List Token} {bytes : List UInt8} {text : String}

/-- A natural number below a bound of at most 64 bits is read. -/
theorem reads_readNatural {bound n : ℕ} (small : n < bound) (narrow : bound ≤ UInt64.size) :
    Reads (readNatural bound) [.number n] n := by
  intro rest bytes apart spaced
  obtain ⟨left, first, others⟩ := upcoming_eq spaced
  have begins : beginsNumber (Token.number n).initial = true := by
    rw [beginsNumber, Token.isDigit_initial, Bool.or_true]
  rw [Token.codes_number] at first
  refine ⟨left, ?_, others⟩
  rw [readNatural, bind_apply_of_ok first, if_pos begins,
    bind_apply_of_ok (readNumber_toDigits (small.trans_le narrow) (others.ends apart))]
  simp only [if_pos small]
  rfl

section Members

theorem colon_eq (spaced : Spaced (.colon :: tokens) bytes) :
    ∃ left, colon bytes = .ok ((), left) ∧ Spaced tokens left := by
  obtain ⟨left, first, others⟩ := upcoming_eq spaced
  refine ⟨left, ?_, others⟩
  rw [colon, bind_apply_of_ok first]
  rfl

/-- A member begins with its name. -/
theorem nextMember_name (spaced : Spaced (.name text :: tokens) bytes) :
    ∃ left, nextMember true bytes = .ok (true, Json.word text ++ byte '"' :: left) ∧
      Spaced tokens left := by
  obtain ⟨left, first, others⟩ := upcoming_eq spaced
  rw [Token.initial_eq (Token.codes_name text), Token.codes_name] at first
  refine ⟨left, ?_, others⟩
  rw [nextMember, bind_apply_of_ok first]
  change Except.ok (true, (Json.word text ++ [byte '"']) ++ left) = _
  rw [List.append_assoc]
  rfl

/-- Another member follows a comma. -/
theorem nextMember_comma (spaced : Spaced (.comma :: .name text :: tokens) bytes) :
    ∃ left, nextMember false bytes = .ok (true, Json.word text ++ byte '"' :: left) ∧
      Spaced tokens left := by
  obtain ⟨middle, first, others⟩ := upcoming_eq spaced
  obtain ⟨left, second, others⟩ := upcoming_eq others
  rw [Token.initial_eq (Token.codes_name text), Token.codes_name] at second
  refine ⟨left, ?_, others⟩
  rw [nextMember, bind_apply_of_ok first]
  change (Json.discard >>= fun _ => _) _ = _
  rw [bind_apply_of_ok (Token.discard_codes rfl middle), bind_apply_of_ok second]
  change Except.ok (true, (Json.word text ++ [byte '"']) ++ left) = _
  rw [List.append_assoc]
  rfl

/-- No member follows in front of the closing brace. -/
theorem nextMember_close (isFirst : Bool) (spaced : Spaced (.closeBrace :: tokens) bytes) :
    ∃ left, nextMember isFirst bytes = .ok (false, byte '\x7d' :: left) ∧ Spaced tokens left := by
  obtain ⟨left, first, others⟩ := upcoming_eq spaced
  refine ⟨left, ?_, others⟩
  rw [nextMember, bind_apply_of_ok first]
  rfl

/-- A reader that takes one member, whose opening quote has been passed over. -/
def Takes (layout : Layout α β) (before after : Members α β) (name : String)
    (value : List Token) : Prop :=
  ∀ rest left, Apart rest → Spaced (.colon :: (value ++ rest)) left → ∃ final,
    readMember layout before (Json.word name ++ byte '"' :: left) = .ok (after, final) ∧
      Spaced rest final

variable {layout : Layout α β} {members middle after : Members α β} {value : List Token}

theorem takes_first (plain : IsPlain text) (named : layout.firstName = Json.word text)
    (missing : members.first? = none) {a : α} (reads : Reads layout.readFirst value a) :
    Takes layout members { members with first? := some a } text value := by
  intro rest left apart spaced
  obtain ⟨behind, passed, others⟩ := colon_eq spaced
  obtain ⟨final, outcome, others⟩ := reads rest behind apart others
  refine ⟨final, ?_, others⟩
  rw [readMember, bind_apply_of_ok (readString_plain plain left), if_pos named.symm]
  simp only [missing, Option.isSome_none, Bool.false_eq_true, if_false]
  change (JsonFormat.colon >>= fun _ => _) _ = _
  rw [bind_apply_of_ok passed, bind_apply_of_ok outcome]
  rfl

theorem takes_second (plain : IsPlain text) (named : layout.secondName = Json.word text)
    (other : layout.firstName ≠ layout.secondName) (missing : members.second? = none) {b : β}
    (reads : Reads layout.readSecond value b) :
    Takes layout members { members with second? := some b } text value := by
  intro rest left apart spaced
  obtain ⟨behind, passed, others⟩ := colon_eq spaced
  obtain ⟨final, outcome, others⟩ := reads rest behind apart others
  refine ⟨final, ?_, others⟩
  rw [readMember, bind_apply_of_ok (readString_plain plain left),
    if_neg fun same => other (same.symm.trans named.symm), if_pos named.symm]
  simp only [missing, Option.isSome_none, Bool.false_eq_true, if_false]
  change (JsonFormat.colon >>= fun _ => _) _ = _
  rw [bind_apply_of_ok passed, bind_apply_of_ok outcome]
  rfl

/-- An object is read when its two members are taken one after the other. -/
theorem reads_object {first second : String × List Token} {a : α} {b : β}
    (one : Takes layout {} middle first.1 first.2)
    (two : Takes layout middle ⟨some a, some b⟩ second.1 second.2) :
    Reads (readRecord layout) (objectTokens [first, second]) (a, b) := by
  intro rest bytes apart spaced
  have tokens : objectTokens [first, second] ++ rest = .openBrace :: .name first.1 :: .colon ::
      (first.2 ++ .comma :: .name second.1 :: .colon :: (second.2 ++ .closeBrace :: rest)) := by
    simp [objectTokens, List.intercalate]
  rw [tokens] at spaced
  obtain ⟨inside, opened, spaced⟩ := upcoming_eq spaced
  -- Each of the two members and the closing brace takes one unit of the fuel.
  obtain ⟨fuel, ample⟩ : ∃ fuel, inside.length + 1 = fuel + 3 := by
    have long := spaced.length_le
    simp only [List.length_cons] at long
    exact Nat.exists_eq_add_of_le' (by omega)
  obtain ⟨_, named, spaced⟩ := nextMember_name spaced
  obtain ⟨_, taken, spaced⟩ := one _ _ (by simp [Apart]) spaced
  obtain ⟨_, namedToo, spaced⟩ := nextMember_comma spaced
  obtain ⟨_, takenToo, spaced⟩ := two _ _ (by simp [Apart]) spaced
  obtain ⟨left, closed, spaced⟩ := nextMember_close false spaced
  refine ⟨left, ?_, spaced⟩
  have members : readMembers layout (inside.length + 1) true {} inside =
      .ok (⟨some a, some b⟩, byte '\x7d' :: left) := by
    rw [ample, readMembers, bind_apply_of_ok named, if_pos rfl, bind_apply_of_ok taken,
      readMembers, bind_apply_of_ok namedToo, if_pos rfl, bind_apply_of_ok takenToo,
      readMembers, bind_apply_of_ok closed]
    rfl
  have brace : Token.openBrace.initial = byte '\x7b' := rfl
  rw [readRecord, bind_apply_of_ok opened, if_pos brace, readObject,
    bind_apply_of_ok (Token.discard_codes rfl inside), bind_apply_of_ok (get_apply inside),
    bind_apply_of_ok members]
  rfl

/-- The two members of an object, in either order. -/
def EitherOrder (first second : String × List Token) (tokens : List Token) : Prop :=
  tokens = objectTokens [first, second] ∨ tokens = objectTokens [second, first]

/-- A layout of two plain members of different names. -/
structure Layout.Names (layout : Layout α β) (first second : String) : Prop where
  firstName : layout.firstName = Json.word first
  secondName : layout.secondName = Json.word second
  distinct : layout.firstName ≠ layout.secondName
  firstPlain : IsPlain first
  secondPlain : IsPlain second

/-- A record is read from an object of its two members in either order. -/
theorem reads_record {first second : String × List Token} {a : α} {b : β}
    (names : layout.Names first.1 second.1) (readsFirst : Reads layout.readFirst first.2 a)
    (readsSecond : Reads layout.readSecond second.2 b) {tokens : List Token}
    (order : EitherOrder first second tokens) : Reads (readRecord layout) tokens (a, b) := by
  obtain ⟨firstName, secondName, distinct, firstPlain, secondPlain⟩ := names
  rcases order with rfl | rfl
  · exact reads_object (takes_first firstPlain firstName rfl readsFirst)
      (takes_second secondPlain secondName distinct rfl readsSecond)
  · exact reads_object (takes_second secondPlain secondName distinct rfl readsSecond)
      (takes_first firstPlain firstName rfl readsFirst)

end Members

section Elements

variable {read : Reader α} {elements : List (List Token)} {values : List α}

theorem nextElement_first {token : Token} (spaced : Spaced (token :: tokens) bytes)
    (goesOn : token.initial ≠ byte ']') : ∃ left, nextElement true bytes = .ok (true, left) ∧
      Spaced (token :: tokens) left := by
  obtain ⟨left, first, others⟩ := upcoming_eq spaced
  refine ⟨token.codes ++ left, ?_, others.tight token⟩
  rw [nextElement, bind_apply_of_ok first, if_neg goesOn]
  rfl

theorem nextElement_comma {token : Token} (spaced : Spaced (.comma :: token :: tokens) bytes)
    (goesOn : token.initial ≠ byte ']') : ∃ left, nextElement false bytes = .ok (true, left) ∧
      Spaced (token :: tokens) left := by
  obtain ⟨middle, first, others⟩ := upcoming_eq spaced
  obtain ⟨left, second, others⟩ := upcoming_eq others
  refine ⟨token.codes ++ left, ?_, others.tight token⟩
  rw [nextElement, bind_apply_of_ok first]
  change (Json.discard >>= fun _ => _) _ = _
  rw [bind_apply_of_ok (Token.discard_codes rfl middle), bind_apply_of_ok second, if_neg goesOn]
  rfl

theorem nextElement_close (isFirst : Bool) (spaced : Spaced (.closeBracket :: tokens) bytes) :
    ∃ left, nextElement isFirst bytes = .ok (false, byte ']' :: left) ∧ Spaced tokens left := by
  obtain ⟨left, first, others⟩ := upcoming_eq spaced
  refine ⟨left, ?_, others⟩
  rw [nextElement, bind_apply_of_ok first]
  rfl

/-- What follows the first element of an array. -/
def following (elements : List (List Token)) (rest : List Token) : List Token :=
  elements.flatMap (.comma :: ·) ++ .closeBracket :: rest

/-- What follows the opening bracket of an array. -/
def contents (elements : List (List Token)) (rest : List Token) : List Token :=
  [.comma].intercalate elements ++ .closeBracket :: rest

theorem arrayTokens_append (elements : List (List Token)) (rest : List Token) :
    arrayTokens elements ++ rest = .openBracket :: contents elements rest := by
  simp [arrayTokens, contents]

theorem contents_cons (element : List Token) (elements : List (List Token)) (rest : List Token) :
    contents (element :: elements) rest = element ++ following elements rest := by
  simp [contents, intercalate_cons, following]

theorem apart_following (elements : List (List Token)) (rest : List Token) :
    Apart (following elements rest) := by
  cases elements <;> simp [Apart, following]

theorem length_lt_following (elements : List (List Token)) (rest : List Token) :
    elements.length < (following elements rest).length := by
  induction elements with
  | nil => exact Nat.zero_lt_succ _
  | cons element others ih =>
    simp only [following, List.flatMap_cons, List.length_append, List.length_cons] at ih ⊢
    omega

theorem length_le_contents (elements : List (List Token)) (rest : List Token) :
    elements.length ≤ (contents elements rest).length := by
  cases elements with
  | nil => exact Nat.zero_le _
  | cons element others =>
    have short := length_lt_following others rest
    rw [contents_cons, List.length_append, List.length_cons]
    omega

/-- Elements that can be read, each of which shows that the array goes on. -/
def Elements (read : Reader α) (values : List α) (elements : List (List Token)) : Prop :=
  List.Forall₂ (fun value element => Reads read element value ∧
    ∃ token more, element = token :: more ∧ token.initial ≠ byte ']') values elements

/-- All further elements of an array are read. -/
theorem readElements_following (readable : Elements read values elements) {rest : List Token}
    {fuel : ℕ} (ample : elements.length < fuel) (spaced : Spaced (following elements rest) bytes) :
    ∃ left, readElements read fuel false bytes = .ok (values, byte ']' :: left) ∧
      Spaced rest left := by
  induction readable generalizing fuel bytes with
  | nil =>
    cases fuel with
    | zero => exact absurd ample (Nat.not_lt_zero _)
    | succ fuel =>
      obtain ⟨left, closed, spaced⟩ := nextElement_close false spaced
      refine ⟨left, ?_, spaced⟩
      rw [readElements, bind_apply_of_ok closed]
      rfl
  | @cons value element values elements first others ih =>
    obtain ⟨reads, token, more, rfl, goesOn⟩ := first
    cases fuel with
    | zero => exact absurd ample (Nat.not_lt_zero _)
    | succ fuel =>
      have tokens : following ((token :: more) :: elements) rest =
          .comma :: token :: (more ++ following elements rest) := by
        simp [following]
      rw [tokens] at spaced
      obtain ⟨start, goes, spaced⟩ := nextElement_comma spaced goesOn
      obtain ⟨_, taken, spaced⟩ := reads _ start (apart_following elements rest) spaced
      obtain ⟨left, filled, spaced⟩ := ih (Nat.lt_of_succ_lt_succ ample) spaced
      refine ⟨left, ?_, spaced⟩
      rw [readElements, bind_apply_of_ok goes, if_pos rfl, bind_apply_of_ok taken,
        bind_apply_of_ok filled]
      rfl

/-- All elements of an array are read. -/
theorem readElements_contents (readable : Elements read values elements) {rest : List Token}
    {fuel : ℕ} (ample : elements.length < fuel) (spaced : Spaced (contents elements rest) bytes) :
    ∃ left, readElements read fuel true bytes = .ok (values, byte ']' :: left) ∧
      Spaced rest left := by
  obtain ⟨fuel, rfl⟩ := Nat.exists_eq_succ_of_ne_zero (Nat.ne_zero_of_lt ample)
  cases readable with
  | nil =>
    obtain ⟨left, closed, spaced⟩ := nextElement_close true spaced
    refine ⟨left, ?_, spaced⟩
    rw [readElements, bind_apply_of_ok closed]
    rfl
  | @cons value element values elements first others =>
    obtain ⟨reads, token, more, rfl, goesOn⟩ := first
    rw [contents_cons, List.cons_append] at spaced
    obtain ⟨start, goes, spaced⟩ := nextElement_first spaced goesOn
    obtain ⟨_, taken, spaced⟩ := reads _ start (apart_following elements rest) spaced
    obtain ⟨left, filled, spaced⟩ :=
      readElements_following others (Nat.lt_of_succ_lt_succ ample) spaced
    refine ⟨left, ?_, spaced⟩
    rw [readElements, bind_apply_of_ok goes, if_pos rfl, bind_apply_of_ok taken,
      bind_apply_of_ok filled]
    rfl

/-- An array is read element by element. -/
theorem reads_list (readable : Elements read values elements) :
    Reads (readList read) (arrayTokens elements) values := by
  intro rest bytes apart spaced
  rw [arrayTokens_append] at spaced
  obtain ⟨inside, opened, spaced⟩ := upcoming_eq spaced
  -- Every element takes one unit of the fuel, and so does the closing bracket.
  have ample : elements.length < inside.length + 1 :=
    Nat.lt_succ_of_le ((length_le_contents elements rest).trans spaced.length_le)
  obtain ⟨left, filled, spaced⟩ := readElements_contents readable ample spaced
  refine ⟨left, ?_, spaced⟩
  have bracket : Token.openBracket.initial = byte '[' := rfl
  rw [readList, bind_apply_of_ok opened, if_pos bracket,
    bind_apply_of_ok (Token.discard_codes rfl inside), bind_apply_of_ok (get_apply inside),
    bind_apply_of_ok filled]
  rfl

end Elements

section Instances

variable {item : Item} {inst : Instance}

/-- The tokens of an object for an item, with its members in either order. -/
def IsItem (item : Item) : List Token → Prop :=
  EitherOrder ("weight", [.number item.weight.toNat]) ("value", [.number item.value.toNat])

/-- The tokens of an object for an instance, with the members of every object in either order. -/
def IsInstance (inst : Instance) (tokens : List Token) : Prop :=
  ∃ elements, List.Forall₂ IsItem inst.items elements ∧
    EitherOrder ("items", arrayTokens elements) ("capacity", [.number inst.capacity.toNat]) tokens

theorem reads_readItem (isItem : IsItem item tokens) : Reads readItem tokens item := by
  have names : Layout.Names ⟨Json.word "weight", readNatural UInt32.size, Json.word "value",
      readNatural UInt32.size⟩ "weight" "value" := ⟨rfl, rfl, by decide, by decide, by decide⟩
  intro rest bytes apart spaced
  obtain ⟨left, outcome, others⟩ := reads_record names
    (reads_readNatural item.weight.toNat_lt (by decide))
    (reads_readNatural item.value.toNat_lt (by decide)) isItem rest bytes apart spaced
  refine ⟨left, ?_, others⟩
  rw [readItem, bind_apply_of_ok outcome]
  simp only [UInt32.ofNat_toNat]
  rfl

/-- An object begins with its brace. -/
theorem EitherOrder.exists_openBrace {first second : String × List Token}
    (order : EitherOrder first second tokens) : ∃ token more,
      tokens = token :: more ∧ token.initial ≠ byte ']' := by
  rcases order with rfl | rfl <;> exact ⟨.openBrace, _, rfl, by decide⟩

theorem reads_readInstance (isInstance : IsInstance inst tokens) :
    Reads readInstance tokens inst := by
  have names : Layout.Names ⟨Json.word "items", readList readItem, Json.word "capacity",
      readNatural UInt64.size⟩ "items" "capacity" := ⟨rfl, rfl, by decide, by decide, by decide⟩
  obtain ⟨elements, matched, order⟩ := isInstance
  have readable : Elements readItem inst.items elements :=
    matched.imp fun _ _ isItem => ⟨reads_readItem isItem, isItem.exists_openBrace⟩
  intro rest bytes apart spaced
  obtain ⟨left, outcome, others⟩ := reads_record names (reads_list readable)
    (reads_readNatural inst.capacity.toNat_lt le_rfl) order rest bytes apart spaced
  refine ⟨left, ?_, others⟩
  rw [readInstance, bind_apply_of_ok outcome]
  simp only [UInt64.ofNat_toNat]
  rfl

/-- Nothing but white space may follow an instance. -/
theorem read_of_isInstance (isInstance : IsInstance inst tokens) (spaced : Spaced tokens bytes) :
    read bytes = .ok inst := by
  rw [← List.append_nil tokens] at spaced
  obtain ⟨left, outcome, rest⟩ := reads_readInstance isInstance [] bytes (by simp [Apart]) spaced
  cases rest with
  | done blank =>
    have skipped : skipSpace left = .ok ((), []) := by
      change Except.ok ((), left.dropWhile isSpace) = _
      rw [List.dropWhile_eq_nil_iff.mpr blank]
    have ended : readEnd left = .ok ((), []) := by
      rw [readEnd, bind_apply_of_ok skipped]
      rfl
    rw [read, StateT.run', bind_apply_of_ok outcome, bind_apply_of_ok ended]
    rfl

/-- The tokens of an item as it is written. -/
def itemTokens (item : Item) : List Token :=
  objectTokens [("weight", [.number item.weight.toNat]), ("value", [.number item.value.toNat])]

/-- The tokens of an instance as it is written. -/
def instanceTokens (inst : Instance) : List Token :=
  objectTokens [("items", arrayTokens (inst.items.map itemTokens)),
    ("capacity", [.number inst.capacity.toNat])]

theorem isInstance_instanceTokens (inst : Instance) : IsInstance inst (instanceTokens inst) := by
  refine ⟨inst.items.map itemTokens, ?_, Or.inl rfl⟩
  rw [List.forall₂_map_right_iff]
  exact List.forall₂_same.mpr fun item _ => Or.inl rfl

theorem spell_instanceTokens (inst : Instance) : spell (instanceTokens inst) = inst.json := by
  have number : ∀ n, spell [.number n] = toString n := fun n =>
    (spell_cons _ _).trans String.append_empty
  have items : inst.items.map (spell ∘ itemTokens) = inst.items.map Item.json := by
    refine List.map_congr_left fun item _ => ?_
    rw [Function.comp_apply, itemTokens, spell_objectTokens]
    simp only [List.map_cons, List.map_nil, number]
    rfl
  rw [instanceTokens, spell_objectTokens]
  simp only [List.map_cons, List.map_nil, number, spell_arrayTokens, List.map_map, items]
  rfl

/-- The names of the two members of an item are plain. -/
theorem isPlain_of_mem_itemTokens {name : String} (listed : .name name ∈ itemTokens item) :
    IsPlain name := by
  obtain ⟨m, present, here⟩ := name_mem_objectTokens listed
  simp only [List.mem_cons, List.not_mem_nil, or_false] at present
  rcases present with rfl | rfl
  · obtain rfl : name = "weight" := by simpa using here
    decide
  · obtain rfl : name = "value" := by simpa using here
    decide

/-- The names of all members are plain. -/
theorem isPlain_of_mem_instanceTokens {name : String}
    (listed : .name name ∈ instanceTokens inst) : IsPlain name := by
  obtain ⟨m, present, here⟩ := name_mem_objectTokens listed
  simp only [List.mem_cons, List.not_mem_nil, or_false] at present
  rcases present with rfl | rfl
  · rcases here with rfl | within
    · exact (by decide : IsPlain "items")
    · obtain ⟨_, member, inside⟩ := name_mem_arrayTokens within
      obtain ⟨item, -, rfl⟩ := List.mem_map.mp member
      exact isPlain_of_mem_itemTokens inside
  · obtain rfl : name = "capacity" := by simpa using here
    decide

/-- An instance is read back from its text, and from every other rendering in which the members of
each object come in either order and there is any white space around the tokens. -/
theorem read_inverts_json (inst : Instance) :
    read inst.json.toUTF8.data.toList = .ok inst ∧
      ∀ tokens bytes, IsInstance inst tokens → Spaced tokens bytes → read bytes = .ok inst := by
  refine ⟨?_, fun tokens bytes => read_of_isInstance⟩
  rw [← spell_instanceTokens, toUTF8_spell fun _ => isPlain_of_mem_instanceTokens]
  exact read_of_isInstance (isInstance_instanceTokens inst) (spaced_flatMap_codes _)

/-- The members may be exchanged, and there may be white space around the first tokens. -/
theorem read_inverts_json_shuffled :
    read (Json.word " \x7b\n\"capacity\":5,\"items\":[\x7b\"value\":3,\"weight\":2\x7d]\x7d") =
      .ok ⟨[⟨2, 3⟩], 5⟩ := by
  have item : IsItem ⟨2, 3⟩ (objectTokens [("value", [.number 3]), ("weight", [.number 2])]) :=
    Or.inr rfl
  have isInstance : IsInstance ⟨[⟨2, 3⟩], 5⟩ _ := ⟨_, .cons item .nil, Or.inr rfl⟩
  refine (read_inverts_json ⟨[⟨2, 3⟩], 5⟩).2 _ _ isInstance ?_
  have blank : ∀ b ∈ [0x20], isSpace b = true := List.forall_mem_singleton.mpr rfl
  have lineBreak : ∀ b ∈ [0x0a], isSpace b = true := List.forall_mem_singleton.mpr rfl
  exact .token blank (.token lineBreak (spaced_flatMap_codes _))

end Instances

end Knapsack.JsonFormat
