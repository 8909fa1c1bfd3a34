import SpeechGrammar.Json.Reader

/-!
# Written JSON is read back

A string is written with escapes and read with them resolved, one character at
a time, whatever the characters are.  So every value that is made up of
strings, words such as `true`, arrays and objects is read back as it was
written, with nothing taken of the text behind it, provided that it nests no
deeper than the reader goes.  Numbers are left out: a number ends where the
text behind it lets it end.
-/

namespace SpeechGrammar.Json

namespace Reader

theorem hexValue?_hexDigit : ∀ value < 16, hexValue? (hexDigit value) = some value := by
  decide

theorem hexValueOf?_of_lt {code : Nat} (hcode : code < 32) :
    hexValueOf? '0' '0' (hexDigit (code / 16)) (hexDigit (code % 16)) = some code := by
  have hzero : hexValue? '0' = some 0 := rfl
  have hhigh := hexValue?_hexDigit (code / 16) (by omega)
  have hlow := hexValue?_hexDigit (code % 16) (by omega)
  simp only [hexValueOf?, hzero, hhigh, hlow, Option.bind_eq_bind, Option.bind_some]
  congr 1
  omega

/-- A character is read back from what it is written as inside a string. -/
theorem stringRest_escape (char : Char) (text : List Char) :
    stringRest (escape char ++ text) = ahead char (stringRest text) := by
  unfold escape
  -- Seven characters have an escape of their own, which the reader tells by its letter.
  iterate 7
    split
    · subst char
      rfl
  rename_i hquote hbackslash _ _ _ _ _
  split
  · rename_i hcontrol
    have hlow : isLowSurrogate char.toNat = false := by
      rw [isLowSurrogate, Bool.and_eq_false_iff, decide_eq_false_iff_not]
      omega
    have hhigh : isHighSurrogate char.toNat = false := by
      rw [isHighSurrogate, Bool.and_eq_false_iff, decide_eq_false_iff_not]
      omega
    simp only [List.cons_append, List.nil_append]
    rw [stringRest, hexValueOf?_of_lt hcontrol]
    simp [hlow, hhigh, Char.ofNat_toNat]
  · rename_i hvisible
    rw [List.singleton_append, stringRest]
    · exact if_neg hvisible
    all_goals grind

theorem stringRest_flatMap_escape (chars rest : List Char) :
    stringRest (chars.flatMap escape ++ '"' :: rest) = .ok (chars, rest) := by
  induction chars with
  | nil => rfl
  | cons char chars ih =>
      rw [List.flatMap_cons, List.append_assoc, stringRest_escape, ih]
      rfl

end Reader

/-- Values without numbers that nest at most so many levels deep. -/
inductive Numberless : Nat → Json → Prop where
  | null {limit : Nat} : Numberless limit .null
  | boolean {limit : Nat} (value : Bool) : Numberless limit (.boolean value)
  | string {limit : Nat} (text : String) : Numberless limit (.string text)
  | array {limit : Nat} {items : List Json} (hitems : ∀ item ∈ items, Numberless limit item) :
      Numberless (limit + 1) (.array items)
  | object {limit : Nat} {members : List (String × Json)}
      (hmembers : ∀ member ∈ members, Numberless limit member.2) :
      Numberless (limit + 1) (.object members)

/-- The first character of a value is no white space and closes nothing. -/
theorem Numberless.exists_write_eq_cons {limit : Nat} {json : Json}
    (hjson : Numberless limit json) :
    ∃ first more, json.write = first :: more ∧ isSpace first = false ∧ first ≠ ']' := by
  cases hjson with
  | null => exact ⟨'n', _, rfl, rfl, by decide⟩
  | boolean value =>
      cases value with
      | false => exact ⟨'f', _, rfl, rfl, by decide⟩
      | true => exact ⟨'t', _, rfl, rfl, by decide⟩
  | string text => exact ⟨'"', _, rfl, rfl, by decide⟩
  | @array _ items _ =>
      cases items with
      | nil => exact ⟨'[', _, rfl, rfl, by decide⟩
      | cons item items => exact ⟨'[', _, rfl, rfl, by decide⟩
  | @object _ members _ =>
      cases members with
      | nil => exact ⟨'{', _, rfl, rfl, by decide⟩
      | cons member members => exact ⟨'{', _, rfl, rfl, by decide⟩

theorem Numberless.exists_allowance {limit allowance : Nat} {json : Json}
    (hjson : Numberless limit json) (hallowance : 3 * json.write.length ≤ allowance) :
    ∃ lower, allowance = lower + 1 := by
  obtain ⟨first, more, hstart, -, -⟩ := hjson.exists_write_eq_cons
  rw [hstart, List.length_cons] at hallowance
  exact ⟨allowance - 1, by omega⟩

theorem skipSpace_cons {char : Char} (hchar : isSpace char = false) (rest : List Char) :
    skipSpace (char :: rest) = char :: rest :=
  List.dropWhile_cons_of_neg (by simp [hchar])

/-- A value is taken off the front of every text, with an allowance of three for each character. -/
def IsReadBack (limit : Nat) (json : Json) : Prop :=
  ∀ allowance rest, 3 * json.write.length ≤ allowance →
    Reader.value allowance limit (json.write ++ rest) = .ok (json, rest)

namespace Reader

variable {allowance limit : Nat} {text rest : List Char}

/-! ## Steps of the reader -/

theorem items_last {item : Json} (hitem : value allowance limit text = .ok (item, ']' :: rest)) :
    items (allowance + 1) limit text = .ok ([item], rest) := by
  rw [items, hitem]
  rfl

theorem items_more {item : Json} {others : List Json} {char : Char} {more : List Char}
    (hitem : value allowance limit text = .ok (item, ',' :: char :: more))
    (hspace : isSpace char = false) (hbracket : char ≠ ']')
    (hothers : items allowance limit (char :: more) = .ok (others, rest)) :
    items (allowance + 1) limit text = .ok (item :: others, rest) := by
  have hcomma : skipSpace (',' :: char :: more) = ',' :: char :: more := skipSpace_cons rfl _
  rw [items, hitem]
  simp only [bind, Except.bind, hcomma, skipSpace_cons hspace]
  split
  · contradiction
  · rename_i heq
    exact absurd (List.cons.inj heq).1 hbracket
  · rw [hothers]
    rfl

theorem members_last {name : String} {json : Json}
    (hjson : value allowance limit text = .ok (json, '\x7d' :: rest)) :
    members (allowance + 1) limit (name.toList.flatMap escape ++ '"' :: ':' :: text) =
      .ok ([(name, json)], rest) := by
  rw [members, stringRest_flatMap_escape]
  simp only [bind, Except.bind, skipSpace_cons (rfl : isSpace ':' = false), hjson,
    skipSpace_cons (rfl : isSpace '\x7d' = false)]
  rw [String.ofList_toList]
  rfl

theorem members_more {name : String} {json : Json} {others : List (String × Json)}
    {more : List Char} (hjson : value allowance limit text = .ok (json, ',' :: '"' :: more))
    (hothers : members allowance limit more = .ok (others, rest)) :
    members (allowance + 1) limit (name.toList.flatMap escape ++ '"' :: ':' :: text) =
      .ok ((name, json) :: others, rest) := by
  rw [members, stringRest_flatMap_escape]
  simp only [bind, Except.bind, skipSpace_cons (rfl : isSpace ':' = false), hjson,
    skipSpace_cons (rfl : isSpace ',' = false), skipSpace_cons (rfl : isSpace '"' = false), hothers]
  rw [String.ofList_toList]
  rfl

theorem value_string (text : String) :
    value (allowance + 1) limit (writeString text ++ rest) = .ok (.string text, rest) := by
  have htext : writeString text ++ rest = '"' :: (text.toList.flatMap escape ++ '"' :: rest) := by
    simp [writeString]
  rw [htext, value]
  simp only [skipSpace_cons (rfl : isSpace '"' = false), stringRest_flatMap_escape, bind,
    Except.bind]
  rw [String.ofList_toList]
  rfl

theorem value_array {list : List Json} (hlist : array allowance limit text = .ok (list, rest)) :
    value (allowance + 1) (limit + 1) ('[' :: text) = .ok (.array list, rest) := by
  rw [value]
  simp only [skipSpace_cons (rfl : isSpace '[' = false), hlist, bind, Except.bind]
  rfl

theorem value_object {list : List (String × Json)}
    (hlist : object allowance limit text = .ok (list, rest)) :
    value (allowance + 1) (limit + 1) ('\x7b' :: text) = .ok (.object list, rest) := by
  rw [value]
  simp only [skipSpace_cons (rfl : isSpace '\x7b' = false), hlist, bind, Except.bind]
  rfl

theorem array_items {char : Char} {more : List Char} {list : List Json}
    (hspace : isSpace char = false) (hbracket : char ≠ ']')
    (hlist : items allowance limit (char :: more) = .ok (list, rest)) :
    array (allowance + 1) limit (char :: more) = .ok (list, rest) := by
  rw [array, skipSpace_cons hspace]
  split
  · contradiction
  · rename_i heq
    exact absurd (List.cons.inj heq).1 hbracket
  · exact hlist

theorem object_members {list : List (String × Json)}
    (hlist : members allowance limit text = .ok (list, rest)) :
    object (allowance + 1) limit ('"' :: text) = .ok (list, rest) := by
  rw [object, skipSpace_cons rfl]
  exact hlist

/-! ## Lists of items and members -/

theorem items_write {item : Json} {others : List Json}
    (hitems : ∀ json ∈ item :: others, Numberless limit json ∧ IsReadBack limit json)
    (hallowance : 3 * (item.write.length + (writeItems others).length) + 1 ≤ allowance)
    (rest : List Char) :
    items allowance limit (item.write ++ (writeItems others ++ ']' :: rest)) =
      .ok (item :: others, rest) := by
  induction others generalizing item allowance with
  | nil =>
      obtain ⟨allowance, rfl⟩ := Nat.exists_eq_add_one.mpr (Nat.zero_lt_of_lt hallowance)
      obtain ⟨-, hitem⟩ := hitems item (List.mem_cons_self ..)
      exact items_last (hitem allowance _ (by omega))
  | cons other others ih =>
      obtain ⟨allowance, rfl⟩ := Nat.exists_eq_add_one.mpr (Nat.zero_lt_of_lt hallowance)
      obtain ⟨⟨-, hitem⟩, hothers⟩ := List.forall_mem_cons.mp hitems
      obtain ⟨⟨char, more, hstart, hspace, hbracket⟩, -⟩ :=
        (hothers other (List.mem_cons_self ..)).imp_left Numberless.exists_write_eq_cons
      have hlength : (writeItems (other :: others)).length =
          other.write.length + (writeItems others).length + 1 := by
        simp [writeItems]
      have hrest : items allowance limit (other.write ++ (writeItems others ++ ']' :: rest)) =
          .ok (other :: others, rest) :=
        ih hothers (by omega)
      have htext : writeItems (other :: others) ++ ']' :: rest =
          ',' :: (other.write ++ (writeItems others ++ ']' :: rest)) := by
        simp [writeItems]
      have hfirst := hitem allowance (writeItems (other :: others) ++ ']' :: rest) (by omega)
      rw [hstart] at hrest
      apply items_more _ hspace hbracket hrest
      rw [hfirst, htext, hstart]
      rfl

theorem members_write {name : String} {json : Json} {others : List (String × Json)}
    (hmembers : ∀ member ∈ (name, json) :: others, IsReadBack limit member.2)
    (hallowance : 3 * (json.write.length + (writeMembers others).length) + 1 ≤ allowance)
    (rest : List Char) :
    members allowance limit (name.toList.flatMap escape ++
        '"' :: ':' :: (json.write ++ (writeMembers others ++ '\x7d' :: rest))) =
      .ok ((name, json) :: others, rest) := by
  induction others generalizing name json allowance with
  | nil =>
      obtain ⟨allowance, rfl⟩ := Nat.exists_eq_add_one.mpr (Nat.zero_lt_of_lt hallowance)
      have hjson : IsReadBack limit json := hmembers (name, json) (List.mem_cons_self ..)
      exact members_last (hjson allowance _ (by omega))
  | cons other others ih =>
      obtain ⟨allowance, rfl⟩ := Nat.exists_eq_add_one.mpr (Nat.zero_lt_of_lt hallowance)
      obtain ⟨key, value⟩ := other
      have hjson : IsReadBack limit json := hmembers (name, json) (List.mem_cons_self ..)
      have hlength : value.write.length + (writeMembers others).length + 1 ≤
          (writeMembers ((key, value) :: others)).length := by
        simp [writeMembers]
        omega
      have htext : writeMembers ((key, value) :: others) ++ '\x7d' :: rest =
          ',' :: '"' :: (key.toList.flatMap escape ++
            '"' :: ':' :: (value.write ++ (writeMembers others ++ '\x7d' :: rest))) := by
        simp [writeMembers, writeString]
      have hfirst := hjson allowance (writeMembers ((key, value) :: others) ++ '\x7d' :: rest)
        (by omega)
      apply members_more _ (ih (List.forall_mem_cons.mp hmembers).2 (by omega))
      rw [hfirst, htext]

end Reader

/-- An array is read back if its items are. -/
theorem isReadBack_array {limit : Nat} {items : List Json}
    (hitems : ∀ item ∈ items, Numberless limit item ∧ IsReadBack limit item) :
    IsReadBack (limit + 1) (.array items) := by
  intro allowance rest hallowance
  cases items with
  | nil =>
      rw [write, List.length_cons, List.length_singleton] at hallowance
      obtain ⟨allowance, rfl⟩ : ∃ lower, allowance = lower + 2 := ⟨allowance - 2, by omega⟩
      apply Reader.value_array
      rw [Reader.array]
      rfl
  | cons item items =>
      obtain ⟨⟨char, more, hstart, hspace, hbracket⟩, -⟩ :=
        (hitems item (List.mem_cons_self ..)).imp_left Numberless.exists_write_eq_cons
      have hlength : (write (.array (item :: items))).length =
          item.write.length + (writeItems items).length + 2 := by
        simp [write]
        omega
      obtain ⟨allowance, rfl⟩ : ∃ lower, allowance = lower + 2 := ⟨allowance - 2, by omega⟩
      have hlist : Reader.items allowance limit (item.write ++ (writeItems items ++ ']' :: rest)) =
          .ok (item :: items, rest) :=
        Reader.items_write hitems (by omega) rest
      have htext : write (.array (item :: items)) ++ rest =
          '[' :: (item.write ++ (writeItems items ++ ']' :: rest)) := by
        simp [write]
      rw [htext]
      apply Reader.value_array
      rw [hstart] at hlist ⊢
      exact Reader.array_items hspace hbracket hlist

/-- An object is read back if the values of its members are. -/
theorem isReadBack_object {limit : Nat} {members : List (String × Json)}
    (hmembers : ∀ member ∈ members, IsReadBack limit member.2) :
    IsReadBack (limit + 1) (.object members) := by
  intro allowance rest hallowance
  cases members with
  | nil =>
      rw [write, List.length_cons, List.length_singleton] at hallowance
      obtain ⟨allowance, rfl⟩ : ∃ lower, allowance = lower + 2 := ⟨allowance - 2, by omega⟩
      apply Reader.value_object
      rw [Reader.object]
      rfl
  | cons member members =>
      obtain ⟨name, json⟩ := member
      have hlength : json.write.length + (writeMembers members).length + 2 ≤
          (write (.object ((name, json) :: members))).length := by
        simp [write]
        omega
      obtain ⟨allowance, rfl⟩ : ∃ lower, allowance = lower + 2 := ⟨allowance - 2, by omega⟩
      have htext : write (.object ((name, json) :: members)) ++ rest =
          '\x7b' :: '"' :: (name.toList.flatMap escape ++
            '"' :: ':' :: (json.write ++ (writeMembers members ++ '\x7d' :: rest))) := by
        simp [write, writeString]
      rw [htext]
      apply Reader.value_object
      apply Reader.object_members
      exact Reader.members_write hmembers (by omega) rest

/-- Values without numbers are taken off the front of every text, as they were written. -/
theorem Numberless.isReadBack {limit : Nat} {json : Json} (hjson : Numberless limit json) :
    IsReadBack limit json := by
  induction hjson with
  | @null limit =>
      intro allowance rest hallowance
      obtain ⟨allowance, rfl⟩ := (@null limit).exists_allowance hallowance
      rw [write, Reader.value]
      rfl
  | @boolean limit value =>
      intro allowance rest hallowance
      obtain ⟨allowance, rfl⟩ := (@boolean limit value).exists_allowance hallowance
      cases value with
      | false =>
          rw [write, Reader.value]
          rfl
      | true =>
          rw [write, Reader.value]
          rfl
  | @string limit text =>
      intro allowance rest hallowance
      obtain ⟨allowance, rfl⟩ := (@string limit text).exists_allowance hallowance
      exact Reader.value_string text
  | array hitems ih => exact isReadBack_array fun item hitem => ⟨hitems item hitem, ih item hitem⟩
  | object _ ih => exact isReadBack_object ih

theorem readValue_write {json : Json} (hjson : Numberless nestingLimit json) :
    readValue json.write = .ok (json, []) := by
  have hread := hjson.isReadBack (3 * json.write.length + 3) [] (Nat.le_add_right _ _)
  rw [List.append_nil] at hread
  rw [readValue, hread]
  rfl

end SpeechGrammar.Json
