/-!
# Blank characters and words

The blank characters are those with the White_Space property.  They separate
the words of an utterance and the tokens of a grammar text, and they are
trimmed off labels, values and lines.
-/

namespace SpeechGrammar.Text

def isBlank (char : Char) : Bool :=
  let code := char.toNat
  (9 ≤ code && code ≤ 13) || code == 0x20 || code == 0x85 || code == 0xA0 || code == 0x1680 ||
    (0x2000 ≤ code && code ≤ 0x200A) || code == 0x2028 || code == 0x2029 || code == 0x202F ||
    code == 0x205F || code == 0x3000

def allBlank (text : List Char) : Bool := text.all isBlank

def trimStart (text : List Char) : List Char := text.dropWhile isBlank

def trimEnd : List Char → List Char
  | [] => []
  | char :: rest =>
      match trimEnd rest with
      | [] => if isBlank char then [] else [char]
      | kept => char :: kept

def trim (text : List Char) : List Char := trimEnd (trimStart text)

def joinFirst (char : Char) : List (List Char) → List (List Char)
  | [] => [[char]]
  | word :: words => (char :: word) :: words

/-- The maximal runs of characters that are not blank. -/
def words : List Char → List (List Char)
  | [] => []
  | char :: rest =>
      if isBlank char then
        words rest
      else
        match rest with
        | [] => [[char]]
        | next :: _ => if isBlank next then [char] :: words rest else joinFirst char (words rest)

def splitAt (cut : Char) : List Char → List (List Char)
  | [] => [[]]
  | char :: rest =>
      if char = cut then [] :: splitAt cut rest else joinFirst char (splitAt cut rest)

def lines (text : List Char) : List (List Char) := splitAt '\n' text

/-- The part before the first occurrence of a character, and the part after it. -/
def cutFirst? (cut : Char) : List Char → Option (List Char × List Char)
  | [] => none
  | char :: rest =>
      if char = cut then
        some ([], rest)
      else
        (cutFirst? cut rest).map fun (before, after) => (char :: before, after)

/-- The part before the last occurrence of a character, and the part after it. -/
def cutLast? (cut : Char) : List Char → Option (List Char × List Char)
  | [] => none
  | char :: rest =>
      match cutLast? cut rest with
      | some (before, after) => some (char :: before, after)
      | none => if char = cut then some ([], rest) else none

def trimmed (text : String) : String := String.ofList (trim text.toList)

def wordsOf (text : String) : List String := (words text.toList).map String.ofList

/-- A split at the first occurrence puts the text together again. -/
theorem eq_append_of_cutFirst? {cut : Char} {text before after : List Char}
    (h : cutFirst? cut text = some (before, after)) :
    text = before ++ cut :: after ∧ cut ∉ before := by
  induction text generalizing before with
  | nil => simp [cutFirst?] at h
  | cons char rest ih =>
      rw [cutFirst?] at h
      split at h
      · rename_i same
        obtain ⟨rfl, rfl⟩ := by simpa using h
        exact ⟨by rw [same]; rfl, by simp⟩
      · rename_i different
        obtain ⟨⟨front, back⟩, found, equal⟩ := Option.map_eq_some_iff.1 h
        obtain ⟨rfl, rfl⟩ := by simpa using equal
        obtain ⟨joined, absent⟩ := ih found
        exact ⟨by rw [joined]; rfl, by simp [absent, Ne.symm different]⟩

/-- A split at the last occurrence puts the text together again. -/
theorem eq_append_of_cutLast? {cut : Char} {text before after : List Char}
    (h : cutLast? cut text = some (before, after)) :
    text = before ++ cut :: after ∧ cut ∉ after := by
  have absentOf : ∀ {list : List Char}, cutLast? cut list = none → cut ∉ list := by
    intro list none
    induction list with
    | nil => simp
    | cons char rest ih =>
        rw [cutLast?] at none
        split at none
        · simp at none
        · rename_i restNone
          split at none
          · simp at none
          · rename_i different
            simp [ih restNone, Ne.symm different]
  induction text generalizing before with
  | nil => simp [cutLast?] at h
  | cons char rest ih =>
      rw [cutLast?] at h
      split at h
      · rename_i front back found
        obtain ⟨rfl, rfl⟩ := by simpa using h
        obtain ⟨joined, absent⟩ := ih found
        exact ⟨by rw [joined]; rfl, absent⟩
      · rename_i restNone
        split at h
        · rename_i same
          obtain ⟨rfl, rfl⟩ := by simpa using h
          exact ⟨by rw [same]; rfl, absentOf restNone⟩
        · simp at h

end SpeechGrammar.Text
