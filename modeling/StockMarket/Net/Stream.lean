import StockMarket.Net.Text

/-!
Lines of text, written with `<<` and read back with `getline` and `>>`.

A line is a tag and some fields with a blank before each (`writeLine`). An
extraction skips white space and reads the longest prefix it can; once one has
failed, so do all that follow, and their variables keep the values they had
(`extract`). Integers are read without the bound of their type, as everywhere.

A field is read back if its text is a word that the extraction ends exactly at the
end of (`Reads`); then fields are extracted one after the other (`extract_field`).
-/

namespace StockMarket

/-! ### Words -/

/-- A text that `>>` reads as a whole: not empty, and without white space. -/
structure IsWord (text : String) : Prop where
  nonempty : text.toList ≠ []
  solid : ∀ c ∈ text.toList, isSpace c = false

instance (text : String) : Decidable (IsWord text) :=
  decidable_of_iff (text.toList ≠ [] ∧ text.toList.all (fun c => isSpace c = false) = true)
    ⟨fun h => ⟨h.1, by simpa using h.2⟩, fun h => ⟨h.nonempty, by simpa using h.solid⟩⟩

/-! ### Reading -/

/-- A text stream: what is left to read, or `none` after an extraction has failed. -/
abbrev InStream := Option (List Char)

/-- `stream >> variable`, where the variable has the value `old`. Without anything left
it keeps that value, and it gets `failed` from a text that cannot be read. -/
def extract {α : Type} (failed : α) (read : List Char → Option (α × List Char)) (old : α) :
    InStream → α × InStream
  | none => (old, none)
  | some text =>
    match text.dropWhile isSpace with
    | [] => (old, none)
    | c :: cs =>
      match read (c :: cs) with
      | none => (failed, none)
      | some (value, rest) => (value, some rest)

/-- The characters up to the next white space. -/
def readWord (text : List Char) : Option (String × List Char) :=
  some (String.ofList (text.takeWhile fun c => !isSpace c), text.dropWhile fun c => !isSpace c)

/-- A decimal integer. -/
def readInt (text : List Char) : Option (Int × List Char) :=
  let (negative, body) := readSign text
  let (value, count, rest) := readDigits 10 0 0 body
  if count = 0 then none else some (if negative then -value else value, rest)

/-- `stream >> word`. -/
def extractWord : String → InStream → String × InStream :=
  extract "" readWord

/-- `stream >> n`. -/
def extractInt : Int → InStream → Int × InStream :=
  extract 0 readInt

/-- The lines of a text, if `line` was read of the first one. -/
def linesFrom (line : List Char) : List Char → List (List Char)
  | [] => if line = [] then [] else [line]
  | c :: cs => if c = '\n' then line :: linesFrom [] cs else linesFrom (line ++ [c]) cs

/-- The lines that `getline` gives. -/
def lines (text : List Char) : List (List Char) :=
  linesFrom [] text

/-! ### Writing -/

/-- `<< " " << field` for each field. -/
def writeFields (fields : List String) : List Char :=
  fields.flatMap fun field => ' ' :: field.toList

/-- A line without its end. -/
def writeLine (tag : String) (fields : List String) : List Char :=
  tag.toList ++ writeFields fields

/-- The text of several lines. -/
def writeLines (lines : List (List Char)) : List Char :=
  lines.flatMap fun line => line ++ ['\n']

/-! ### What is written is read back -/

/-- The extraction reads the text, up to the next blank or the end of the line, as the
value. -/
structure Reads {α : Type} (read : List Char → Option (α × List Char)) (text : String) (value : α) :
    Prop where
  word : IsWord text
  reads : ∀ fields, read (text.toList ++ writeFields fields) = some (value, writeFields fields)

theorem dropWhile_isSpace_word {text : String} (word : IsWord text) (rest : List Char) :
    (text.toList ++ rest).dropWhile isSpace = text.toList ++ rest := by
  have solid := word.solid
  cases chars : text.toList with
  | nil => exact absurd chars word.nonempty
  | cons c cs =>
      have head : isSpace c = false := solid c (by rw [chars]; exact List.mem_cons_self)
      rw [List.cons_append, List.dropWhile_cons_of_neg (by rw [head]; simp)]

/-- A field at the start of what is left. -/
theorem extract_start {α : Type} {failed old value : α}
    {read : List Char → Option (α × List Char)} {text : String} (reads : Reads read text value)
    (fields : List String) :
    extract failed read old (some (text.toList ++ writeFields fields))
      = (value, some (writeFields fields)) := by
  have whole := dropWhile_isSpace_word reads.word (writeFields fields)
  have value := reads.reads fields
  unfold extract
  cases start : text.toList ++ writeFields fields with
  | nil => exact absurd (List.append_eq_nil_iff.mp start).1 reads.word.nonempty
  | cons c cs =>
      rw [start] at whole value
      simp only [whole, value]

/-- **A field is extracted** and leaves the fields after it. -/
theorem extract_field {α : Type} {failed old value : α}
    {read : List Char → Option (α × List Char)} {text : String} (reads : Reads read text value)
    (fields : List String) :
    extract failed read old (some (writeFields (text :: fields)))
      = (value, some (writeFields fields)) := by
  have blank : isSpace ' ' = true := by decide
  have split : writeFields (text :: fields) = ' ' :: (text.toList ++ writeFields fields) := rfl
  have start : extract failed read old (some (text.toList ++ writeFields fields))
      = (value, some (writeFields fields)) := extract_start reads fields
  rw [← start, split]
  simp only [extract, List.dropWhile_cons_of_pos blank]

/-- The text after a word starts with a blank. -/
theorem span_word {text : String} (word : IsWord text) (fields : List String) :
    ((text.toList ++ writeFields fields).takeWhile fun c => !isSpace c) = text.toList ∧
      ((text.toList ++ writeFields fields).dropWhile fun c => !isSpace c)
        = writeFields fields := by
  have all : ∀ c ∈ text.toList, (!isSpace c) = true := fun c mem => by
    rw [word.solid c mem]
    rfl
  rw [List.takeWhile_append_of_pos all, List.dropWhile_append_of_pos all]
  cases fields with
  | nil => exact ⟨List.append_nil _, rfl⟩
  | cons field fields =>
      have split : writeFields (field :: fields) = ' ' ::
        (field.toList ++ writeFields fields) := rfl
      have blank : isSpace ' ' = true := by decide
      rw [split]
      simp [blank]

theorem reads_word {text : String} (word : IsWord text) : Reads readWord text text where
  word := word
  reads := fun fields => by
    obtain ⟨front, back⟩ := span_word word fields
    rw [readWord, front, back, String.ofList_toList]

/-! ### Integers -/

theorem toNat_of_isDigit {c : Char} (digit : c.isDigit) : 48 ≤ c.toNat ∧ c.toNat ≤ 57 :=
  Char.isDigit_iff_toNat.mp digit

theorem digitValue_of_isDigit {c : Char} (digit : c.isDigit) :
    digitValue 10 c = some (c.toNat - '0'.toNat) := by
  obtain ⟨least, most⟩ := toNat_of_isDigit digit
  have small : decide (c.toNat - 48 < 10) = true := decide_eq_true (by omega)
  have value : digitValue 10 c = (some (c.toNat - 48)).filter (· < 10) := by
    unfold digitValue
    simp only [least, most, and_self, if_true]
  rw [value, Option.filter_some, small]
  rfl

/-- What comes after a field is no digit. -/
theorem ends_writeFields (fields : List String) :
    ∀ c ∈ (writeFields fields).head?, digitValue 10 c = none := by
  cases fields with
  | nil => exact fun _ none => by cases none
  | cons field fields => exact fun _ blank => Option.some.inj blank ▸ rfl

/-- Digits are read up to the first character that is none. -/
theorem readDigits_append {digits rest : List Char} (all : ∀ c ∈ digits, c.isDigit)
    (ends : ∀ c ∈ rest.head?, digitValue 10 c = none) (value count : Nat) :
    readDigits 10 value count (digits ++ rest)
      = (Nat.ofDigitChars 10 digits value, count + digits.length, rest) := by
  induction digits generalizing value count with
  | nil =>
      cases rest with
      | nil => rfl
      | cons c rest =>
          rw [List.nil_append, readDigits, ends c rfl]
          rfl
  | cons c cs ih =>
      have digit := digitValue_of_isDigit (all c List.mem_cons_self)
      rw [List.cons_append, readDigits, digit]
      simp only
      rw [ih fun c' mem => all c' (List.mem_cons_of_mem _ mem), Nat.ofDigitChars_cons,
        Nat.mul_comm value, List.length_cons, Nat.add_assoc, Nat.add_comm 1]

theorem isSpace_of_isDigit {c : Char} (digit : c.isDigit) : isSpace c = false := by
  obtain ⟨least, most⟩ := toNat_of_isDigit digit
  unfold isSpace
  rw [Bool.or_eq_false_iff, Bool.and_eq_false_iff, decide_eq_false_iff_not,
    decide_eq_false_iff_not, decide_eq_false_iff_not]
  exact ⟨by omega, Or.inr (by omega)⟩

theorem readSign_digits {digits : List Char} (all : ∀ c ∈ digits, c.isDigit)
    (some : digits ≠ []) (rest : List Char) :
    readSign (digits ++ rest) = (false, digits ++ rest) := by
  cases digits with
  | nil => exact absurd rfl some
  | cons c cs =>
      have digit := all c List.mem_cons_self
      have minus : c ≠ '-' := by rintro rfl; exact absurd digit (by decide)
      have plus : c ≠ '+' := by rintro rfl; exact absurd digit (by decide)
      rw [List.cons_append, readSign, if_neg minus, if_neg plus]

theorem isDigit_of_mem_toString {n : Nat} : ∀ c ∈ (toString n).toList, c.isDigit := by
  intro c mem
  rw [Nat.toString_eq_ofList_toDigits, String.toList_ofList] at mem
  exact Nat.isDigit_of_mem_toDigits (by decide) (by decide) mem

theorem toString_ne_nil (n : Nat) : (toString n).toList ≠ [] := by
  rw [Nat.toString_eq_ofList_toDigits, String.toList_ofList]
  exact Nat.toDigits_ne_nil

/-- The digits of a number are read as the number. -/
theorem readDigits_toString (n : Nat) {rest : List Char}
    (ends : ∀ c ∈ rest.head?, digitValue 10 c = none) :
    readDigits 10 0 0 ((toString n).toList ++ rest)
      = (n, (toString n).toList.length, rest) := by
  have value : Nat.ofDigitChars 10 (toString n).toList 0 = n := by
    rw [Nat.toString_eq_ofList_toDigits, String.toList_ofList]
    exact Nat.ofDigitChars_toDigits (by decide) (by decide)
  rw [readDigits_append isDigit_of_mem_toString ends, value, Nat.zero_add]

theorem toList_toString_negSucc (n : Nat) :
    (toString (Int.negSucc n)).toList = '-' :: (toString (n + 1)).toList :=
  String.toList_append

/-- **An integer is read back.** -/
theorem reads_int (n : Int) : Reads readInt (toString n) n := by
  cases n with
  | ofNat n =>
      have text : (toString (Int.ofNat n)).toList = (toString n).toList := rfl
      have count := mt List.length_eq_zero_iff.mp (toString_ne_nil n)
      refine ⟨⟨?_, fun c mem => ?_⟩, fun fields => ?_⟩
      · exact toString_ne_nil n
      · exact isSpace_of_isDigit (isDigit_of_mem_toString c mem)
      · rw [text, readInt, readSign_digits isDigit_of_mem_toString (toString_ne_nil n)]
        simp only [readDigits_toString _ (ends_writeFields fields), if_neg count]
        rfl
  | negSucc n =>
      have count := mt List.length_eq_zero_iff.mp (toString_ne_nil (n + 1))
      refine ⟨⟨?_, fun c mem => ?_⟩, fun fields => ?_⟩
      · rw [toList_toString_negSucc]
        exact List.cons_ne_nil _ _
      · rw [toList_toString_negSucc] at mem
        rcases List.mem_cons.mp mem with rfl | mem
        · decide
        · exact isSpace_of_isDigit (isDigit_of_mem_toString c mem)
      · rw [toList_toString_negSucc, readInt, List.cons_append, readSign, if_pos rfl]
        simp only [readDigits_toString _ (ends_writeFields fields), if_neg count]
        rfl

/-! ### Lines -/

theorem linesFrom_append {line : List Char} (single : ∀ c ∈ line, c ≠ '\n') (start : List Char)
    (rest : List Char) :
    linesFrom start (line ++ '\n' :: rest) = (start ++ line) :: linesFrom [] rest := by
  induction line generalizing start with
  | nil => rw [List.nil_append, linesFrom, if_pos rfl, List.append_nil]
  | cons c cs ih =>
      rw [List.cons_append, linesFrom, if_neg (single c List.mem_cons_self),
        ih (fun c' mem => single c' (List.mem_cons_of_mem _ mem)), List.append_assoc]
      rfl

/-- **The lines of a text are those that were written.** -/
theorem lines_writeLines {written : List (List Char)}
    (single : ∀ line ∈ written, ∀ c ∈ line, c ≠ '\n') : lines (writeLines written) = written := by
  induction written with
  | nil => rfl
  | cons line written ih =>
      have split : writeLines (line :: written) = line ++ '\n' :: writeLines written := by
        rw [writeLines, List.flatMap_cons, List.append_assoc]
        rfl
      rw [split, lines, linesFrom_append (single line List.mem_cons_self), List.nil_append]
      exact congrArg (line :: ·) (ih fun l mem => single l (List.mem_cons_of_mem _ mem))

theorem ne_newline_of_isWord {text : String} (word : IsWord text) : ∀ c ∈ text.toList, c ≠ '\n' := by
  rintro c mem rfl
  exact absurd (word.solid _ mem) (by decide)

/-- A line of words has no line end in it. -/
theorem single_writeLine {tag : String} {fields : List String} (word : IsWord tag)
    (words : ∀ field ∈ fields, IsWord field) : ∀ c ∈ writeLine tag fields, c ≠ '\n' := by
  intro c mem
  rcases List.mem_append.mp mem with mem | mem
  · exact ne_newline_of_isWord word c mem
  · obtain ⟨field, known, mem⟩ := List.mem_flatMap.mp mem
    rcases List.mem_cons.mp mem with rfl | mem
    · decide
    · exact ne_newline_of_isWord (words field known) c mem

end StockMarket
