import StockMarket.Net.Text

/-!
The numbers that a text is in its entirety.

`stoll` and `stod` read a number at the start of a text and ignore what follows it. What a
text says if nothing is to follow is a matter of its form: a sign, digits and, for a `double`,
a point and an exponent (`IsInt64`, `IsDouble`). Of such a text the functions read the number
it is (`stoll_of_isInt64`, `stod_of_isDouble`).
-/

namespace StockMarket

/-! ### The form of a number -/

/-- The value of some digits. -/
def numeral (base : Nat) (digits : List Char) : Nat :=
  digits.foldl (fun n c => n * base + (digitValue base c).getD 0) 0

def IsDigits (base : Nat) (digits : List Char) : Prop :=
  ∀ c ∈ digits, (digitValue base c).isSome

/-- A sign or none, and whether it is a minus. -/
inductive SignText : Bool → List Char → Prop where
  | none : SignText false []
  | plus : SignText false ['+']
  | minus : SignText true ['-']

/-- A number with its sign. -/
def withSign {α : Type} [Neg α] (negative : Bool) (n : α) : α :=
  if negative then -n else n

/-- An exponent or none, which is 0. -/
inductive ExponentText (mark : Char) : Int → List Char → Prop where
  | none : ExponentText mark 0 []
  | some {c : Char} {negative : Bool} {sign digits : List Char}
      (letter : c = mark ∨ c = mark.toUpper) (signed : SignText negative sign)
      (numbers : IsDigits 10 digits) (nonempty : digits ≠ []) :
      ExponentText mark (withSign negative (numeral 10 digits : Int)) (c :: (sign ++ digits))

/-- Digits with a point or none, and an exponent. -/
inductive MagnitudeText (base : Nat) (mark : Char) (exponentBase shift : Nat) :
    ℚ → List Char → Prop where
  | whole {digits exponent : List Char} {e : Int} (numbers : IsDigits base digits)
      (nonempty : digits ≠ []) (scaled : ExponentText mark e exponent) :
      MagnitudeText base mark exponentBase shift
        (scale exponentBase e (numeral base digits)) (digits ++ exponent)
  | point {front behind exponent : List Char} {e : Int} (numbers : IsDigits base (front ++ behind))
      (nonempty : front ++ behind ≠ []) (scaled : ExponentText mark e exponent) :
      MagnitudeText base mark exponentBase shift
        (scale exponentBase (e - (shift * behind.length : Nat)) (numeral base (front ++ behind)))
        (front ++ '.' :: (behind ++ exponent))

/-- A decimal number, or a hexadecimal one. -/
inductive NumberText : ℚ → List Char → Prop where
  | decimal {m : ℚ} {text : List Char} (number : MagnitudeText 10 'e' 10 1 m text) :
      NumberText m text
  | hex {m : ℚ} {x : Char} {text : List Char} (mark : x = 'x' ∨ x = 'X')
      (number : MagnitudeText 16 'p' 2 4 m text) : NumberText m ('0' :: x :: text)

/-- The text is a number of 64 bits, from its first character to its last. -/
def IsInt64 (text : String) (n : Int) : Prop :=
  ∃ negative sign digits, SignText negative sign ∧ IsDigits 10 digits ∧ digits ≠ [] ∧
    text.toList = sign ++ digits ∧ n = withSign negative (numeral 10 digits : Int) ∧
    -2 ^ 63 ≤ n ∧ n < 2 ^ 63

/-- The text is a number that a `double` holds exactly, from its first character to its last. -/
def IsDouble (text : String) (x : Double) : Prop :=
  ∃ negative sign body m, SignText negative sign ∧ NumberText m body ∧ Binary64.Exact m ∧
    text.toList = sign ++ body ∧ x = .finite (withSign negative m)

/-! ### Digits -/

section

variable {base exponentBase shift : Nat} {mark : Char} {digits sign body exponent : List Char}
  {negative : Bool} {e : Int} {m : ℚ} {text : String}

theorem digitValue_point : digitValue base '.' = none := rfl

/-- Digits are read up to what is none. -/
theorem readDigits_of_isDigits (numbers : IsDigits base digits) (rest : List Char)
    (ends : ∀ c ∈ rest.head?, digitValue base c = none) (value count : Nat) :
    readDigits base value count (digits ++ rest)
      = (digits.foldl (fun n c => n * base + (digitValue base c).getD 0) value,
        count + digits.length, rest) := by
  induction digits generalizing value count with
  | nil =>
      cases rest with
      | nil => rfl
      | cons c cs =>
          rw [List.nil_append, readDigits, ends c rfl]
          rfl
  | cons c cs ih =>
      obtain ⟨first, later⟩ := List.forall_mem_cons.mp numbers
      obtain ⟨d, digit⟩ := Option.isSome_iff_exists.mp first
      rw [List.cons_append, readDigits, digit]
      simp only
      rw [ih later, List.foldl_cons, digit, Option.getD_some, List.length_cons, Nat.add_assoc,
        Nat.add_comm 1]

theorem readDigits_all (numbers : IsDigits base digits) :
    readDigits base 0 0 digits = (numeral base digits, digits.length, []) := by
  have read := readDigits_of_isDigits numbers [] (fun _ none => by simp at none) 0 0
  rw [List.append_nil, Nat.zero_add] at read
  exact read

theorem toNat_of_digit {c : Char} (digit : (digitValue 10 c).isSome) :
    48 ≤ c.toNat ∧ c.toNat ≤ 57 := by
  unfold digitValue at digit
  simp only at digit
  split at digit
  · assumption
  · split at digit
    · simp [Option.filter] at digit
      omega
    · split at digit
      · simp [Option.filter] at digit
        omega
      · cases digit

/-- Only letters have a lower case. -/
theorem toLower_of_toNat_le {c : Char} (small : c.toNat ≤ 57) : c.toLower = c := by
  unfold Char.toLower
  refine dif_neg fun upper => ?_
  have least : 65 ≤ c.toNat := UInt32.le_iff_toNat_le.mp upper.1
  omega

/-! ### What the functions read -/

theorem readSign_of_signText (signed : SignText negative sign)
    (solid : ∀ c ∈ body.head?, c ≠ '-' ∧ c ≠ '+') : readSign (sign ++ body) = (negative, body) := by
  cases signed with
  | none =>
      cases body with
      | nil => rfl
      | cons c cs =>
          obtain ⟨minus, plus⟩ := solid c rfl
          rw [List.nil_append, readSign, if_neg minus, if_neg plus]
  | plus => rfl
  | minus => rfl

/-- A letter that marks an exponent is no digit. -/
structure Marks (base : Nat) (mark : Char) : Prop where
  lower : mark.toLower = mark ∧ mark.toUpper.toLower = mark
  noDigit : digitValue base mark = none ∧ digitValue base mark.toUpper = none
  noPoint : mark ≠ '.' ∧ mark.toUpper ≠ '.'

theorem marks_e : Marks 10 'e' := by constructor <;> decide
theorem marks_p : Marks 16 'p' := by constructor <;> decide

/-- No sign is at the start of digits. -/
theorem solid_of_isDigits (numbers : IsDigits 10 digits) :
    ∀ c ∈ digits.head?, c ≠ '-' ∧ c ≠ '+' := by
  intro c first
  have least := (toNat_of_digit (numbers c (List.mem_of_mem_head? first))).1
  constructor
  · rintro rfl
    simp at least
  · rintro rfl
    simp at least

theorem readExponent_of_exponentText (marks : Marks base mark)
    (scaled : ExponentText mark e exponent) : readExponent mark exponent = e := by
  cases scaled with
  | none => rfl
  | @some c negative sign digits letter signed numbers nonempty =>
      have lower : c.toLower = mark := by
        rcases letter with rfl | rfl
        · exact marks.lower.1
        · exact marks.lower.2
      rw [readExponent, if_pos lower]
      rw [readSign_of_signText signed (solid_of_isDigits numbers)]
      simp only [readDigits_all numbers]
      rfl

/-- Where an exponent starts, digits end. -/
theorem ends_of_exponentText (marks : Marks base mark) (scaled : ExponentText mark e exponent) :
    ∀ c ∈ exponent.head?, digitValue base c = none ∧ c ≠ '.' := by
  intro c first
  cases scaled with
  | none => cases first
  | some letter =>
      obtain rfl := Option.some.inj first
      rcases letter with rfl | rfl
      · exact ⟨marks.noDigit.1, marks.noPoint.1⟩
      · exact ⟨marks.noDigit.2, marks.noPoint.2⟩

/-- **A magnitude is read** to its end. -/
theorem readMagnitude_of_magnitudeText (marks : Marks base mark)
    (number : MagnitudeText base mark exponentBase shift m body) :
    readMagnitude base mark exponentBase shift body = some m := by
  cases number with
  | @whole digits exponent e numbers nonempty scaled =>
      have ends := ends_of_exponentText marks scaled
      have read := readDigits_of_isDigits numbers exponent (fun c first => (ends c first).1) 0 0
      have some : 0 + digits.length + 0 ≠ 0 := by simpa using nonempty
      have value := readExponent_of_exponentText marks scaled
      unfold readMagnitude
      rw [read]
      cases exponent with
      | nil =>
          simp only [some, if_false, value]
          simp [numeral]
      | cons c cs =>
          simp only [(ends c rfl).2, if_false, some, value]
          simp [numeral]
  | @point front behind exponent e numbers nonempty scaled =>
      obtain ⟨before, after⟩ := List.forall_mem_append.mp numbers
      have ends := ends_of_exponentText marks scaled
      have read := readDigits_of_isDigits before ('.' :: (behind ++ exponent))
        (fun c first => by
          obtain rfl := Option.some.inj first
          exact digitValue_point) 0 0
      have read' := readDigits_of_isDigits after exponent (fun c first => (ends c first).1)
        (front.foldl (fun n c => n * base + (digitValue base c).getD 0) 0) 0
      have some : 0 + front.length + (0 + behind.length) ≠ 0 := by simpa using nonempty
      unfold readMagnitude
      rw [read]
      simp only [if_true, read', if_neg some, readExponent_of_exponentText marks scaled]
      simp [numeral]

theorem eq_of_signText (signed : SignText negative sign) : ∀ c ∈ sign, c = '+' ∨ c = '-' := by
  cases signed <;> simp

/-- In a decimal number only the marks of exponents are letters. -/
theorem toNat_le_of_magnitudeText (number : MagnitudeText 10 'e' exponentBase shift m body) :
    ∀ c ∈ body, c.toNat ≤ 57 ∨ c = 'e' ∨ c = 'E' := by
  have digits : ∀ {cs}, IsDigits 10 cs → ∀ c ∈ cs, c.toNat ≤ 57 ∨ c = 'e' ∨ c = 'E' :=
    fun numbers c mem => .inl (toNat_of_digit (numbers c mem)).2
  have exponents : ∀ {e exponent}, ExponentText 'e' e exponent →
      ∀ c ∈ exponent, c.toNat ≤ 57 ∨ c = 'e' ∨ c = 'E' := by
    rintro e exponent scaled
    cases scaled with
    | none => exact fun _ mem => absurd mem List.not_mem_nil
    | some letter signed numbers nonempty =>
        refine List.forall_mem_cons.mpr ⟨.inr letter, List.forall_mem_append.mpr
          ⟨fun c mem => .inl ?_, digits numbers⟩⟩
        rcases eq_of_signText signed c mem with rfl | rfl <;> simp
  cases number with
  | whole numbers nonempty scaled =>
      exact List.forall_mem_append.mpr ⟨digits numbers, exponents scaled⟩
  | point numbers nonempty scaled =>
      obtain ⟨before, after⟩ := List.forall_mem_append.mp numbers
      exact List.forall_mem_append.mpr ⟨digits before, List.forall_mem_cons.mpr
        ⟨.inl (by simp), List.forall_mem_append.mpr ⟨digits after, exponents scaled⟩⟩⟩

/-- A number starts with a digit or with a point. -/
theorem head_of_numberText (number : NumberText m body) :
    ∃ c cs, body = c :: cs ∧ 46 ≤ c.toNat ∧ c.toNat ≤ 57 := by
  have digit : ∀ {c : Char}, (digitValue 10 c).isSome → 46 ≤ c.toNat ∧ c.toNat ≤ 57 := by
    intro c digit
    have bounds := toNat_of_digit digit
    omega
  cases number with
  | decimal number =>
      cases number with
      | @whole digits exponent e numbers nonempty scaled =>
          obtain ⟨c, cs, rfl⟩ := List.exists_cons_of_ne_nil nonempty
          exact ⟨c, cs ++ exponent, rfl, digit (numbers c List.mem_cons_self)⟩
      | @point front behind exponent e numbers nonempty scaled =>
          cases front with
          | nil => exact ⟨'.', _, rfl, by simp⟩
          | cons c cs => exact ⟨c, _, rfl, digit (numbers c List.mem_cons_self)⟩
  | hex mark number => exact ⟨'0', _, rfl, by simp⟩

/-- **A number is read** to its end. -/
theorem readNumber_of_numberText (number : NumberText m body) (exact : Binary64.Exact m) :
    readNumber body = some (.finite m) := by
  have read : readDecimalOrHex body = some m := by
    cases number with
    | decimal number =>
        have decimal := readMagnitude_of_magnitudeText marks_e number
        unfold readDecimalOrHex
        split
        · rename_i c x hex
          have second : x.toLower ≠ 'x' := by
            rcases toNat_le_of_magnitudeText number x (by simp) with small | rfl | rfl
            · rw [toLower_of_toNat_le small]
              rintro rfl
              simp at small
            · decide
            · decide
          rw [if_neg fun both => second both.2]
          exact decimal
        · exact decimal
    | @hex x text mark number =>
        have hex := readMagnitude_of_magnitudeText marks_p number
        have lower : x.toLower = 'x' := by
          rcases mark with rfl | rfl <;> rfl
        unfold readDecimalOrHex
        simp only [lower, and_self, if_true, hex]
        rfl
  obtain ⟨c, cs, rfl, -, small⟩ := head_of_numberText number
  have lower := toLower_of_toNat_le small
  have inf : startsWith "inf" (c :: cs) = false := by
    have i : 'i' ≠ c := by
      rintro rfl
      simp at small
    simp [startsWith, List.isPrefixOf, lower, i]
  have nan : startsWith "nan" (c :: cs) = false := by
    have n : 'n' ≠ c := by
      rintro rfl
      simp at small
    simp [startsWith, List.isPrefixOf, lower, n]
  have ranged : inRange m := ⟨lt_of_abs_lt exact.1, .inl exact.2⟩
  rw [readNumber, inf, nan, if_neg (by simp), if_neg (by simp), read, Option.bind_some,
    if_pos ranged, Double.ofRat_of_exact exact]

/-- A number has no white space in front of it. -/
theorem signedBody_of_signText (signed : SignText negative sign)
    (first : ∃ c cs, body = c :: cs ∧ 46 ≤ c.toNat ∧ c.toNat ≤ 57)
    (whole : text.toList = sign ++ body) : signedBody text = (negative, body) := by
  obtain ⟨c, cs, rfl, least, -⟩ := first
  have solid : isSpace c = false := by
    simp only [isSpace, Bool.or_eq_false_iff, Bool.and_eq_false_iff, decide_eq_false_iff_not]
    omega
  have kept : text.toList.dropWhile isSpace = sign ++ c :: cs := by
    rw [whole]
    cases signed with
    | none => exact List.dropWhile_cons_of_neg (by simp [solid])
    | plus => rfl
    | minus => rfl
  rw [signedBody, kept]
  refine readSign_of_signText signed fun c' here => ?_
  obtain rfl := Option.some.inj here
  constructor
  · rintro rfl
    simp at least
  · rintro rfl
    simp at least

/-- **`std::stod`** reads a number that is all of the text. -/
theorem stod_of_isDouble {x : Double} (number : IsDouble text x) : stod text = some x := by
  obtain ⟨negative, sign, body, m, signed, number, exact, whole, rfl⟩ := number
  have split := signedBody_of_signText signed (head_of_numberText number) whole
  rw [stod, split]
  simp only [readNumber_of_numberText number exact, Option.map_some]
  cases negative <;> rfl

theorem isDouble_unique {x y : Double} (number : IsDouble text x) (number' : IsDouble text y) :
    x = y :=
  Option.some.inj ((stod_of_isDouble number).symm.trans (stod_of_isDouble number'))

/-- **`std::stoll`** reads a number that is all of the text. -/
theorem stoll_of_isInt64 {n : Int} (number : IsInt64 text n) : stoll text = some n := by
  obtain ⟨negative, sign, digits, signed, numbers, nonempty, whole, rfl, least, most⟩ := number
  have first : ∃ c cs, digits = c :: cs ∧ 46 ≤ c.toNat ∧ c.toNat ≤ 57 := by
    obtain ⟨c, cs, rfl⟩ := List.exists_cons_of_ne_nil nonempty
    have bounds := toNat_of_digit (numbers c List.mem_cons_self)
    exact ⟨c, cs, rfl, by omega, bounds.2⟩
  have split := signedBody_of_signText signed first whole
  have some : digits.length ≠ 0 := by simpa using nonempty
  rw [stoll, split]
  simp only [readDigits_all numbers, if_neg some]
  have fits : ¬((if negative then -(numeral 10 digits : Int) else (numeral 10 digits : Int))
        < -2 ^ 63 ∨
      2 ^ 63 ≤ (if negative then -(numeral 10 digits : Int) else (numeral 10 digits : Int))) :=
    not_or.mpr ⟨not_lt.mpr least, not_le.mpr most⟩
  rw [if_neg fits]
  rfl

/-- The characters of an integer are its sign and digits. -/
theorem toNat_of_isInt64 {n : Int} (number : IsInt64 text n) :
    ∀ c ∈ text.toList, c = '+' ∨ c = '-' ∨ 48 ≤ c.toNat ∧ c.toNat ≤ 57 := by
  obtain ⟨negative, sign, digits, signed, numbers, -, whole, -⟩ := number
  rw [whole]
  refine List.forall_mem_append.mpr ⟨fun c mem => ?_,
    fun c mem => .inr (.inr (toNat_of_digit (numbers c mem)))⟩
  exact (eq_of_signText signed c mem).imp_right .inl

end

end StockMarket
