import StockMarket.Lib.Table
import StockMarket.Double

/-!
Reading the text of a command: white space, `KEY=VALUE` tokens and numbers.

`stoll`, `stoull` and `stod` read as the C++ functions of these names do: they
skip white space, take the longest prefix that is a number and ignore what
follows it, and fail (`none`) where the C++ function throws `invalid_argument` or
`out_of_range`.
-/

namespace StockMarket

/-! ### Tokens -/

/-- `std::isspace` in the C locale. -/
def isSpace (c : Char) : Bool :=
  c.toNat = 32 || (9 ≤ c.toNat && c.toNat ≤ 13)

/-- The tokens of a text, if `token` was read of the first one. -/
def splitFrom (token : List Char) : List Char → List String
  | [] => if token = [] then [] else [String.ofList token]
  | c :: cs =>
    if isSpace c then
      if token = [] then splitFrom [] cs else String.ofList token :: splitFrom [] cs
    else splitFrom (token ++ [c]) cs

/-- `split`: the tokens between white space. -/
def split (line : String) : List String :=
  splitFrom [] line.toList

/-- The text before and after the first `=`. -/
def cutAtEquals : List Char → Option (List Char × List Char)
  | [] => none
  | c :: cs =>
    if c = '=' then some ([], cs)
    else (cutAtEquals cs).map fun (key, value) => (c :: key, value)

/-- `parse_kv`: a token without `=` is ignored, a key that comes again has its last
value. -/
def parseKv (tokens : List String) : Table String String :=
  tokens.foldl
    (fun kv token =>
      match cutAtEquals token.toList with
      | none => kv
      | some (key, value) => kv.insert (String.ofList key) (String.ofList value)) ∅

/-! ### Integers -/

/-- The value of a digit in the given base. -/
def digitValue (base : Nat) (c : Char) : Option Nat :=
  let n := c.toNat
  let value :=
    if 48 ≤ n ∧ n ≤ 57 then some (n - 48)
    else if 97 ≤ n ∧ n ≤ 102 then some (n - 87)
    else if 65 ≤ n ∧ n ≤ 70 then some (n - 55)
    else none
  value.filter (· < base)

/-- Read digits: the value and the number of the digits so far, and the rest of the
text. -/
def readDigits (base : Nat) (value count : Nat) : List Char → Nat × Nat × List Char
  | [] => (value, count, [])
  | c :: cs =>
    match digitValue base c with
    | none => (value, count, c :: cs)
    | some d => readDigits base (value * base + d) (count + 1) cs

/-- Read a sign, and say whether it is a minus. -/
def readSign : List Char → Bool × List Char
  | [] => (false, [])
  | c :: cs => if c = '-' then (true, cs) else if c = '+' then (false, cs) else (false, c :: cs)

/-- The sign of a number and what comes after it. -/
def signedBody (text : String) : Bool × List Char :=
  readSign (text.toList.dropWhile isSpace)

/-- `std::stoll`. -/
def stoll (text : String) : Option Int :=
  let (negative, body) := signedBody text
  let (value, count, _) := readDigits 10 0 0 body
  let n : Int := if negative then -value else value
  if count = 0 then none
  else if n < -2 ^ 63 ∨ 2 ^ 63 ≤ n then none
  else some n

/-- `std::stoull`: a negative number is taken modulo `2 ^ 64`. -/
def stoull (text : String) : Option Nat :=
  let (negative, body) := signedBody text
  let (value, count, _) := readDigits 10 0 0 body
  if count = 0 then none
  else if 2 ^ 64 ≤ value then none
  else some (if negative then (2 ^ 64 - value) % 2 ^ 64 else value)

/-! ### Floating-point numbers -/

/-- Does the text start with the word, in any case? -/
def startsWith (word : String) (text : List Char) : Bool :=
  word.toList.isPrefixOf (text.map Char.toLower)

/-- Read an exponent, `0` if there is none. -/
def readExponent (mark : Char) : List Char → Int
  | [] => 0
  | c :: cs =>
    if c.toLower = mark then
      let (negative, digits) := readSign cs
      let (value, _, _) := readDigits 10 0 0 digits
      if negative then -value else value
    else 0

/-- `m * base ^ exponent`. -/
def scale (base : Nat) (exponent : Int) (m : ℚ) : ℚ :=
  if 0 ≤ exponent then m * (base ^ exponent.toNat : Nat) else m / (base ^ (-exponent).toNat : Nat)

/-- Read digits with a point and an exponent. A digit behind the point counts for
`shift` steps of the exponent. -/
def readMagnitude (base : Nat) (mark : Char) (exponentBase shift : Nat) (text : List Char) :
    Option ℚ :=
  let (whole, before, rest) := readDigits base 0 0 text
  let (mantissa, behind, rest) :=
    match rest with
    | [] => (whole, 0, [])
    | c :: cs => if c = '.' then readDigits base whole 0 cs else (whole, 0, rest)
  if before + behind = 0 then none
  else some (scale exponentBase (readExponent mark rest - (shift * behind : Nat)) mantissa)

/-- A decimal number, or a hexadecimal one with its `0x`. -/
def readDecimalOrHex (text : List Char) : Option ℚ :=
  let decimal := readMagnitude 10 'e' 10 1 text
  match text with
  | c :: x :: hex =>
    if c = '0' ∧ x.toLower = 'x' then (readMagnitude 16 'p' 2 4 hex).or decimal else decimal
  | _ => decimal

/-- The magnitude does not overflow, and it is not so small that a `double` has less than 53
digits for it and loses some of them. -/
def inRange (q : ℚ) : Prop :=
  q < Binary64.overflow ∧ (Binary64.round q = q ∨
    Binary64.pow2 (-1022) ≤ Binary64.roundTo (Binary64.lastDigit q) q)

instance (q : ℚ) : Decidable (inRange q) :=
  inferInstanceAs (Decidable (_ ∧ _))

/-- Read a number without its sign. -/
def readNumber (text : List Char) : Option Double :=
  if startsWith "inf" text then some .posInf
  else if startsWith "nan" text then some .nan
  else (readDecimalOrHex text).bind fun q => if inRange q then some (.ofRat q) else none

/-- `std::stod`. -/
def stod (text : String) : Option Double :=
  let (negative, body) := signedBody text
  (readNumber body).map fun x => if negative then x.neg else x

example : stod "-1.5e2x" = some (.finite (-150)) := by decide +kernel
example : stod "9007199254740993" = some (.finite 9007199254740992) := by decide +kernel
example : stod "0x1p-1030" = some (.finite (1 / 2 ^ 1030)) := by decide +kernel

end StockMarket
