import StockMarket.Sql.Request

/-!
When an exception leaves `handle_client`.

A field of a date or a time is readable if it begins with a number (`FieldReadable`), and a
validity if all fields of what is given of it are (`ValidityReadable`): a time down to the
millisecond, so that one written `HH:MM:SS` is not. Such an order line stops the server, and
so does a display of something that the conversions reject (`Received.Stops`,
`returns_handleClient_iff`). Fields are cut out of the bytes of a message, which need not be
characters.
-/

namespace StockMarket.Sql

open Client Database

/-! ### Results -/

section

variable {ε α β : Type}

/-- There is no exception. -/
def Returns (x : Except ε α) : Prop := ∃ a, x = .ok a

@[simp] theorem returns_ok (a : α) : Returns (.ok a : Except ε α) := ⟨a, rfl⟩

@[simp] theorem returns_pure (a : α) : Returns (pure a : Except ε α) := ⟨a, rfl⟩

@[simp] theorem not_returns_error (e : ε) : ¬Returns (.error e : Except ε α) := by
  rintro ⟨a, eq⟩
  cases eq

theorem not_returns_iff {x : Except ε α} : ¬Returns x ↔ ∃ e, x = .error e := by
  cases x <;> simp

/-- If what comes after returns or not whatever the value is, both have to return. -/
theorem returns_bind_iff {x : Except ε α} {f : α → Except ε β} {P : Prop}
    (later : ∀ a, Returns (f a) ↔ P) : Returns (x >>= f) ↔ Returns x ∧ P := by
  cases x with
  | error e => simp [bind, Except.bind]
  | ok a => simp [bind, Except.bind, later]

/-- What comes after does not matter if it always returns. -/
theorem returns_bind_of {x : Except ε α} {f : α → Except ε β} (later : ∀ a, Returns (f a)) :
    Returns (x >>= f) ↔ Returns x :=
  (returns_bind_iff fun a => iff_true_intro (later a)).trans (and_iff_left trivial)

theorem returns_discard_iff {x : Except ε α} : Returns (discard x) ↔ Returns x := by
  cases x <;> simp [discard, Functor.mapConst, Except.map]

theorem returns_mapM_iff {f : α → Except ε β} : ∀ {xs : List α},
    Returns (xs.mapM f) ↔ ∀ x ∈ xs, Returns (f x)
  | [] => by simp
  | x :: xs => by
      rw [List.mapM_cons, List.forall_mem_cons, ← returns_mapM_iff]
      exact returns_bind_iff fun y => returns_bind_of fun ys => returns_pure (y :: ys)

end

/-! ### Numbers -/

theorem isDigit_of_digitValue {c : Char} {d : Nat} (value : digitValue 10 c = some d) :
    c.isDigit := by
  rw [Char.isDigit_iff_toNat]
  unfold digitValue at value
  simp only at value
  split at value
  · assumption
  · split at value
    · simp [Option.filter] at value
      omega
    · split at value
      · simp [Option.filter] at value
        omega
      · cases value

theorem le_count_readDigits : ∀ (value count : Nat) (cs : List Char),
    count ≤ (readDigits 10 value count cs).2.1
  | value, count, [] => le_rfl
  | value, count, c :: cs => by
      rw [readDigits]
      split
      · exact le_rfl
      · exact le_trans (Nat.le_succ count) (le_count_readDigits _ _ cs)

/-- A number has a digit first. -/
theorem count_readDigits_eq_zero_iff (cs : List Char) :
    (readDigits 10 0 0 cs).2.1 = 0 ↔ ¬cs.head?.any Char.isDigit := by
  cases cs with
  | nil => simp [readDigits]
  | cons c cs =>
      rw [readDigits]
      cases digit : digitValue 10 c with
      | none =>
          have other : c.isDigit = false := by
            by_contra isDigit
            rw [digitValue_of_isDigit (by simpa using isDigit)] at digit
            cases digit
          simp [other]
      | some d =>
          have some := le_count_readDigits (0 * 10 + d) (0 + 1) cs
          have first := isDigit_of_digitValue digit
          simp only [List.head?_cons, Option.any_some, first, not_true, iff_false]
          omega

/-- A number with few digits is small. -/
theorem value_readDigits_lt : ∀ (value count : Nat) (cs : List Char),
    (readDigits 10 value count cs).1 < (value + 1) * 10 ^ cs.length
  | value, count, [] => by simp [readDigits]
  | value, count, c :: cs => by
      have pos : 0 < 10 ^ cs.length := by positivity
      rw [readDigits, List.length_cons, pow_succ]
      cases digit : digitValue 10 c with
      | none =>
          simp only
          nlinarith
      | some d =>
          have small : d < 10 := by
            have := digitValue_of_isDigit (isDigit_of_digitValue digit)
            have bounds := toNat_of_isDigit (isDigit_of_digitValue digit)
            have zero : '0'.toNat = 48 := rfl
            rw [digit, Option.some.injEq] at this
            omega
          have later := value_readDigits_lt (value * 10 + d) (count + 1) cs
          refine lt_of_lt_of_le later ?_
          nlinarith

theorem length_readSign_le (cs : List Char) : (readSign cs).2.length ≤ cs.length := by
  cases cs with
  | nil => exact le_rfl
  | cons c cs =>
      rw [readSign]
      split
      · exact Nat.le_succ _
      · split
        · exact Nat.le_succ _
        · exact le_rfl

theorem length_signedBody_le (text : String) : (signedBody text).2.length ≤ text.length := by
  have dropped := (List.dropWhile_sublist (l := text.toList) isSpace).length_le
  rw [String.length_toList] at dropped
  exact (length_readSign_le _).trans dropped

/-- A conversion returns if the text begins with a number and the number fits. -/
theorem returns_stoSigned_iff {bits : Nat} {text : String} {n : Int}
    (value : (if (signedBody text).1 then -((readDigits 10 0 0 (signedBody text).2).1 : Int)
      else (readDigits 10 0 0 (signedBody text).2).1) = n) :
    Returns (stoSigned bits text) ↔
      (signedBody text).2.head?.any Char.isDigit ∧ -2 ^ (bits - 1) ≤ n ∧ n < 2 ^ (bits - 1) := by
  have digits := count_readDigits_eq_zero_iff (signedBody text).2
  simp only [stoSigned, value]
  split
  · rename_i none
    simp [digits.mp none]
  · rename_i some
    have begins := not_not.mp (mt digits.mpr some)
    split
    · rename_i large
      simp only [not_returns_error, begins, true_and, false_iff]
      omega
    · rename_i fits
      simp only [returns_ok, begins, true_and, true_iff]
      omega

/-! ### Validities -/

/-- A number begins the field, behind white space and a sign. -/
def FieldReadable (text : String) (pos n : Nat) : Prop :=
  pos ≤ text.length ∧
    (signedBody (String.ofList ((text.toList.drop pos).take n))).2.head?.any Char.isDigit

instance (text : String) (pos n : Nat) : Decidable (FieldReadable text pos n) := by
  unfold FieldReadable
  infer_instance

/-- The number of a short field fits. -/
theorem returns_readField_iff {text : String} {pos n : Nat} (short : n < 10) :
    Returns (readField text pos n) ↔ FieldReadable text pos n := by
  unfold readField substr FieldReadable
  split
  · rename_i outside
    simp only [bind, Except.bind, not_returns_error, false_iff]
    omega
  · rename_i inside
    simp only [bind, Except.bind]
    generalize part : String.ofList ((text.toList.drop pos).take n) = field
    have length : field.length ≤ n := by
      rw [← part, String.length_ofList]
      exact List.length_take_le ..
    have value := value_readDigits_lt 0 0 (signedBody field).2
    have small : 10 ^ (signedBody field).2.length ≤ 10 ^ 9 :=
      Nat.pow_le_pow_right (by decide) (by have := length_signedBody_le field; omega)
    rw [stoi, returns_stoSigned_iff rfl]
    have fits : (readDigits 10 0 0 (signedBody field).2).1 < 10 ^ 9 := by omega
    constructor
    · rintro ⟨begins, -⟩
      exact ⟨by omega, begins⟩
    · rintro ⟨-, begins⟩
      refine ⟨begins, ?_⟩
      split <;> omega

/-- A date `YYYY-MM-DD` that can be read. -/
def DateReadable (dateStr : String) : Prop :=
  FieldReadable dateStr 0 4 ∧ FieldReadable dateStr 5 2 ∧ FieldReadable dateStr 8 2

/-- A time `HH:MM:SS.mmm` that can be read. -/
def TimeReadable (timeStr : String) : Prop :=
  FieldReadable timeStr 0 2 ∧ FieldReadable timeStr 3 2 ∧ FieldReadable timeStr 6 2 ∧
    FieldReadable timeStr 9 3

theorem returns_getDateIdFromString_iff {dateStr : String} :
    Returns (getDateIdFromString dateStr) ↔ DateReadable dateStr := by
  rw [getDateIdFromString_eq, DateReadable, ← returns_readField_iff (by decide),
    ← returns_readField_iff (by decide), ← returns_readField_iff (by decide)]
  refine returns_bind_iff fun year => returns_bind_iff fun month => ?_
  exact returns_bind_of fun day => returns_pure _

theorem returns_getDailyIdFromString_iff {timeStr : String} :
    Returns (getDailyIdFromString timeStr) ↔ TimeReadable timeStr := by
  rw [getDailyIdFromString_eq, TimeReadable, ← returns_readField_iff (by decide),
    ← returns_readField_iff (by decide), ← returns_readField_iff (by decide),
    ← returns_readField_iff (by decide)]
  refine returns_bind_iff fun hour => returns_bind_iff fun minute => ?_
  refine returns_bind_iff fun second => ?_
  exact returns_bind_of fun millisecond => returns_pure _

/-- What is given of a validity can be read. -/
def ValidityReadable (dateStr timeStr : String) : Prop :=
  (dateStr = "" ∨ DateReadable dateStr) ∧ (timeStr = "" ∨ TimeReadable timeStr)

theorem returns_readValidity_iff {dateStr timeStr : String} :
    Returns (readValidity dateStr timeStr) ↔ ValidityReadable dateStr timeStr := by
  have date : Returns (if dateStr = "" then pure maxNumber else getDateIdFromString dateStr) ↔
      dateStr = "" ∨ DateReadable dateStr := by
    by_cases empty : dateStr = "" <;> simp [empty, returns_getDateIdFromString_iff]
  have time : Returns (if timeStr = "" then pure 0 else getDailyIdFromString timeStr) ↔
      timeStr = "" ∨ TimeReadable timeStr := by
    by_cases empty : timeStr = "" <;> simp [empty, returns_getDailyIdFromString_iff]
  unfold readValidity ValidityReadable
  rw [← date, ← time]
  exact returns_bind_iff fun validityDate => returns_bind_of fun validityDaily => returns_pure _

/-- **A time without milliseconds** cannot be read. -/
theorem not_timeReadable {timeStr : String} (short : timeStr.length < 9) :
    ¬TimeReadable timeStr := by
  rintro ⟨-, -, -, inside, -⟩
  omega

/-! ### Displays -/

/-- The text of an INTEGER is read back, if it fits. -/
theorem returns_stoSigned_integerText (bits : Nat) (n : Int64) :
    Returns (stoSigned bits (integerText n)) ↔
      -2 ^ (bits - 1) ≤ n.toInt ∧ n.toInt < 2 ^ (bits - 1) := by
  have reads := reads_int n.toInt
  have whole := dropWhile_isSpace_word reads.word []
  have value := reads.reads []
  have none : writeFields [] = [] := rfl
  rw [List.append_nil] at whole
  rw [none, List.append_nil] at value
  have body : signedBody (integerText n) = readSign (toString n.toInt).toList :=
    congrArg readSign whole
  have digits := count_readDigits_eq_zero_iff (signedBody (integerText n)).2
  simp only [readInt] at value
  split at value
  · cases value
  · rename_i some
    rw [← body] at some value
    have same := congrArg Prod.fst (Option.some.inj value)
    rw [returns_stoSigned_iff same]
    exact and_iff_right (not_not.mp (mt digits.mpr some))

@[simp] theorem returns_stoll_integerText (n : Int64) : Returns (stoll (integerText n)) :=
  (returns_stoSigned_integerText 64 n).mpr ⟨n.le_toInt, n.toInt_lt⟩

/-- The conversions of the portfolio accept the row: the quantity is an `int`, and the price
one that `std::stod` reads. -/
structure ShareInfo.Readable (r : ShareInfo) : Prop where
  lower : -2 ^ 31 ≤ r.quantity.toInt
  upper : r.quantity.toInt < 2 ^ 31
  price : (StockMarket.stod r.latest.price).isSome

theorem returns_stod_iff (text : String) :
    Returns (stod text) ↔ (StockMarket.stod text).isSome := by
  unfold stod
  cases StockMarket.stod text <;> simp

theorem returns_getPortfolioInfo_iff {rows : List ShareInfo} :
    Returns (getPortfolioInfo (rows.map ShareInfo.portfolioRow)) ↔ ∀ r ∈ rows, r.Readable := by
  have long : ((rows.map ShareInfo.portfolioRow).filter fun row => 5 ≤ row.length)
      = rows.map ShareInfo.portfolioRow :=
    List.filter_eq_self.mpr (by simp [ShareInfo.portfolioRow])
  rw [getPortfolioInfo, long, returns_mapM_iff, List.forall_mem_map]
  refine forall₂_congr fun r _ => ?_
  have quantity := returns_stoSigned_integerText 32 r.quantity
  have price := returns_stod_iff r.latest.price
  have each : r.Readable ↔ Returns (stoi (integerText r.quantity)) ∧
      Returns (stod r.latest.price) := by
    rw [stoi, quantity, price]
    constructor
    · rintro ⟨lower, upper, price⟩
      exact ⟨⟨lower, upper⟩, price⟩
    · rintro ⟨⟨lower, upper⟩, price⟩
      exact ⟨lower, upper, price⟩
  rw [each]
  refine returns_bind_iff fun n => returns_bind_of fun x => ?_
  have times : Returns (stoll (integerText r.latest.dailyTime)) ∧
      Returns (stoll (integerText r.latest.dateTime)) := by simp
  refine (returns_bind_iff fun date => returns_bind_of fun daily => returns_pure _).mpr times

theorem returns_printTimes {size date daily : Nat} {rows : List (List String)}
    (integers : ∀ row ∈ rows, Returns (stoll (row.getD date "")) ∧
      Returns (stoll (row.getD daily ""))) : Returns (printTimes size date daily rows) := by
  refine returns_mapM_iff.mpr fun row mem => ?_
  obtain ⟨first, second⟩ := integers row (List.mem_filter.mp mem).1
  exact (returns_bind_iff fun _ => returns_bind_of fun _ => returns_pure _).mpr ⟨first, second⟩

theorem returns_getOrdersInfo (rows : List OrderInfo) :
    Returns (getOrdersInfo (rows.map OrderInfo.row)) := by
  have times : ∀ date daily, (date = 0 ∧ daily = 1 ∨ date = 10 ∧ daily = 11) →
      Returns (printTimes 12 date daily (rows.map OrderInfo.row)) := by
    intro date daily which
    refine returns_printTimes ?_
    rw [List.forall_mem_map]
    intro r _
    have eight := r.eight
    rcases which with ⟨rfl, rfl⟩ | ⟨rfl, rfl⟩
    · simp [OrderInfo.row]
    · simp [OrderInfo.row, eight]
  exact (returns_bind_iff fun _ => returns_bind_of fun _ => returns_pure _).mpr
    ⟨times 0 1 (by simp), times 10 11 (by simp)⟩

theorem returns_getActionsInfo (rows : List ShareInfo) :
    Returns (getActionsInfo (rows.map ShareInfo.marketRow)) := by
  refine returns_printTimes ?_
  rw [List.forall_mem_map]
  intro r _
  simp [ShareInfo.marketRow]

/-- An action is displayed if it has a price. -/
theorem returns_getActionInfo_iff {name : String} {quantity : Int64} {prices : List PriceInfo} :
    Returns (getActionInfo (actionRows name quantity prices)) ↔ prices ≠ [] := by
  cases prices with
  | nil =>
      have empty : ¬Returns (stoll "") := by
        rw [not_returns_iff]
        exact ⟨.invalidArgument, by decide⟩
      refine iff_of_false (fun returns => ?_) (by simp)
      have row := returns_mapM_iff.mp returns [name, integerText quantity, "", "", ""]
        (by simp [actionRows])
      exact empty ((returns_bind_iff fun _ => returns_bind_of fun _ => returns_pure _).mp row).1
  | cons p prices =>
      refine iff_of_true (returns_printTimes ?_) (List.cons_ne_nil _ _)
      rw [actionRows, List.forall_mem_map]
      · intro p' _
        simp
      · exact List.cons_ne_nil _ _

/-- What a display cannot convert: a portfolio with such a row, and an action that has no
price. -/
def Answers.Unprintable (answers : Answers) (client : ID) (displayType : String) : Prop :=
  displayType = "portfolio" ∧ (∃ r ∈ answers.portfolio client, ¬r.Readable) ∨
    displayType ∉ ["portfolio", "pending_orders", "completed_orders", "market", ""] ∧
      answers.actionNamed displayType ≠ -1 ∧
      ∃ name quantity, answers.action (answers.actionNamed displayType) = some (name, quantity, [])

theorem returns_display_iff {answers : Answers} {client : ID} {displayType : String} :
    Returns (display answers client displayType) ↔ ¬answers.Unprintable client displayType := by
  unfold display Answers.Unprintable
  by_cases portfolio : displayType = "portfolio"
  · simp [portfolio, returns_discard_iff, returns_getPortfolioInfo_iff]
  by_cases pending : displayType = "pending_orders"
  · simp [pending, returns_discard_iff, returns_getOrdersInfo]
  by_cases completed : displayType = "completed_orders"
  · simp [completed, returns_discard_iff, returns_getOrdersInfo]
  by_cases market : displayType = "market"
  · have each := fun rows => returns_discard_iff.mpr (returns_getOrdersInfo rows)
    have last := returns_discard_iff.mpr (returns_getActionsInfo answers.actions)
    have all : Returns (display answers client "market") := by
      refine (returns_bind_iff fun _ => returns_bind_iff fun _ => iff_true_intro last).mpr ?_
      exact ⟨each _, each _, trivial⟩
    simpa [market, display] using all
  by_cases named : displayType ≠ "" ∧ answers.actionNamed displayType ≠ -1
  · cases found : answers.action (answers.actionNamed displayType) with
    | none => simp [portfolio, pending, completed, market, named]
    | some info =>
        obtain ⟨name, quantity, prices⟩ := info
        simp [portfolio, pending, completed, market, named, returns_discard_iff,
          returns_getActionInfo_iff]
  · simp only [portfolio, pending, completed, market, named, if_false, returns_ok]
    simp
    tauto

/-! ### Messages -/

/-- **What stops the server.** An order line that passes the checks of its type, its trigger and
its prices, with a validity that cannot be read, or a display that cannot be printed. -/
def Received.Stops (r : Received) : Prop :=
  match r.request with
  | .order line validityDateStr validityDailyTimeStr =>
    (∃ terms, line.readTerms = .ok terms) ∧
      ¬ValidityReadable validityDateStr validityDailyTimeStr
  | .display client displayType => r.answers.Unprintable client displayType
  | _ => False

variable {env : Env} {r : Received}

theorem returns_handleOrder_iff {line : OrderLine} {dateStr timeStr : String} :
    Returns (handleOrder env r line dateStr timeStr) ↔
      ¬((∃ terms, line.readTerms = .ok terms) ∧ ¬ValidityReadable dateStr timeStr) := by
  unfold handleOrder
  cases terms : line.readTerms with
  | error e => simp
  | ok terms =>
      rw [← returns_readValidity_iff]
      simp only [Except.ok.injEq, exists_eq', true_and, not_not]
      refine returns_bind_of fun validity => ?_
      split <;> simp

/-- **One message.** An exception leaves `handle_client` if and only if the message is one of
these. -/
theorem returns_handleInput_iff (env : Env) (r : Received) : Returns (handleInput env r) ↔
    ¬r.Stops := by
  unfold handleInput Received.Stops
  cases r.request with
  | authentification credentials => cases credentials <;> simp
  | display client displayType =>
      rw [← returns_display_iff]
      exact returns_bind_of fun _ => returns_pure _
  | order line dateStr timeStr => exact returns_handleOrder_iff
  | _ => simp

/-- The message ends the loop. -/
def Received.Leaves (r : Received) : Prop :=
  r.request = .authentification none ∨ ∃ client, r.request = .exit client

theorem leaves_handleInput {handled : Handled} (out : handleInput env r = .ok handled) :
    handled.leaves ↔ r.Leaves := by
  unfold handleInput at out
  unfold Received.Leaves
  cases request : r.request with
  | authentification credentials =>
      rw [request] at out
      cases credentials <;> obtain rfl := Except.ok.inj out <;> simp
  | exit client =>
      rw [request] at out
      obtain rfl := Except.ok.inj out
      simp
  | display client displayType =>
      rw [request] at out
      obtain ⟨_, -, out⟩ := ok_of_bind out
      obtain rfl := Except.ok.inj out
      simp
  | order line dateStr timeStr =>
      rw [request] at out
      simp only [handleOrder] at out
      split at out
      · obtain rfl := Except.ok.inj out
        simp
      · obtain ⟨_, -, out⟩ := ok_of_bind out
        split at out <;> obtain rfl := Except.ok.inj out <;> simp
  | _ =>
      rw [request] at out
      obtain rfl := Except.ok.inj out
      simp

/-- The loop returns if and only if none of the messages that it gets to stops it. -/
theorem returns_loop_iff (env : Env) (rs : List Received) :
    Returns (handleClient env rs) ↔
      ∀ front r rest, rs = front ++ r :: rest → (∀ r' ∈ front, ¬r'.Leaves) → ¬r.Stops := by
  induction rs with
  | nil => simp [handleClient]
  | cons r rs ih =>
      have split : (∀ front r' rest, r :: rs = front ++ r' :: rest →
          (∀ r' ∈ front, ¬r'.Leaves) → ¬r'.Stops) ↔ ¬r.Stops ∧ (¬r.Leaves →
            ∀ front r' rest, rs = front ++ r' :: rest → (∀ r' ∈ front, ¬r'.Leaves) →
              ¬r'.Stops) := by
        constructor
        · intro all
          refine ⟨all [] r rs rfl (by simp), fun stays front r' rest eq others => ?_⟩
          exact all (r :: front) r' rest (by rw [eq, List.cons_append])
            (List.forall_mem_cons.mpr ⟨stays, others⟩)
        · rintro ⟨here, later⟩ front r' rest eq others
          cases front with
          | nil =>
              obtain ⟨rfl, -⟩ := List.cons.inj eq
              exact here
          | cons r'' front =>
              obtain ⟨rfl, behind⟩ := List.cons.inj eq
              obtain ⟨stays, others⟩ := List.forall_mem_cons.mp others
              exact later stays front r' rest behind others
      rw [split, ← ih, ← returns_handleInput_iff env]
      cases out : handleInput env r with
      | error e => simp [handleClient, out, bind, Except.bind]
      | ok handled =>
          have leaves := leaves_handleInput out
          by_cases last : handled.leaves
          · simp [handleClient, out, bind, Except.bind, last, leaves.mp last]
          · have stays := mt leaves.mpr last
            have rest : Returns (handleClient env (r :: rs)) ↔ Returns (handleClient env rs) := by
              simp only [handleClient, out, bind, Except.bind, last]
              exact returns_bind_of fun _ => returns_pure _
            simpa [stays] using rest

/-! ### Bytes -/

/-- A message as it arrives, with what its branch finds. -/
structure Message where
  bytes : List UInt8
  uninitialised : Uninitialised
  answers : Answers
  db : Database
  orderId : ID
  orderTimeDate : ID
  orderTimeDaily : ID

/-- `std::string(buffer)`, which ends at the first zero byte. -/
def Message.received (m : Message) : Received where
  input := textOfBytes (m.bytes.takeWhile fun b => b ≠ 0)
  uninitialised := m.uninitialised
  answers := m.answers
  db := m.db
  orderId := m.orderId
  orderTimeDate := m.orderTimeDate
  orderTimeDaily := m.orderTimeDaily

/-- Nothing in particular. -/
def demoUninitialised : Uninitialised := ⟨0, 0, 0, 0, 0, 0, 0⟩

/-- A database that answers nothing to the displays. -/
def demoAnswers : Answers where
  clientIdIfNameAndPasswordRegistered _ _ := -1
  actionNamed _ := -1
  portfolio _ := []
  orders _ _ := []
  book _ := []
  actions := []
  action _ := none

/-- A message to the server of `init`. -/
def demoReceived (input : String) : Received :=
  ⟨input, demoUninitialised, demoAnswers, Database.demo 0 1, 1, 1, 1⟩

/-- `1 BUY 1 1 LIMIT 5 5`. -/
def demoLine : OrderLine := { newYearLine with validityDate := maxNumber, validityDaily := 0 }

/-- A message of ASCII characters to the server of `init`. -/
def demoMessage (input : String) : Message :=
  ⟨input.toList.map fun c => UInt8.ofNat c.toNat, demoUninitialised, demoAnswers,
    Database.demo 0 1, 1, 1, 1⟩

theorem request_withoutMilliseconds :
    (demoMessage "1 BUY 1 1 LIMIT 5 5 2026-01-01 12:00:00").received.request
      = .order demoLine "2026-01-01" "12:00:00" := by
  decide +kernel

end StockMarket.Sql
