import Mathlib.Data.Prod.Lex
import Mathlib.Tactic.Ring
import StockMarket.Net.Text
import StockMarket.Sql.Book
import StockMarket.Sql.Conservation

/-!
Dates and times of day (`Src_SQL/utility.cpp`), and when an order expires.

A date is a day, a month and a year in one number, a time of day a number of
milliseconds. The clock makes these numbers of a `struct tm`, whose months count from 0
and whose years count from 1900 (`getDateTime`, `getDailyTime`); a validity makes them of a
text, where they count as people count (`getDateIdFromString`,
`getDailyIdFromString`). So the number of a deadline is that of a clock 1900 years and one
month later, and this is when the watcher takes the order to have expired
(`expires_on_time_iff`). The sums are exact here; `DateEncoding` has them in an `int`, which
holds them for some five million years.

`std::stoi` and `std::string::substr` throw where `Except` has an error.
-/

namespace StockMarket.Sql

open Client Database

/-! ### The standard library -/

/-- What the functions of the standard library throw. -/
inductive StdException where
  | invalidArgument
  | outOfRange
  deriving DecidableEq, Repr

/-- `std::string::substr`. -/
def substr (text : String) (pos n : Nat) : Except StdException String :=
  if text.length < pos then .error .outOfRange
  else .ok (String.ofList ((text.toList.drop pos).take n))

/-- `std::stoi` and `std::stoll`, whose results have 32 and 64 bits. -/
def stoSigned (bits : Nat) (text : String) : Except StdException Int :=
  let (negative, body) := signedBody text
  let (value, count, _) := readDigits 10 0 0 body
  let n : Int := if negative then -value else value
  if count = 0 then .error .invalidArgument
  else if n < -2 ^ (bits - 1) ∨ 2 ^ (bits - 1) ≤ n then .error .outOfRange
  else .ok n

def stoi : String → Except StdException Int := stoSigned 32

def stoll : String → Except StdException Int := stoSigned 64

/-- `struct tm`. -/
structure Tm where
  tmMday : Int
  tmMon : Int
  tmYear : Int
  tmHour : Int
  tmMin : Int
  tmSec : Int
  deriving DecidableEq, Repr

/-! ### The encodings -/

section

variable (localtime : Int → Tm) (timeMs : Int)

/-- `get_daily_time`. -/
def getDailyTime : ID :=
  let nowTm := localtime (timeMs.tdiv 1000)
  timeMs.tmod 1000 + 1000 * (nowTm.tmSec + 60 * (nowTm.tmMin + 60 * nowTm.tmHour))

/-- `get_date_time`. -/
def getDateTime : ID :=
  let nowTm := localtime (timeMs.tdiv 1000)
  nowTm.tmMday + 31 * (nowTm.tmMon + 12 * nowTm.tmYear)

end

/-- `get_date_id_from_string`. -/
def getDateIdFromString (dateStr : String) : Except StdException ID := do
  let year ← stoi (← substr dateStr 0 4)
  let month ← stoi (← substr dateStr 5 2)
  let day ← stoi (← substr dateStr 8 2)
  return day + 31 * (month + 12 * year)

/-- `get_daily_id_from_string`. -/
def getDailyIdFromString (timeStr : String) : Except StdException ID := do
  let hour ← stoi (← substr timeStr 0 2)
  let minute ← stoi (← substr timeStr 3 2)
  let second ← stoi (← substr timeStr 6 2)
  let millisecond ← stoi (← substr timeStr 9 3)
  return millisecond + 1000 * (second + 60 * (minute + 60 * hour))

/-- `std::stoi(text.substr(pos, n))`. -/
def readField (text : String) (pos n : Nat) : Except StdException Int :=
  substr text pos n >>= stoi

theorem getDateIdFromString_eq (dateStr : String) :
    getDateIdFromString dateStr = (do
      let year ← readField dateStr 0 4
      let month ← readField dateStr 5 2
      let day ← readField dateStr 8 2
      return day + 31 * (month + 12 * year)) := by
  simp only [getDateIdFromString, readField, bind_assoc]

theorem getDailyIdFromString_eq (timeStr : String) :
    getDailyIdFromString timeStr = (do
      let hour ← readField timeStr 0 2
      let minute ← readField timeStr 3 2
      let second ← readField timeStr 6 2
      let millisecond ← readField timeStr 9 3
      return millisecond + 1000 * (second + 60 * (minute + 60 * hour))) := by
  simp only [getDailyIdFromString, readField, bind_assoc]

/-- How `handle_client` reads the validity of an order, which may be left out. -/
def readValidity (validityDateStr validityDailyTimeStr : String) :
    Except StdException (ID × ID) := do
  let validityDate ←
    (if validityDateStr = "" then pure maxNumber else getDateIdFromString validityDateStr)
  let validityDaily ←
    (if validityDailyTimeStr = "" then pure 0 else getDailyIdFromString validityDailyTimeStr)
  return (validityDate, validityDaily)

/-! ### The watcher -/

/-- What the watcher does with a waiting order in one scan. -/
inductive Scanned where
  | expired
  | released
  | kept
  deriving DecidableEq, Repr

/-- The checks of `trigger_and_expiration_watcher`. -/
def scanOrder (env : Env) (nowDate nowDaily : ID) (d : Database) (o : OrderRow) : Scanned :=
  if Server.isExpired nowDate nowDaily o then .expired
  else if Server.isTriggered env d o then .released
  else .kept

/-- One pass of its loop. -/
def Server.scan (env : Env) (nowDate nowDaily : ID) (o : OrderRow) (s : Server) : Server :=
  let removed := s.withDb (removeWaitingOrder o.clientId o.orderId s.market.db)
  match scanOrder env nowDate nowDaily s.market.db o with
  | .expired => removed
  | .released => removed.addTask (.enter o)
  | .kept => s

/-! ### Local times -/

/-- A date and a time of day, as people write them. -/
structure LocalTime where
  year : Nat
  month : Nat
  day : Nat
  hour : Nat
  minute : Nat
  second : Nat
  millisecond : Nat
  month_pos : 1 ≤ month := by decide
  month_le : month ≤ 12 := by decide
  day_pos : 1 ≤ day := by decide
  day_le : day ≤ 31 := by decide
  hour_lt : hour < 24 := by decide
  minute_lt : minute < 60 := by decide
  second_lt : second < 60 := by decide
  millisecond_lt : millisecond < 1000 := by decide

namespace LocalTime

/-- What comes first decides which of two is earlier. -/
def key (t : LocalTime) : ℕ ×ₗ ℕ ×ₗ ℕ ×ₗ ℕ ×ₗ ℕ ×ₗ ℕ ×ₗ ℕ :=
  toLex (t.year, toLex (t.month, toLex (t.day, toLex (t.hour, toLex (t.minute,
    toLex (t.second, t.millisecond))))))

/-- `t` is not after `t'`. -/
instance : LE LocalTime := ⟨fun t t' => t.key ≤ t'.key⟩

instance (t t' : LocalTime) : Decidable (t ≤ t') :=
  inferInstanceAs (Decidable (t.key ≤ t'.key))

/-- The same day of a later month, at the same time. -/
def monthsLater (n : Nat) (t : LocalTime) : LocalTime :=
  { t with
    year := (12 * t.year + (t.month - 1) + n) / 12
    month := (12 * t.year + (t.month - 1) + n) % 12 + 1
    month_pos := by omega
    month_le := by omega }

/-- A number in decimal digits, with leading zeros. -/
def padded : Nat → Nat → List Char
  | 0, _ => []
  | width + 1, n => padded width (n / 10) ++ [Nat.digitChar (n % 10)]

/-- `YYYY-MM-DD`. -/
def dateText (t : LocalTime) : String :=
  String.ofList (padded 4 t.year ++ '-' :: padded 2 t.month ++ '-' :: padded 2 t.day)

/-- `HH:MM:SS.mmm`. -/
def timeText (t : LocalTime) : String :=
  String.ofList (padded 2 t.hour ++ ':' :: padded 2 t.minute ++ ':' :: padded 2 t.second
    ++ '.' :: padded 3 t.millisecond)

/-- At the instant `timeMs`, `localtime` gives the civil fields of `t`. -/
structure Shows (localtime : Int → Tm) (timeMs : Int) (t : LocalTime) : Prop where
  fields : localtime (timeMs.tdiv 1000)
    = ⟨t.day, t.month - 1, t.year - 1900, t.hour, t.minute, t.second⟩
  millisecond : timeMs.tmod 1000 = t.millisecond

/-! ### The numbers of a local time -/

/-- The number of a date, as a text has it. -/
def dateNumber (t : LocalTime) : Int := t.day + 31 * (t.month + 12 * t.year)

/-- The number of a time of day. -/
def dailyNumber (t : LocalTime) : Int :=
  t.millisecond + 1000 * (t.second + 60 * (t.minute + 60 * t.hour))

variable {t t' : LocalTime}

theorem le_iff : t ≤ t' ↔
    t.dateNumber < t'.dateNumber ∨
      t.dateNumber = t'.dateNumber ∧ t.dailyNumber ≤ t'.dailyNumber := by
  have unfold_le : t ≤ t' ↔ t.key ≤ t'.key := Iff.rfl
  have := t.month_pos; have := t.month_le; have := t.day_pos; have := t.day_le
  have := t'.month_pos; have := t'.month_le; have := t'.day_pos; have := t'.day_le
  have := t.hour_lt; have := t.minute_lt; have := t.second_lt; have := t.millisecond_lt
  have := t'.hour_lt; have := t'.minute_lt; have := t'.second_lt; have := t'.millisecond_lt
  simp only [unfold_le, key, Prod.Lex.toLex_le_toLex, dateNumber, dailyNumber]
  omega

theorem dateNumber_monthsLater (n : Nat) :
    (t.monthsLater n).dateNumber = t.dateNumber + 31 * n := by
  have := t.month_pos
  simp only [monthsLater, dateNumber]
  omega

theorem dailyNumber_monthsLater (n : Nat) : (t.monthsLater n).dailyNumber = t.dailyNumber := rfl

theorem dateNumber_eq_maxNumber_iff :
    t.dateNumber = maxNumber ↔ t.year = 176 ∧ t.month = 2 ∧ t.day = 1 := by
  have := t.month_pos; have := t.month_le; have := t.day_pos; have := t.day_le
  simp only [dateNumber, maxNumber]
  omega

/-- The number of a date on the clock is less than that in a text. -/
theorem Shows.getDateTime {localtime : Int → Tm} {timeMs : Int} (shows : t.Shows localtime timeMs) :
    Sql.getDateTime localtime timeMs = t.dateNumber - 31 * (12 * 1900 + 1) := by
  simp only [Sql.getDateTime, shows.fields, dateNumber]
  ring

theorem Shows.getDailyTime {localtime : Int → Tm} {timeMs : Int}
    (shows : t.Shows localtime timeMs) : Sql.getDailyTime localtime timeMs = t.dailyNumber := by
  simp only [Sql.getDailyTime, shows.fields, shows.millisecond, dailyNumber]

/-! ### Reading the text of a local time -/

theorem digitValue_digitChar {d : Nat} (small : d < 10) :
    digitValue 10 (Nat.digitChar d) = some d := by
  have all : ∀ d < 10, digitValue 10 (Nat.digitChar d) = some d := by decide
  exact all d small

@[simp] theorem length_padded : ∀ width n : Nat, (padded width n).length = width
  | 0, _ => rfl
  | width + 1, n => by simp [padded, length_padded width]

theorem readDigits_padded : ∀ (width n value count : Nat) (rest : List Char),
    readDigits 10 value count (padded width n ++ rest)
      = readDigits 10 (value * 10 ^ width + n % 10 ^ width) (count + width) rest
  | 0, n, value, count, rest => by simp [padded, Nat.mod_one]
  | width + 1, n, value, count, rest => by
      have digit := digitValue_digitChar (Nat.mod_lt n (by decide : 0 < 10))
      rw [padded, List.append_assoc, readDigits_padded width, List.singleton_append, readDigits,
        digit]
      have split : n % 10 ^ (width + 1) = n % 10 + 10 * (n / 10 % 10 ^ width) := by
        rw [pow_succ', Nat.mod_mul]
      have value' : (value * 10 ^ width + n / 10 % 10 ^ width) * 10 + n % 10
          = value * 10 ^ (width + 1) + n % 10 ^ (width + 1) := by
        rw [split, pow_succ]
        ring
      simp only [value', Nat.add_assoc]

theorem mem_padded {c : Char} : ∀ {width n : Nat}, c ∈ padded width n →
    ∃ d < 10, c = Nat.digitChar d
  | 0, _, mem => by cases mem
  | width + 1, n, mem => by
      rcases List.mem_append.mp mem with front | last
      · exact mem_padded front
      · exact ⟨n % 10, Nat.mod_lt n (by decide), List.mem_singleton.mp last⟩

/-- A number of a few digits is read back. -/
theorem stoi_padded {width n : Nat} (pos : 0 < width) (few : width < 10) (fits : n < 10 ^ width) :
    stoi (String.ofList (padded width n)) = .ok n := by
  have plain : ∀ d < 10, isSpace (Nat.digitChar d) = false ∧ Nat.digitChar d ≠ '-' ∧
      Nat.digitChar d ≠ '+' := by decide
  have body : signedBody (String.ofList (padded width n)) = (false, padded width n) := by
    cases digits : padded width n with
    | nil =>
        have none := congrArg List.length digits
        rw [length_padded] at none
        simp only [List.length_nil] at none
        omega
    | cons c cs =>
        obtain ⟨d, small, rfl⟩ := mem_padded (digits ▸ List.mem_cons_self : c ∈ padded width n)
        obtain ⟨solid, minus, plus⟩ := plain d small
        simp [signedBody, readSign, solid, minus, plus]
  have read := readDigits_padded width n 0 0 []
  rw [List.append_nil] at read
  have small : n < 10 ^ 9 := lt_of_lt_of_le fits (Nat.pow_le_pow_right (by decide) (by omega))
  have some : width ≠ 0 := by omega
  simp only [stoi, stoSigned, body, read, readDigits, Nat.mod_eq_of_lt fits]
  simp [some]
  omega

/-- A number that stands in the middle of a text. -/
theorem readField_padded {text : String} (front back : List Char) {pos width n : Nat}
    (stands : text.toList = front ++ (padded width n ++ back)) (begins : front.length = pos)
    (some : 0 < width) (few : width < 10) (fits : n < 10 ^ width) :
    readField text pos width = .ok (n : Int) := by
  subst begins
  have length : text.length = (front ++ (padded width n ++ back)).length := by
    rw [← stands, String.length_toList]
  have field : substr text front.length width = .ok (String.ofList (padded width n)) := by
    simp [substr, length, stands]
  simp only [readField, field, bind, Except.bind, stoi_padded some few fits]

theorem getDateIdFromString_dateText (written : t.year < 10000) :
    getDateIdFromString t.dateText = .ok t.dateNumber := by
  have := t.month_le; have := t.day_le
  have text : t.dateText.toList
      = padded 4 t.year ++ ('-' :: padded 2 t.month ++ '-' :: padded 2 t.day) := by
    simp [dateText]
  have year : readField t.dateText 0 4 = .ok (t.year : Int) :=
    readField_padded [] _ text rfl (by decide) (by decide) (by omega)
  have month : readField t.dateText 5 2 = .ok (t.month : Int) :=
    readField_padded (padded 4 t.year ++ ['-']) ('-' :: padded 2 t.day)
      (by simp [text]) (by simp) (by decide) (by decide) (by omega)
  have day : readField t.dateText 8 2 = .ok (t.day : Int) :=
    readField_padded (padded 4 t.year ++ '-' :: padded 2 t.month ++ ['-']) []
      (by simp [text]) (by simp) (by decide) (by decide) (by omega)
  rw [getDateIdFromString_eq, year, month, day]
  rfl

theorem getDailyIdFromString_timeText : getDailyIdFromString t.timeText = .ok t.dailyNumber := by
  have := t.hour_lt; have := t.minute_lt; have := t.second_lt; have := t.millisecond_lt
  have text : t.timeText.toList = padded 2 t.hour ++ (':' :: padded 2 t.minute
      ++ ':' :: padded 2 t.second ++ '.' :: padded 3 t.millisecond) := by
    simp [timeText]
  have hour : readField t.timeText 0 2 = .ok (t.hour : Int) :=
    readField_padded [] _ text rfl (by decide) (by decide) (by omega)
  have minute : readField t.timeText 3 2 = .ok (t.minute : Int) :=
    readField_padded (padded 2 t.hour ++ [':'])
      (':' :: padded 2 t.second ++ '.' :: padded 3 t.millisecond)
      (by simp [text]) (by simp) (by decide) (by decide) (by omega)
  have second : readField t.timeText 6 2 = .ok (t.second : Int) :=
    readField_padded (padded 2 t.hour ++ ':' :: padded 2 t.minute ++ [':'])
      ('.' :: padded 3 t.millisecond)
      (by simp [text]) (by simp) (by decide) (by decide) (by omega)
  have millisecond : readField t.timeText 9 3 = .ok (t.millisecond : Int) :=
    readField_padded
      (padded 2 t.hour ++ ':' :: padded 2 t.minute ++ ':' :: padded 2 t.second ++ ['.']) []
      (by simp [text]) (by simp) (by decide) (by decide) (by omega)
  rw [getDailyIdFromString_eq, hour, minute, second, millisecond]
  rfl

/-- **What the server keeps of a validity** that is written out. -/
theorem readValidity_text (written : t.year < 10000) :
    readValidity t.dateText t.timeText = .ok (t.dateNumber, t.dailyNumber) := by
  have date : t.dateText ≠ "" := by
    intro empty
    have length := congrArg (fun s : String => s.toList.length) empty
    simp [dateText] at length
  have time : t.timeText ≠ "" := by
    intro empty
    have length := congrArg (fun s : String => s.toList.length) empty
    simp [timeText] at length
  simp only [readValidity, date, time, if_false, getDateIdFromString_dateText written,
    getDailyIdFromString_timeText]
  rfl

end LocalTime

/-! ### What waits -/

/-- The row of an order that waits, and the line it was submitted with. -/
def SubmittedBy (env : Env) (line : OrderLine) (row : OrderRow) : Prop :=
  ∃ (id date daily : ID) (d : Database) (o : OrderRow),
    admitOrder env line id date daily d = .ok o ∧ o.triggerType ≠ .market ∧
      row = { o with orderStatus := .waiting }

section

variable {env : Env} {order : IterationOrder ID (List ID)} {line : OrderLine} {row : OrderRow}
  {id date daily : ID} {d : Database} {o : OrderRow} {s s' : Server}

theorem expiration_of_admitOrder (taken : admitOrder env line id date daily d = .ok o) :
    o.expirationTimeDate = line.validityDate ∧ o.expirationTimeDaily = line.validityDaily := by
  obtain ⟨type, trigger, price, lower, upper, -, -, -, -, -, rfl⟩ := admitOrder_cases taken
  exact ⟨rfl, rfl⟩

theorem SubmittedBy.expiration (submitted : SubmittedBy env line row) :
    row.expirationTimeDate = line.validityDate ∧
      row.expirationTimeDaily = line.validityDaily := by
  obtain ⟨id, date, daily, d, o, taken, -, rfl⟩ := submitted
  exact ⟨(expiration_of_admitOrder taken).1, (expiration_of_admitOrder taken).2⟩

/-- A row that waits was submitted as it is. -/
def OrderRow.Submitted (env : Env) (row : OrderRow) : Prop :=
  row.orderStatus = .waiting → ∃ line, SubmittedBy env line row

/-- What the rows and the tasks of a server are. -/
structure Server.Submitted (env : Env) (s : Server) : Prop where
  rows : ∀ o ∈ s.market.db.orders.rows, o.Submitted env
  tasks : ∀ o, .wait o ∈ s.tasks → ({ o with orderStatus := .waiting } : OrderRow).Submitted env

namespace Server

theorem Submitted.withDb (submitted : s.Submitted env)
    (rows : ∀ o ∈ d.orders.rows, o.Submitted env) : (s.withDb d).Submitted env :=
  ⟨rows, submitted.tasks⟩

/-- **A step lemma.** -/
theorem Submitted.step (submitted : s.Submitted env) (step : Step env order s s') :
    s'.Submitted env := by
  have part : ∀ o o' : OrderRow, o.Submitted env → o'.clientId = o.clientId →
      o'.orderStatus ≠ .waiting → 0 < o'.quantity → o'.Submitted env :=
    fun _ _ _ _ other _ waits => absurd waits other
  have added : ∀ {t : Task}, (∀ o, t = .wait o →
      ({ o with orderStatus := .waiting } : OrderRow).Submitted env) →
      ∀ o, .wait o ∈ s.tasks ++ [t] →
        ({ o with orderStatus := .waiting } : OrderRow).Submitted env := by
    intro t valid o mem
    rcases List.mem_append.mp mem with old | last
    · exact submitted.tasks o old
    · exact valid o (List.mem_singleton.mp last).symm
  cases step with
  | deposit client amount known =>
      refine submitted.withDb ?_
      rw [orders_deposit]
      exact submitted.rows
  | askWithdrawal client amount known covered =>
      exact ⟨submitted.rows, added fun _ wait => by cases wait⟩
  | @placeOrder line id date daily o free taken =>
      refine ⟨submitted.rows, added fun o' wait waits => ?_⟩
      unfold orderTask at wait
      split at wait
      · cases wait
      · rename_i other
        obtain rfl := Task.wait.inj wait
        exact ⟨line, id, date, daily, _, o, taken, other, rfl⟩
  | @perform t front back next =>
      have others : ∀ o, .wait o ∈ front ++ back →
          ({ o with orderStatus := .waiting } : OrderRow).Submitted env := by
        intro o mem
        refine submitted.tasks o ?_
        rw [next]
        rcases List.mem_append.mp mem with before | behind
        · exact List.mem_append_left _ before
        · exact List.mem_append_right _ (List.mem_cons_of_mem _ behind)
      cases t with
      | enter o =>
          refine ⟨?_, others⟩
          have entered : ∀ o' ∈ (s.market.accumulateOrder o).db.orders.rows,
              o'.Submitted env := by
            unfold Market.accumulateOrder
            split
            · exact submitted.rows
            · have entering : ({ o with orderStatus := .pending } : OrderRow).Submitted env :=
                fun waits => by cases waits
              have rows := Relation.forall_insert submitted.rows entering
              dsimp only
              split <;> exact rows
          simp only [Server.perform]
          split
          · exact (Market.keeps_rows_matchAction readsRows_continuousPair.orders part
              env o.actionId _
              entered).inv
          · exact entered
      | wait o =>
          refine ⟨Relation.forall_insert submitted.rows (submitted.tasks o ?_), others⟩
          rw [next]
          exact List.mem_append_right _ List.mem_cons_self
      | withdraw client amount => exact ⟨submitted.rows, others⟩
  | expire nowDate nowDaily waits expired =>
      exact submitted.withDb (Relation.forall_delete submitted.rows)
  | release nowDate nowDaily waits lasts triggered =>
      exact ⟨Relation.forall_delete submitted.rows, added fun _ wait => by cases wait⟩
  | fixing =>
      exact ⟨(Loop.keeps_chain (Market.keeps_rows_matchAction
        readsRows_fixingPair.orders part env) _ _
        submitted.rows).inv, submitted.tasks⟩
  | period running => exact { submitted with }
  | play => exact ⟨submitted.rows, fun _ mem => absurd mem List.not_mem_nil⟩

/-- **Every order that waits** in a reachable state was submitted as it is. -/
theorem Reachable.submitted (reachable : Reachable env order s)
    (waits : row ∈ s.market.db.getWaitingOrders) : ∃ line, SubmittedBy env line row := by
  have all : s.Submitted env := by
    clear waits
    obtain ⟨d, initial, run⟩ := reachable
    induction run with
    | refl =>
        constructor
        · intro o mem
          rw [initial.orders] at mem
          cases mem
        · exact fun _ mem => absurd mem List.not_mem_nil
    | tail _ step submitted => exact submitted.step step
  obtain ⟨mem, status⟩ := List.mem_filter.mp waits
  exact all.rows row mem (of_decide_eq_true status)

end Server

/-! ### The end of an order -/

theorem scanOrder_eq_expired_iff {nowDate nowDaily : ID} :
    scanOrder env nowDate nowDaily d o = .expired ↔ Server.isExpired nowDate nowDaily o := by
  unfold scanOrder
  split
  · simp_all
  · split <;> simp_all

/-- A scan either keeps a row that waits or takes a step of the server. -/
theorem step_scan {nowDate nowDaily : ID} (waits : row ∈ s.market.db.getWaitingOrders) :
    s.scan env nowDate nowDaily row = s ∨
      Server.Step env order s (s.scan env nowDate nowDaily row) := by
  unfold Server.scan scanOrder
  by_cases expired : Server.isExpired nowDate nowDaily row
  · simp only [expired, if_true]
    exact .inr (.expire nowDate nowDaily waits expired)
  · by_cases triggered : Server.isTriggered env s.market.db row
    · simp only [expired, triggered, if_true]
      exact .inr (.release nowDate nowDaily waits expired triggered)
    · simp only [expired, triggered]
      exact .inl rfl

/-- What a scan at `now` should do with an order that is valid until `deadline`. -/
structure OnTime (deadline now : LocalTime) (scanned : Scanned) : Prop where
  expired : scanned = .expired ↔ deadline ≤ now
  released : scanned = .released → ¬deadline ≤ now

/-- By its numbers an order is expired 1900 years and a month after its deadline, and never if
the number of its date is that of no date. -/
theorem isExpired_iff {deadline now : LocalTime} {localtime : Int → Tm} {timeMs : Int}
    (shows : now.Shows localtime timeMs) (date : row.expirationTimeDate = deadline.dateNumber)
    (daily : row.expirationTimeDaily = deadline.dailyNumber) :
    Server.isExpired (getDateTime localtime timeMs) (getDailyTime localtime timeMs) row ↔
      deadline.monthsLater (12 * 1900 + 1) ≤ now ∧
        ¬(deadline.year = 176 ∧ deadline.month = 2 ∧ deadline.day = 1) := by
  rw [← LocalTime.dateNumber_eq_maxNumber_iff, LocalTime.le_iff, LocalTime.dateNumber_monthsLater,
    LocalTime.dailyNumber_monthsLater, Server.isExpired, shows.getDateTime, shows.getDailyTime,
    date, daily, decide_eq_true_eq]
  have numbers : ∀ a b c e : Int, (a ≠ maxNumber ∧ (a < b - 31 * (12 * 1900 + 1) ∨
      a = b - 31 * (12 * 1900 + 1) ∧ c ≤ e)) ↔ (a + 31 * (12 * 1900 + 1) < b ∨
      a + 31 * (12 * 1900 + 1) = b ∧ c ≤ e) ∧ ¬a = maxNumber := by omega
  exact numbers _ _ _ _

/-- **The validity of an order.** Every order that waits was submitted, and if the line it was
submitted with gave a date and a time, then a scan does what it should if and only if it is
before the deadline, or 1900 years and a month after it. -/
theorem expires_on_time_iff (reachable : Server.Reachable env order s)
    (waits : row ∈ s.market.db.getWaitingOrders) :
    (∃ line, SubmittedBy env line row) ∧
      ∀ (line : OrderLine) (deadline now : LocalTime) (localtime : Int → Tm) (timeMs : Int)
        (d : Database), SubmittedBy env line row → deadline.year < 10000 →
        readValidity deadline.dateText deadline.timeText
          = .ok (line.validityDate, line.validityDaily) →
        now.Shows localtime timeMs →
        (OnTime deadline now
            (scanOrder env (getDateTime localtime timeMs) (getDailyTime localtime timeMs) d row) ↔
          ¬deadline ≤ now ∨
            deadline.monthsLater (12 * 1900 + 1) ≤ now ∧
              ¬(deadline.year = 176 ∧ deadline.month = 2 ∧ deadline.day = 1)) := by
  refine ⟨reachable.submitted waits, ?_⟩
  intro line deadline now localtime timeMs d submitted written read shows
  rw [LocalTime.readValidity_text written] at read
  obtain ⟨date, daily⟩ := Prod.mk.inj (Except.ok.inj read)
  have expires := isExpired_iff shows (submitted.expiration.1.trans date.symm)
    (submitted.expiration.2.trans daily.symm)
  have later : deadline.monthsLater (12 * 1900 + 1) ≤ now → deadline ≤ now := by
    simp only [LocalTime.le_iff, LocalTime.dateNumber_monthsLater,
      LocalTime.dailyNumber_monthsLater]
    push_cast
    omega
  rw [← expires]
  constructor
  · intro onTime
    by_cases reached : deadline ≤ now
    · exact .inr (scanOrder_eq_expired_iff.mp (onTime.expired.mpr reached))
    · exact .inl reached
  · intro timely
    have iff : scanOrder env (getDateTime localtime timeMs) (getDailyTime localtime timeMs) d row
        = .expired ↔ deadline ≤ now := by
      rw [scanOrder_eq_expired_iff]
      constructor
      · exact fun expired => later (expires.mp expired).1
      · exact fun reached => timely.resolve_left (not_not.mpr reached)
    constructor
    · exact iff
    · intro released reached
      rw [iff.mpr reached] at released
      cases released

end

/-! ### An order of `init` -/

/-- New Year's Day of 2026. -/
def newYear : LocalTime where
  year := 2026
  month := 1
  day := 1
  hour := 0
  minute := 0
  second := 0
  millisecond := 0

/-- `1 BUY 1 1 LIMIT 5 5 2026-01-01 00:00:00.000`. -/
def newYearLine : OrderLine where
  clientId := 1
  typeStr := "BUY"
  quantity := 1
  actionId := 1
  triggerTypeStr := "LIMIT"
  price := 5
  triggerPriceLower := 5
  triggerPriceUpper := 0
  validityDate := newYear.dateNumber
  validityDaily := newYear.dailyNumber

/-- Its row. -/
def newYearRow : OrderRow where
  orderId := 1
  orderStatus := .waiting
  orderTimeDate := 1
  orderTimeDaily := 1
  clientId := 1
  orderType := .buy
  quantity := 1
  actionId := 1
  triggerType := .limit
  price := 5
  triggerPriceLower := 5
  triggerPriceUpper := maxNumber
  expirationTimeDate := newYear.dateNumber
  expirationTimeDaily := newYear.dailyNumber

/-- The server that has recorded it. -/
def newYearServer : Server :=
  ({ market := { db := Database.demo 0 1 } } : Server).perform countingEnv (.wait newYearRow)

theorem admitOrder_newYear :
    admitOrder countingEnv newYearLine 1 1 1 (Database.demo 0 1) = .ok newYearRow := by
  decide +kernel

theorem submittedBy_newYearLine : SubmittedBy countingEnv newYearLine newYearRow :=
  ⟨1, 1, 1, _, newYearRow, admitOrder_newYear, by decide, rfl⟩

theorem reachable_newYearServer : Server.Reachable countingEnv .stored newYearServer := by
  have start : Server.Reachable countingEnv .stored { market := { db := Database.demo 0 1 } } :=
    ⟨_, Database.initial_demo 0 1, .refl⟩
  exact reachable_submit start rfl (by decide) admitOrder_newYear

theorem newYearRow_mem : newYearRow ∈ newYearServer.market.db.getWaitingOrders := by
  decide +kernel

/-- A day earlier. -/
def newYearsEve : LocalTime where
  year := 2025
  month := 12
  day := 31
  hour := 0
  minute := 0
  second := 0
  millisecond := 0

/-- The `localtime` of a zone in which the year begins at the instant `1767225600`. -/
def newYearLocaltime (seconds : Int) : Tm :=
  if seconds < 1767225600 then ⟨31, 11, 125, 0, 0, 0⟩ else ⟨1, 0, 126, 0, 0, 0⟩

theorem shows_newYear : newYear.Shows newYearLocaltime 1767225600000 := ⟨by decide, by decide⟩

theorem shows_newYearsEve : newYearsEve.Shows newYearLocaltime 1767139200000 :=
  ⟨by decide, by decide⟩

/-- A day early the order does not expire. -/
theorem expires_on_time_iff_newYearsEve :
    OnTime newYear newYearsEve
      (scanOrder countingEnv (getDateTime newYearLocaltime 1767139200000)
        (getDailyTime newYearLocaltime 1767139200000) (Database.demo 0 1) newYearRow) := by
  obtain ⟨-, exactly⟩ := expires_on_time_iff reachable_newYearServer newYearRow_mem
  exact (exactly newYearLine newYear newYearsEve newYearLocaltime 1767139200000 _
    submittedBy_newYearLine (by decide) (LocalTime.readValidity_text (by decide))
    shows_newYearsEve).mpr (.inl (by decide))

/-- At the deadline it is released, if the price is in its band. -/
theorem newYear_missed : ¬∀ (s : Server) (row : OrderRow),
    Server.Reachable countingEnv .stored s → row ∈ s.market.db.getWaitingOrders →
    ∀ (line : OrderLine) (deadline now : LocalTime) (localtime : Int → Tm) (timeMs : Int),
      SubmittedBy countingEnv line row → deadline.year < 10000 →
      readValidity deadline.dateText deadline.timeText
        = .ok (line.validityDate, line.validityDaily) →
      now.Shows localtime timeMs →
      OnTime deadline now (scanOrder countingEnv (getDateTime localtime timeMs)
        (getDailyTime localtime timeMs) s.market.db row) := by
  intro claim
  have onTime := claim newYearServer newYearRow reachable_newYearServer newYearRow_mem newYearLine
    newYear newYear newYearLocaltime 1767225600000 submittedBy_newYearLine (by decide)
    (LocalTime.readValidity_text (by decide)) shows_newYear
  have released : scanOrder countingEnv (getDateTime newYearLocaltime 1767225600000)
      (getDailyTime newYearLocaltime 1767225600000) newYearServer.market.db newYearRow
        = .released := by decide +kernel
  exact onTime.released released (by decide)

end StockMarket.Sql
