import StockMarket.Net.Stream
import StockMarket.Sql.Dates

/-!
Messages of a client (`handle_client` in `Src_SQL/server.cpp`).

A message is read with `>>` into variables that are not initialised (`readRequest`), and then
handled (`handleInput`). An exception that `std::stoi`, `std::stoll`, `std::stod` or `substr`
throws on the way leaves `handle_client`, and nothing above it catches one.

Texts of responses are left out, except for those that refuse an order. The text of a message
has a character for each byte (`textOfBytes`), so that a length or a position in it counts
bytes, and no zero byte in it. Amounts are exact, but for those that a `double` cannot tell
from 0 or that are too large for it.
-/

namespace StockMarket.Sql

open Client Database

/-! ### Streams -/

/-- `stream >> n` for an integer with so many bits. -/
def extractSigned (bits : Nat) (old : Int) (s : InStream) : Int × InStream :=
  match extractInt old s with
  | (n, none) => (n, none)
  | (n, some rest) =>
    if n < -2 ^ (bits - 1) then (-2 ^ (bits - 1), none)
    else if 2 ^ (bits - 1) ≤ n then (2 ^ (bits - 1) - 1, none)
    else (n, some rest)

/-- The exponent of a decimal number. Its mark without digits after it makes the number
unreadable. -/
def readExponentPart : List Char → Option (Int × List Char)
  | [] => some (0, [])
  | c :: cs =>
    if c = 'e' ∨ c = 'E' then
      let (negative, digits) := readSign cs
      let (value, count, rest) := readDigits 10 0 0 digits
      if count = 0 then none else some (if negative then -value else value, rest)
    else some (0, c :: cs)

/-- A decimal number with a point and an exponent. -/
def readDecimal (text : List Char) : Option (ℚ × List Char) :=
  let (negative, body) := readSign text
  let (whole, before, rest) := readDigits 10 0 0 body
  let (mantissa, behind, rest) :=
    match rest with
    | [] => (whole, 0, [])
    | c :: cs => if c = '.' then readDigits 10 whole 0 cs else (whole, 0, rest)
  if before + behind = 0 then none
  else
    (readExponentPart rest).map fun (exponent, rest) =>
      let magnitude := scale 10 (exponent - behind) mantissa
      (if negative then -magnitude else magnitude, rest)

/-- The largest `double`. -/
def maxDouble : ℚ := 2 ^ 1024 - 2 ^ 971

/-- `stream >> x` for a `double`. -/
def extractDouble (old : ℚ) (s : InStream) : ℚ × InStream :=
  match extract 0 readDecimal old s with
  | (x, none) => (x, none)
  | (x, some rest) =>
    if 2 ^ 1024 - 2 ^ 970 ≤ |x| then (if x < 0 then -maxDouble else maxDouble, none)
    else (if |x| ≤ 1 / 2 ^ 1075 then 0 else x, some rest)

/-! ### Requests -/

/-- What the variables of a request hold before anything is read into them. -/
structure Uninitialised where
  clientId : ID
  quantity : Int
  actionId : ID
  amount : ℚ
  price : ℚ
  triggerPriceLower : ℚ
  triggerPriceUpper : ℚ

deriving instance DecidableEq for OrderLine

/-- A message, as `handle_client` reads it. -/
inductive Request where
  | authentification (credentials : Option (String × String))
  | connected (client : ID)
  | exit (client : ID)
  | display (client : ID) (displayType : String)
  | deposit (client : ID) (amount : ℚ)
  | withdraw (client : ID) (amount : ℚ)
  | order (line : OrderLine) (validityDateStr validityDailyTimeStr : String)
  deriving DecidableEq

def authentificationPrefix : String := "Authentification Request: "

/-- `ss >> username >> password`, if it succeeds. -/
def readCredentials (text : List Char) : Option (String × String) :=
  let (username, s) := extractWord "" (some text)
  let (password, s) := extractWord "" s
  s.map fun _ => (username, password)

/-- The prices of an order line that its trigger asks for. -/
def readPrices (u : Uninitialised) (triggerTypeStr : String) (s : InStream) :
    (ℚ × ℚ × ℚ) × InStream :=
  if triggerTypeStr = "LIMIT" then
    let (price, s) := extractDouble u.price s
    let (lower, s) := extractDouble u.triggerPriceLower s
    ((price, lower, u.triggerPriceUpper), s)
  else if triggerTypeStr = "STOP" then
    let (price, s) := extractDouble u.price s
    let (upper, s) := extractDouble u.triggerPriceUpper s
    ((price, u.triggerPriceLower, upper), s)
  else if triggerTypeStr = "LIMIT_STOP" then
    let (price, s) := extractDouble u.price s
    let (lower, s) := extractDouble u.triggerPriceLower s
    let (upper, s) := extractDouble u.triggerPriceUpper s
    ((price, lower, upper), s)
  else ((u.price, u.triggerPriceLower, u.triggerPriceUpper), s)

/-- An order line, and the texts of its validity. -/
def readOrder (u : Uninitialised) (text : List Char) : Request :=
  let (client, s) := extractSigned 64 u.clientId (some text)
  let (typeStr, s) := extractWord "" s
  let (quantity, s) := extractSigned 32 u.quantity s
  let (action, s) := extractSigned 64 u.actionId s
  let (triggerTypeStr, s) := extractWord "" s
  let ((price, lower, upper), s) := readPrices u triggerTypeStr s
  let (validityDateStr, s) := extractWord "" s
  let (validityDailyTimeStr, _) := extractWord "" s
  .order
    { clientId := client
      typeStr := typeStr
      quantity := quantity
      actionId := action
      triggerTypeStr := triggerTypeStr
      price := price
      triggerPriceLower := lower
      triggerPriceUpper := upper }
    validityDateStr validityDailyTimeStr

/-- The branches of `handle_client`, in their order. -/
def readRequest (u : Uninitialised) (input : String) : Request :=
  let text := input.toList
  let contains (keyword : String) : Bool := keyword.toList <:+: text
  if authentificationPrefix.toList <+: text then
    .authentification (readCredentials (text.drop authentificationPrefix.length))
  else if contains "CLIENT_CONNECTED" then
    .connected (extractSigned 64 u.clientId (some text)).1
  else if contains "exit" then
    .exit (extractSigned 64 u.clientId (some text)).1
  else if contains "display" then
    let (client, s) := extractSigned 64 u.clientId (some text)
    let (_, s) := extractWord "" s
    .display client (extractWord "" s).1
  else if contains "deposit" then
    let (client, s) := extractSigned 32 u.clientId (some text)
    .deposit client (extractDouble u.amount s).1
  else if contains "withdraw" then
    let (client, s) := extractSigned 32 u.clientId (some text)
    .withdraw client (extractDouble u.amount s).1
  else readOrder u text

/-! ### Answers of the database -/

/-- A price with its time, in columns that are not NULL. The text of the price is that of a
REAL. -/
structure PriceInfo where
  price : String
  dateTime : Int64
  dailyTime : Int64

/-- An action with its latest price, of the market or of a portfolio. -/
structure ShareInfo where
  name : String
  quantity : Int64
  latest : PriceInfo

/-- An order, with the times it is printed with and the columns between. -/
structure OrderInfo where
  orderTimeDate : Int64
  orderTimeDaily : Int64
  columns : List String
  expirationTimeDate : Int64
  expirationTimeDaily : Int64
  eight : columns.length = 8

/-- What the database answers to the statements of one message that are not about the tables
of `Database`: who has a name and a password, which action has a name, and the rows of the
displays. An action has all of its prices, and is `none` if there is no such action. -/
structure Answers where
  clientIdIfNameAndPasswordRegistered : String → String → ID
  actionNamed : String → ID
  portfolio : ID → List ShareInfo
  orders : ID → OrderStatus → List OrderInfo
  book : OrderType → List OrderInfo
  actions : List ShareInfo
  action : ID → Option (String × Int64 × List PriceInfo)

/-- The text of an INTEGER. -/
def integerText (n : Int64) : String := toString n.toInt

/-- A row as `execute_SQL_query_vec_strings` has it. -/
def ShareInfo.portfolioRow (r : ShareInfo) : List String :=
  [r.name, integerText r.quantity, r.latest.price, integerText r.latest.dateTime,
    integerText r.latest.dailyTime]

def ShareInfo.marketRow (r : ShareInfo) : List String :=
  [r.name, integerText r.quantity, r.latest.price, integerText r.latest.dailyTime,
    integerText r.latest.dateTime]

def OrderInfo.row (r : OrderInfo) : List String :=
  [integerText r.orderTimeDate, integerText r.orderTimeDaily] ++ r.columns
    ++ [integerText r.expirationTimeDate, integerText r.expirationTimeDaily]

/-- The rows of an action and its prices. The LEFT JOIN answers an action without prices with
NULL in their place, which is made an empty text. -/
def actionRows (name : String) (quantity : Int64) : List PriceInfo → List (List String)
  | [] => [[name, integerText quantity, "", "", ""]]
  | prices => prices.map fun p =>
      [name, integerText quantity, p.price, integerText p.dateTime, integerText p.dailyTime]

/-! ### Displays -/

/-- `std::stod` of the text of a REAL. -/
def stod (text : String) : Except StdException Double :=
  match StockMarket.stod text with
  | none => .error .outOfRange
  | some x => .ok x

/-- The quantities, prices and times that `get_portfolio_info` prints. -/
def getPortfolioInfo (rows : List (List String)) :
    Except StdException (List (Int × Double × ID × ID)) :=
  (rows.filter fun row => 5 ≤ row.length).mapM fun row => do
    let quantity ← stoi (row.getD 1 "")
    let price ← stod (row.getD 2 "")
    let date ← stoll (row.getD 4 "")
    let daily ← stoll (row.getD 3 "")
    return (quantity, price, date, daily)

/-- The times in two columns of each row that is long enough. -/
def printTimes (size date daily : Nat) (rows : List (List String)) :
    Except StdException (List (ID × ID)) :=
  (rows.filter fun row => size ≤ row.length).mapM fun row => do
    return (← stoll (row.getD date ""), ← stoll (row.getD daily ""))

/-- The times that `get_pending_orders_info`, `get_completed_orders_info` and
`get_orders_info` print, and how they end. -/
def getOrdersInfo (rows : List (List String)) : Except StdException (List (ID × ID)) := do
  return (← printTimes 12 0 1 rows) ++ (← printTimes 12 10 11 rows)

/-- The times that `get_actions_info` prints. -/
def getActionsInfo : List (List String) → Except StdException (List (ID × ID)) :=
  printTimes 5 3 4

/-- The times that `get_action_info` prints. -/
def getActionInfo : List (List String) → Except StdException (List (ID × ID)) :=
  printTimes 5 3 4

/-- The branches of `display`. -/
def display (answers : Answers) (client : ID) (displayType : String) :
    Except StdException Unit :=
  if displayType = "portfolio" then
    discard (getPortfolioInfo ((answers.portfolio client).map ShareInfo.portfolioRow))
  else if displayType = "pending_orders" then
    discard (getOrdersInfo ((answers.orders client .pending).map OrderInfo.row))
  else if displayType = "completed_orders" then
    discard (getOrdersInfo ((answers.orders client .completed).map OrderInfo.row))
  else if displayType = "market" then do
    discard (getOrdersInfo ((answers.book .buy).map OrderInfo.row))
    discard (getOrdersInfo ((answers.book .sell).map OrderInfo.row))
    discard (getActionsInfo (answers.actions.map ShareInfo.marketRow))
  else if displayType ≠ "" ∧ answers.actionNamed displayType ≠ -1 then
    match answers.action (answers.actionNamed displayType) with
    | none => .ok ()
    | some (name, quantity, prices) => discard (getActionInfo (actionRows name quantity prices))
  else .ok ()

/-! ### Handling a message -/

/-- What a message makes the server do. -/
inductive Effect where
  | authenticated (client : ID)
  | registerClientSocket (client : ID)
  | deposit (client : ID) (amount : ℚ)
  | askWithdrawal (client : ID) (amount : ℚ)
  | placeOrder (o : OrderRow)
  deriving DecidableEq

/-- How the loop of `handle_client` goes on after a message. -/
structure Handled where
  leaves : Bool := false
  effect : Option Effect := none
  deriving DecidableEq

/-- The text of some bytes, with one character for each. -/
def textOfBytes (bytes : List UInt8) : String :=
  String.ofList (bytes.map fun b => Char.ofNat b.toNat)

/-- The text of a message, with what its branch finds: the variables, the answers of the
database, and the id and the time of a new order. -/
structure Received where
  input : String
  uninitialised : Uninitialised
  answers : Answers
  db : Database
  orderId : ID
  orderTimeDate : ID
  orderTimeDaily : ID

def Received.request (r : Received) : Request := readRequest r.uninitialised r.input

/-- What is checked of an order line before its validity is read. -/
def OrderLine.readTerms (line : OrderLine) : Except String (OrderTrigger × ℚ × ℚ × ℚ) := do
  readTrigger line (← readType line)

/-- The last branch of `handle_client`. -/
def handleOrder (env : Env) (r : Received) (line : OrderLine)
    (validityDateStr validityDailyTimeStr : String) : Except StdException Handled :=
  match line.readTerms with
  | .error _ => .ok {}
  | .ok _ => do
    let (validityDate, validityDaily) ← readValidity validityDateStr validityDailyTimeStr
    let line := { line with validityDate := validityDate, validityDaily := validityDaily }
    match admitOrder env line r.orderId r.orderTimeDate r.orderTimeDaily r.db with
    | .error _ => return {}
    | .ok o => return { effect := some (.placeOrder o) }

/-- One pass of the loop of `handle_client`. -/
def handleInput (env : Env) (r : Received) : Except StdException Handled :=
  match r.request with
  | .authentification none => .ok { leaves := true }
  | .authentification (some (username, password)) =>
    let client := r.answers.clientIdIfNameAndPasswordRegistered username password
    .ok { effect := if client ≠ -1 then some (.authenticated client) else none }
  | .connected client => .ok { effect := some (.registerClientSocket client) }
  | .exit _ => .ok { leaves := true }
  | .display client displayType => do
    display r.answers client displayType
    return {}
  | .deposit client amount =>
    .ok { effect := if r.db.clientExists client then some (.deposit client amount) else none }
  | .withdraw client amount =>
    .ok
      { effect :=
          if r.db.clientExists client ∧ canAfford env client (-1) 1 amount r.db then
            some (.askWithdrawal client amount)
          else none }
  | .order line validityDateStr validityDailyTimeStr =>
    handleOrder env r line validityDateStr validityDailyTimeStr

/-- The loop, over the messages that arrive until the client disconnects. -/
def handleClient (env : Env) : List Received → Except StdException (List Handled)
  | [] => .ok []
  | r :: rs => do
    let handled ← handleInput env r
    if handled.leaves then return [handled]
    else return handled :: (← handleClient env rs)

end StockMarket.Sql
