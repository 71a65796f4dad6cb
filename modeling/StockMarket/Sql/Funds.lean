import StockMarket.Sql.DateEncoding
import StockMarket.Sql.Identity

/-!
The commands for funds.

A client deposits and withdraws with the lines `amount [value] deposit` and
`amount [value] withdraw`, as the help of the client program says
(`Src_SQL/client_account.cpp`), and the program puts his id before the line. `handle_client`
looks for the keyword anywhere in the message, and then reads an id and an amount from its
beginning. There the word `amount` stands, so the extraction of the amount fails and leaves 0.
Nothing is ever deposited or withdrawn by such a line, and this is right only if it asks for more
than is available (`funds_iff`). The server's own comments expect the value in that place, and
without the word the line does what it should (`plainLine_documented`).
-/

namespace StockMarket.Sql

open Client Database

/-! ### What the client program sends -/

inductive FundsCommand where
  | deposit
  | withdraw
  deriving DecidableEq

def FundsCommand.keyword : FundsCommand → String
  | .deposit => "deposit"
  | .withdraw => "withdraw"

/-- An amount in decimal notation, with `places` digits behind the point. -/
structure DecimalAmount where
  whole : Nat
  places : Nat
  fraction : Nat
  fraction_lt : fraction < 10 ^ places := by decide

def DecimalAmount.value (v : DecimalAmount) : ℚ := v.whole + v.fraction / 10 ^ v.places

def DecimalAmount.text (v : DecimalAmount) : String :=
  if v.places = 0 then toString v.whole
  else toString v.whole ++ "." ++ String.ofList (LocalTime.padded v.places v.fraction)

/-- `amount [value] [deposit/withdraw]`. -/
def FundsCommand.line (command : FundsCommand) (v : DecimalAmount) : String :=
  "amount " ++ v.text ++ " " ++ command.keyword

/-- The same without the word, as the comments of `handle_client` have it. -/
def FundsCommand.plainLine (command : FundsCommand) (v : DecimalAmount) : String :=
  v.text ++ " " ++ command.keyword

/-- The message that the client program sends for a line. -/
def clientMessage (clientId : ID) (line : String) : String :=
  toString clientId ++ " " ++ line

example : clientMessage 1 (FundsCommand.deposit.line ⟨50, 2, 5, by decide⟩)
    = "1 amount 50.05 deposit" := by decide

/-! ### What it should do -/

/-- The balance of one client changes by an amount, and no other does. -/
def Changes (client : ID) (amount : ℚ) (d d' : Database) : Prop :=
  ∀ c, d'.ledger.cash c = d.ledger.cash c + if c = client then amount else 0

/-- The documented effect of a command. -/
def FundsCommand.Documented (env : Env) (command : FundsCommand) (client : ID) (amount : ℚ)
    (d d' : Database) : Prop :=
  match command with
  | .deposit => Changes client amount d d'
  | .withdraw =>
    if amount ≤ d.availableBalance env client then Changes client (-amount) d d' else d' = d

/-- The server handles a message, and does what it has to do for it, before any other thread
does anything. -/
def Server.serve (env : Env) (s : Server) (r : Received) : Except StdException Server := do
  let handled ← handleInput env r
  match handled.effect with
  | none => return s
  | some effect =>
    let acted := s.act effect
    let todo := acted.tasks.drop s.tasks.length
    return todo.foldl (fun s t => s.perform env t) { acted with tasks := s.tasks }

/-! ### The text of a message -/

/-- The characters of these messages, apart from those of the keyword. -/
def IsPlain (c : Char) : Prop := c.isDigit ∨ c ∈ " -.".toList ∨ c ∈ "amount".toList

instance : DecidablePred IsPlain := fun c => by
  unfold IsPlain
  infer_instance

/-- A message of an id and some words, of which the last is the keyword. -/
structure FundsWords (client : ID) (words : List String) (command : FundsCommand)
    (input : String) : Prop where
  text : input.toList = (toString client).toList ++ writeFields (words ++ [command.keyword])
  plain : ∀ word ∈ words, ∀ c ∈ word.toList, IsPlain c

section

variable {client : ID} {v : DecimalAmount} {command : FundsCommand} {words : List String}
  {input : String}

theorem isPlain_of_mem_toString {n : Int} : ∀ c ∈ (toString n).toList, IsPlain c := by
  intro c mem
  cases n with
  | ofNat n => exact .inl (isDigit_of_mem_toString c mem)
  | negSucc n =>
      rw [toList_toString_negSucc] at mem
      rcases List.mem_cons.mp mem with rfl | mem
      · decide
      · exact .inl (isDigit_of_mem_toString c mem)

theorem isDigit_of_mem_padded {width n : Nat} :
    ∀ c ∈ LocalTime.padded width n, c.isDigit := by
  intro c mem
  obtain ⟨d, small, rfl⟩ := LocalTime.mem_padded mem
  have digits : ∀ d < 10, (Nat.digitChar d).isDigit := by decide
  exact digits d small

/-- The text of an amount has digits and a point. -/
theorem mem_text : ∀ c ∈ v.text.toList, c.isDigit ∨ c = '.' := by
  intro c mem
  unfold DecimalAmount.text at mem
  split at mem
  · exact .inl (isDigit_of_mem_toString c mem)
  · simp only [String.toList_append, String.toList_ofList, List.mem_append] at mem
    rcases mem with (whole | point) | fraction
    · exact .inl (isDigit_of_mem_toString c whole)
    · exact .inr (List.mem_singleton.mp point)
    · exact .inl (isDigit_of_mem_padded c fraction)

theorem isPlain_of_mem_text : ∀ c ∈ v.text.toList, IsPlain c := by
  intro c mem
  rcases mem_text c mem with digit | rfl
  · exact .inl digit
  · decide

/-- The documented line. -/
theorem fundsWords_line (client : ID) (v : DecimalAmount) (command : FundsCommand) :
    FundsWords client ["amount", v.text] command (clientMessage client (command.line v)) where
  text := by simp [clientMessage, FundsCommand.line, writeFields, String.toList_append]
  plain := by
    intro word mem c char
    rcases List.mem_pair.mp mem with rfl | rfl
    · exact .inr (.inr char)
    · exact isPlain_of_mem_text c char

/-- The line that the server expects. -/
theorem fundsWords_plainLine (client : ID) (v : DecimalAmount) (command : FundsCommand) :
    FundsWords client [v.text] command (clientMessage client (command.plainLine v)) where
  text := by simp [clientMessage, FundsCommand.plainLine, writeFields, String.toList_append]
  plain := by
    intro word mem c char
    rw [List.mem_singleton.mp mem] at char
    exact isPlain_of_mem_text c char

namespace FundsWords

theorem mem (message : FundsWords client words command input) :
    ∀ c ∈ input.toList, IsPlain c ∨ c ∈ command.keyword.toList := by
  intro c mem
  rw [message.text, List.mem_append, writeFields, List.mem_flatMap] at mem
  rcases mem with client | ⟨word, here, char⟩
  · exact .inl (isPlain_of_mem_toString c client)
  · rcases List.mem_cons.mp char with rfl | char
    · exact .inl (by decide)
    · rcases List.mem_append.mp here with here | last
      · exact .inl (message.plain word here c char)
      · exact .inr (List.mem_singleton.mp last ▸ char)

/-- A word with another character in it is not found. -/
theorem absent (message : FundsWords client words command input) (word : String) (c : Char)
    (mem : c ∈ word.toList) (other : ¬(IsPlain c ∨ c ∈ command.keyword.toList)) :
    ¬word.toList <:+: input.toList :=
  fun here => other (message.mem c (here.subset mem))

theorem found (message : FundsWords client words command input) :
    command.keyword.toList <:+: input.toList := by
  rw [message.text]
  refine ⟨(toString client).toList ++ writeFields words ++ [' '], [], ?_⟩
  simp [writeFields]

/-- The id at the beginning is read. -/
theorem extractSigned (message : FundsWords client words command input) (old : Int)
    (int : FitsInt32 client) :
    Sql.extractSigned 32 old (some input.toList)
      = (client, some (writeFields (words ++ [command.keyword]))) := by
  obtain ⟨low, high⟩ := int
  rw [message.text, Sql.extractSigned, extractInt, extract_start (reads_int client)]
  simp only
  rw [if_neg (by omega), if_neg (by omega)]

end FundsWords

/-! ### What the server reads -/

/-- What `handle_client` makes of a command and an amount. -/
def FundsCommand.request (command : FundsCommand) (client : ID) (amount : ℚ) : Request :=
  match command with
  | .deposit => .deposit client amount
  | .withdraw => .withdraw client amount

/-- **Reading.** The keyword is found, and the word behind the id is taken for the amount. -/
theorem readRequest_words (message : FundsWords client words command input)
    (int : FitsInt32 client) (u : Uninitialised) :
    readRequest u input = command.request client
      (extractDouble u.amount (some (writeFields (words ++ [command.keyword])))).1 := by
  have noLogin : ¬authentificationPrefix.toList <+: input.toList := fun start =>
    message.absent _ 'A' (by decide) (by cases command <;> decide) start.isInfix
  have notConnected :=
    message.absent "CLIENT_CONNECTED" 'C' (by decide) (by cases command <;> decide)
  have noExit := message.absent "exit" 'x' (by decide) (by cases command <;> decide)
  have noDisplay := message.absent "display" 'y' (by decide) (by cases command <;> decide)
  have id := message.extractSigned u.clientId int
  unfold readRequest
  simp only [noLogin, notConnected, noExit, noDisplay, decide_false, if_false, Bool.false_eq_true]
  cases command with
  | deposit =>
      have found : "deposit".toList <:+: input.toList := message.found
      simp only [found, decide_true, if_true, id, FundsCommand.request]
  | withdraw =>
      have found : "withdraw".toList <:+: input.toList := message.found
      have noDeposit := message.absent "deposit" 'p' (by decide) (by decide)
      simp only [found, noDeposit, decide_true, decide_false, if_true, if_false,
        Bool.false_eq_true, id, FundsCommand.request]

/-- The word `amount` is no number, and leaves 0. -/
theorem extractDouble_amount (old : ℚ) (fields : List String) :
    extractDouble old (some (writeFields ("amount" :: fields))) = (0, none) := by
  have word : (writeFields ("amount" :: fields)).dropWhile isSpace
      = 'a' :: ("mount".toList ++ writeFields fields) := by
    simp [writeFields, isSpace]
  have unreadable : readDecimal ('a' :: ("mount".toList ++ writeFields fields)) = none := by
    have digit : digitValue 10 'a' = none := by decide
    simp [readDecimal, readSign, readDigits, digit]
  simp only [extractDouble, extract, word, unreadable]

theorem isWord_text (v : DecimalAmount) : IsWord v.text := by
  constructor
  · unfold DecimalAmount.text
    split
    · exact toString_ne_nil v.whole
    · simp
  · intro c mem
    rcases mem_text c mem with digit | rfl
    · exact isSpace_of_isDigit digit
    · decide

/-- What follows a field is no exponent. -/
theorem readExponentPart_writeFields (fields : List String) :
    readExponentPart (writeFields fields) = some (0, writeFields fields) := by
  cases fields with
  | nil => rfl
  | cons field fields => rfl

/-- An amount without a point. -/
theorem readDecimal_whole (n : Nat) (fields : List String) :
    readDecimal ((toString n).toList ++ writeFields fields)
      = some ((n : ℚ), writeFields fields) := by
  have some := mt List.length_eq_zero_iff.mp (toString_ne_nil n)
  have digits := readDigits_toString n (ends_writeFields fields)
  have exponent := readExponentPart_writeFields fields
  rw [readDecimal, readSign_digits isDigit_of_mem_toString (toString_ne_nil n)]
  simp only [digits]
  cases fields with
  | nil =>
      have nil : writeFields [] = [] := rfl
      simp only [nil] at exponent ⊢
      simp only [exponent, Nat.add_zero, if_neg some, Option.map_some, scale]
      simp
  | cons field fields =>
      have blank : writeFields (field :: fields)
          = ' ' :: (field.toList ++ writeFields fields) := rfl
      have other : ¬ ' ' = '.' := by decide
      simp only [blank] at exponent ⊢
      simp only [other, exponent, Nat.add_zero, if_neg some, if_false, Option.map_some, scale]
      simp

/-- An amount with one. -/
theorem readDecimal_point {n places fraction : Nat} (few : fraction < 10 ^ places)
    (pos : places ≠ 0) (fields : List String) :
    readDecimal ((toString n).toList ++ '.' :: (LocalTime.padded places fraction
        ++ writeFields fields))
      = some ((n : ℚ) + fraction / 10 ^ places, writeFields fields) := by
  have point : ∀ c ∈ ('.' :: (LocalTime.padded places fraction
      ++ writeFields fields)).head?, digitValue 10 c = none := by
    intro c mem
    cases mem
    rfl
  have digits := readDigits_toString n point
  have behind : readDigits 10 n 0 (LocalTime.padded places fraction ++ writeFields fields)
      = (n * 10 ^ places + fraction, places, writeFields fields) := by
    have ends := readDigits_append (List.forall_mem_nil _) (ends_writeFields fields)
      (n * 10 ^ places + fraction) places
    rw [LocalTime.readDigits_padded, Nat.mod_eq_of_lt few, Nat.zero_add]
    simpa using ends
  have exponent := readExponentPart_writeFields fields
  have some : (toString n).toList.length + places ≠ 0 := by omega
  rw [readDecimal, readSign_digits isDigit_of_mem_toString (toString_ne_nil n)]
  simp only [digits, if_true, behind, if_neg some, exponent, Option.map_some]
  have value : scale 10 (0 - (places : Int)) ((n * 10 ^ places + fraction : Nat) : ℚ)
      = n + fraction / 10 ^ places := by
    have negative : ¬(0 : Int) ≤ 0 - places := by omega
    have exponent : (-(0 - (places : Int))).toNat = places := by omega
    rw [scale, if_neg negative, exponent]
    push_cast
    rw [add_div, mul_div_cancel_right₀ _ (pow_ne_zero _ (by decide +kernel))]
  rw [value, if_neg (by decide)]

/-- **A decimal amount is read** as its value. -/
theorem reads_amount (v : DecimalAmount) : Reads readDecimal v.text v.value where
  word := isWord_text v
  reads := fun fields => by
    unfold DecimalAmount.text DecimalAmount.value
    split
    · rename_i none
      have nothing : v.fraction = 0 := by
        have few := v.fraction_lt
        rw [none] at few
        omega
      rw [readDecimal_whole, none, nothing]
      simp
    · rename_i places
      simp only [String.toList_append, String.toList_ofList, List.append_assoc]
      exact readDecimal_point v.fraction_lt places fields

/-- The amount is neither taken for 0 nor too large. -/
structure DecimalAmount.FitsDouble (v : DecimalAmount) : Prop where
  low : 1 / 2 ^ 1075 < v.value
  high : v.value < 2 ^ 1024 - 2 ^ 970

theorem DecimalAmount.FitsDouble.pos (fits : v.FitsDouble) : 0 < v.value :=
  lt_trans (one_div_pos.mpr (pow_pos zero_lt_two _)) fits.low

theorem extractDouble_text (fits : v.FitsDouble) (old : ℚ) (fields : List String) :
    extractDouble old (some (writeFields (v.text :: fields)))
      = (v.value, some (writeFields fields)) := by
  rw [extractDouble, extract_field (reads_amount v)]
  simp only [abs_of_pos fits.pos]
  rw [if_neg (not_le.mpr fits.high), if_neg (not_le.mpr fits.low)]

/-! ### What the server does -/

/-- What the two branches of `handle_client` do to the database. -/
def FundsCommand.apply (env : Env) (command : FundsCommand) (client : ID) (amount : ℚ)
    (d : Database) : Database :=
  match command with
  | .deposit => if d.clientExists client then Client.deposit client amount d else d
  | .withdraw =>
    if d.clientExists client ∧ canAfford env client (-1) 1 amount d then
      Client.withdraw client amount d
    else d

variable {env : Env} {s : Server} {r : Received} {d d' : Database} {amount : ℚ}

/-- **Acting.** -/
theorem serve_request (request : r.request = command.request client amount)
    (db : r.db = s.market.db) :
    ∃ s', s.serve env r = .ok s' ∧
      s'.market.db = command.apply env client amount s.market.db := by
  cases command with
  | deposit =>
      have handled : handleInput env r = .ok
          { effect :=
              if r.db.clientExists client then some (.deposit client amount) else none } := by
        rw [handleInput, request]
        rfl
      by_cases known : s.market.db.clientExists client
      · rw [db, if_pos known] at handled
        refine ⟨_, by rw [Server.serve, handled]; rfl, ?_⟩
        simp [Server.act, Server.withDb, FundsCommand.apply, known]
      · rw [db, if_neg known] at handled
        exact ⟨s, by rw [Server.serve, handled]; rfl, by simp [FundsCommand.apply, known]⟩
  | withdraw =>
      have handled : handleInput env r = .ok
          { effect := if r.db.clientExists client ∧ canAfford env client (-1) 1 amount r.db then
              some (.askWithdrawal client amount) else none } := by
        rw [handleInput, request]
        rfl
      by_cases passes : s.market.db.clientExists client ∧
        canAfford env client (-1) 1 amount s.market.db
      · rw [db, if_pos passes] at handled
        refine ⟨_, by rw [Server.serve, handled]; rfl, ?_⟩
        simp [Server.act, Server.addTask, Server.perform, Server.withDb, FundsCommand.apply, passes]
      · rw [db, if_neg passes] at handled
        refine ⟨s, by rw [Server.serve, handled]; rfl, ?_⟩
        simp only [FundsCommand.apply, if_neg passes]

theorem serve_words (message : FundsWords client words command input) (int : FitsInt32 client)
    (env : Env) (s : Server) (r : Received) :
    ∃ s', s.serve env { r with input := input, db := s.market.db } = .ok s' ∧
      s'.market.db = command.apply env client (extractDouble r.uninitialised.amount
        (some (writeFields (words ++ [command.keyword])))).1 s.market.db :=
  serve_request (readRequest_words message int r.uninitialised) rfl

theorem deposit_zero (client : ID) (d : Database) : Client.deposit client 0 d = d := by
  simp [Client.deposit]

theorem withdraw_zero (client : ID) (d : Database) : Client.withdraw client 0 d = d := by
  have clients : (d.clients.update (fun c => c.clientId = client)
      (fun c => { c with balance := c.balance - 0 }) fun _ => rfl) = d.clients :=
    Relation.update_eq_self fun c => by simp
  rw [Client.withdraw, clients]

/-- To move nothing changes nothing. -/
theorem apply_zero (env : Env) (client : ID) (d : Database) (command : FundsCommand) :
    command.apply env client 0 d = d := by
  cases command with
  | deposit => rw [FundsCommand.apply, deposit_zero, ite_self]
  | withdraw => rw [FundsCommand.apply, withdraw_zero, ite_self]

theorem clientExists_of_known (known : (d.clients.find client).isSome) (int : FitsInt32 client) :
    d.clientExists client := by
  obtain ⟨c, found⟩ := Option.isSome_iff_exists.mp known
  have id : c.clientId = client := (Relation.find_some_iff.mp found).2
  simp [clientExists, Relation.select_key, found, executeSqlQueryId, id,
    columnInt_of_bounds int.1 int.2]

/-- **The two branches do what is documented**, with the amount they have read. -/
theorem apply_documented (known : (d.clients.find client).isSome) (int : FitsInt32 client)
    (pos : 0 < amount) (command : FundsCommand) :
    command.Documented env client amount d (command.apply env client amount d) := by
  have exists' := clientExists_of_known known int
  cases command with
  | deposit =>
      intro c
      rw [FundsCommand.apply, if_pos exists', (cash_deposit known).1 c, max_eq_left pos.le]
  | withdraw =>
      have covers : canAfford env client (-1) 1 amount d ↔
          amount ≤ d.availableBalance env client := by
        simp [canAfford, cost, pos.le]
      simp only [FundsCommand.Documented, FundsCommand.apply, exists', true_and, covers]
      split
      · exact (cash_withdraw known).1
      · rfl

/-- **The line that the server expects** has its documented effect. -/
theorem plainLine_documented (known : (s.market.db.clients.find client).isSome)
    (int : FitsInt32 client) (fits : v.FitsDouble) :
    ∃ s', s.serve env { r with
        input := clientMessage client (command.plainLine v), db := s.market.db } = .ok s' ∧
      command.Documented env client v.value s.market.db s'.market.db := by
  obtain ⟨s', served, db⟩ := serve_words (fundsWords_plainLine client v command) int env s r
  rw [List.singleton_append, extractDouble_text fits] at db
  refine ⟨s', served, ?_⟩
  rw [db]
  exact apply_documented known int fits.pos command

/-! ### The documented line -/

/-- An amount that is not 0 does not leave a balance as it is. -/
theorem not_changes_self (some : amount ≠ 0) : ¬Changes client amount d d := by
  intro changes
  have own := changes client
  simp only [if_true, left_eq_add] at own
  exact some own

/-- What is documented comes about without any change only if it is a withdrawal of more than is
available. -/
theorem documented_self_iff (pos : 0 < amount) :
    command.Documented env client amount d d ↔
      command = .withdraw ∧ d.availableBalance env client < amount := by
  cases command with
  | deposit =>
      have wrong : ¬Changes client amount d d := not_changes_self pos.ne'
      simpa [FundsCommand.Documented] using wrong
  | withdraw =>
      have wrong : ¬Changes client (-amount) d d := not_changes_self (neg_ne_zero.mpr pos.ne')
      simp only [FundsCommand.Documented, true_and]
      split
      · rename_i covered
        exact iff_of_false wrong (not_lt.mpr covered)
      · rename_i more
        exact iff_of_true trivial (not_le.mp more)

/-- The documented line changes nothing, as the amount is read where the word `amount` stands. -/
theorem serve_line (int : FitsInt32 client) (v : DecimalAmount) (command : FundsCommand)
    (env : Env) (s : Server) (r : Received) :
    ∃ s', s.serve env { r with
        input := clientMessage client (command.line v), db := s.market.db } = .ok s' ∧
      s'.market.db = s.market.db := by
  obtain ⟨s', served, db⟩ := serve_words (fundsWords_line client v command) int env s r
  rw [List.cons_append, extractDouble_amount, apply_zero] at db
  exact ⟨s', served, db⟩

/-- **A line for funds has its documented effect** if and only if it is to withdraw more than
is available. -/
theorem funds_iff (int : FitsInt32 client) (pos : 0 < v.value) :
    (∃ s', s.serve env { r with
          input := clientMessage client (command.line v), db := s.market.db } = .ok s' ∧
        command.Documented env client v.value s.market.db s'.market.db) ↔
      command = .withdraw ∧ s.market.db.availableBalance env client < v.value := by
  obtain ⟨s', served, same⟩ := serve_line int v command env s r
  rw [← documented_self_iff pos]
  constructor
  · rintro ⟨s'', served', documented⟩
    obtain rfl := Except.ok.inj (served.symm.trans served')
    rwa [same] at documented
  · exact fun documented => ⟨s', served, by rwa [same]⟩

end

/-! ### The first client of `init` -/

/-- `1 amount 5000 withdraw`, of a client with 1000. -/
theorem funds_iff_overdraft :
    ∃ s', ({ market := { db := Database.demo 0 1 } } : Server).serve countingEnv
        { demoReceived "" with
          input := clientMessage 1 (FundsCommand.withdraw.line ⟨5000, 0, 0, by decide⟩)
          db := Database.demo 0 1 } = .ok s' ∧
      FundsCommand.withdraw.Documented countingEnv 1
        (DecimalAmount.value ⟨5000, 0, 0, by decide⟩) (Database.demo 0 1) s'.market.db :=
  (funds_iff (s := { market := { db := Database.demo 0 1 } }) (by decide) (by decide +kernel)).mpr
    ⟨rfl, by decide +kernel⟩

/-- `1 amount 50 deposit` deposits nothing. -/
theorem deposit_ignored : ¬∀ (env : Env) (s : Server) (r : Received) (client : ID)
    (v : DecimalAmount) (command : FundsCommand), (s.market.db.clients.find client).isSome →
    FitsInt32 client → 0 < v.value →
    ∃ s', s.serve env { r with
        input := clientMessage client (command.line v), db := s.market.db } = .ok s' ∧
      command.Documented env client v.value s.market.db s'.market.db := by
  intro claim
  obtain ⟨s', served, documented⟩ := claim countingEnv { market := { db := Database.demo 0 1 } }
    (demoReceived "") 1 ⟨50, 0, 0, by decide⟩ .deposit (by decide) (by decide) (by decide +kernel)
  obtain ⟨s'', served', same⟩ := serve_line (by decide : FitsInt32 1) ⟨50, 0, 0, by decide⟩
    .deposit countingEnv { market := { db := Database.demo 0 1 } } (demoReceived "")
  obtain rfl := Except.ok.inj (served.symm.trans served')
  rw [same] at documented
  exact not_changes_self (by decide +kernel) documented

end StockMarket.Sql
