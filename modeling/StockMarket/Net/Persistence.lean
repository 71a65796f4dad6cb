import StockMarket.MatchingEngine
import StockMarket.Net.Auth

/-!
Snapshots of the exchange (`include/net/persistence.hpp`, `src/net/persistence.cpp`).

A snapshot is a text of lines, each with a tag. `save` copies the accounts, the
portfolios and the prices one after the other, each under its own mutex, and writes
them in the order in which it meets them. `load` puts accounts into the directory as
it reads them, keeps everything else in buffers, and applies these at the end.

What is a matter of files (opening them, the temporary file and its renaming) is
left out: a snapshot that cannot be read is `none`. The text of a `double` is a
`NumberFormat`. A variable that the source leaves uninitialised has a value of
`Uninitialised` until it is read.
-/

namespace StockMarket

open Atomic

variable {P : Type}

/-- How a `double` is printed with 17 digits, and how `>>` reads it. -/
structure NumberFormat (P : Type) where
  print : P → String
  read : List Char → Option (P × List Char)

/-- Every number is printed as a word, and the finite ones are read back exactly. -/
structure NumberFormat.Exact (format : NumberFormat P) (Finite : P → Prop) : Prop where
  word : ∀ x, IsWord (format.print x)
  reads : ∀ x, Finite x → Reads format.read (format.print x) x

/-- The state that the threads of a server share. -/
structure Exchange (P : Type) where
  directory : ClientDirectory
  engine : MatchingEngine P

/-! ### Saving -/

/-- The iteration orders that `save` meets. -/
structure SaveOrder (P : Type) where
  accounts : IterationOrder String Account
  portfolios : IterationOrder ClientId (Portfolio P)
  holdings : ClientId → IterationOrder Symbol Int
  prices : IterationOrder Symbol P

def accountLine (record : AccountRecord) : List Char :=
  writeLine "ACCOUNT"
    [record.username, toString record.clientId, record.saltHex, record.passwordHashHex]

def cashLine (format : NumberFormat P) (client : ClientId) (cash : P) : List Char :=
  writeLine "CASH" [toString client, format.print cash]

def holdingLine (client : ClientId) (symbol : Symbol) (quantity : Int) : List Char :=
  writeLine "HOLDING" [toString client, symbol, toString quantity]

def priceLine (format : NumberFormat P) (symbol : Symbol) (price : P) : List Char :=
  writeLine "PRICE" [symbol, format.print price]

/-- The holdings of a portfolio that are saved. -/
def savedHoldings (order : IterationOrder Symbol Int) (portfolio : Portfolio P) :
    List (Sigma fun _ : Symbol => Int) :=
  (order.walk portfolio.holdings).filter fun entry => entry.2 ≠ 0

def portfolioLines (format : NumberFormat P) (order : SaveOrder P) (client : ClientId)
    (portfolio : Portfolio P) : List (List Char) :=
  cashLine format client portfolio.cash ::
    (savedHoldings (order.holdings client) portfolio).map fun entry =>
      holdingLine client entry.1 entry.2

/-- The lines of a snapshot. -/
def snapshotLines (format : NumberFormat P) (order : SaveOrder P) (accounts : List AccountRecord)
    (portfolios : Table ClientId (Portfolio P)) (prices : Table Symbol P) : List (List Char) :=
  accounts.map accountLine ++
    ((order.portfolios.walk portfolios).flatMap fun entry =>
      portfolioLines format order entry.1 entry.2) ++
    (order.prices.walk prices).map fun entry => priceLine format entry.1 entry.2

/-- `PersistenceStore::save`: the text of the file. -/
def save (format : NumberFormat P) (order : SaveOrder P) : Prog (Exchange P) (List Char) := do
  let accounts ← .read fun x => x.directory.exportAccounts order.accounts
  let portfolios ← .read fun x => x.engine.portfolios
  let prices ← .read fun x => x.engine.lastPrices
  return writeLines (snapshotLines format order accounts portfolios prices)

/-! ### Loading -/

/-- The values of variables that have not been read yet. -/
structure Uninitialised (P : Type) where
  clientId : ClientId
  number : P
  quantity : Int

/-- `PendingHolding`. -/
structure PendingHolding where
  clientId : ClientId
  symbol : Symbol
  quantity : Int
  deriving DecidableEq, Repr

/-- The directory and the buffers while lines are read. -/
structure Pending (P : Type) where
  directory : ClientDirectory
  cash : Table ClientId P := ∅
  holdings : List PendingHolding := []
  prices : Table Symbol P := ∅

/-- The iteration orders that `load` meets. -/
structure LoadOrder (P : Type) where
  cash : IterationOrder ClientId P
  prices : IterationOrder Symbol P

section

variable [Zero P]

/-- `stream >> x` for a `double`. -/
def extractNumber (format : NumberFormat P) : P → InStream → P × InStream :=
  extract 0 format.read

/-- The body of the loop of `PersistenceStore::load`. -/
def loadLine (format : NumberFormat P) (junk : Uninitialised P) (p : Pending P)
    (line : List Char) : Pending P :=
  let (tag, stream) := extractWord "" (some line)
  if tag = "ACCOUNT" then
    let (username, stream) := extractWord "" stream
    let (clientId, stream) := extractInt junk.clientId stream
    let (saltHex, stream) := extractWord "" stream
    let (passwordHashHex, _) := extractWord "" stream
    { p with
      directory := p.directory.importAccount { username, clientId, saltHex, passwordHashHex } }
  else if tag = "CASH" then
    let (client, stream) := extractInt junk.clientId stream
    let (cash, _) := extractNumber format junk.number stream
    { p with cash := p.cash.insert client cash }
  else if tag = "HOLDING" then
    let (clientId, stream) := extractInt junk.clientId stream
    let (symbol, stream) := extractWord "" stream
    let (quantity, _) := extractInt junk.quantity stream
    { p with holdings := p.holdings ++ [{ clientId, symbol, quantity }] }
  else if tag = "PRICE" then
    let (symbol, stream) := extractWord "" stream
    let (price, _) := extractNumber format junk.number stream
    { p with prices := p.prices.insert symbol price }
  else p

/-- A holding of the second pass. -/
def applyHolding (e : MatchingEngine P) (holding : PendingHolding) : MatchingEngine P :=
  (e.ensureClient holding.clientId 0).grantInitialHoldings holding.clientId holding.symbol
    holding.quantity

/-- The second pass of `PersistenceStore::load`. -/
def applyPending (order : LoadOrder P) (p : Pending P) (e : MatchingEngine P) : MatchingEngine P :=
  let e := (order.cash.walk p.cash).foldl (fun e entry => e.ensureClient entry.1 entry.2) e
  let e := p.holdings.foldl applyHolding e
  (order.prices.walk p.prices).foldl (fun e entry => e.registerSymbol entry.1 entry.2) e

/-- `PersistenceStore::load`, and whether there was a file. -/
def load (format : NumberFormat P) (junk : Uninitialised P) (order : LoadOrder P)
    (x : Exchange P) : Option (List Char) → Bool × Exchange P
  | none => (false, x)
  | some text =>
    let p := (lines text).foldl (loadLine format junk) { directory := x.directory }
    (true, { directory := p.directory, engine := applyPending order p x.engine })

end

/-! ### Lines are read back -/

section

variable [Zero P] {format : NumberFormat P} {junk : Uninitialised P} (p : Pending P)

theorem extract_tag {tag : String} (word : IsWord tag) (fields : List String) :
    extractWord "" (some (writeLine tag fields)) = (tag, some (writeFields fields)) :=
  extract_start (reads_word word) fields

theorem loadLine_account {record : AccountRecord} (username : IsWord record.username)
    (salt : IsWord record.saltHex) (hash : IsWord record.passwordHashHex) :
    loadLine format junk p (accountLine record)
      = { p with directory := p.directory.importAccount record } := by
  have tag : extractWord "" (some (accountLine record)) = ("ACCOUNT", _) :=
    extract_tag (by decide) _
  unfold loadLine
  rw [tag]
  simp only [extractWord, extractInt, extract_field (reads_word username),
    extract_field (reads_int _), extract_field (reads_word salt),
    extract_field (reads_word hash), if_true]

theorem loadLine_cash (client : ClientId) (cash : P) :
    loadLine format junk p (cashLine format client cash)
      = { p with
          cash := p.cash.insert client
            (extractNumber format junk.number (some (writeFields [format.print cash]))).1 } := by
  have tag : extractWord "" (some (cashLine format client cash)) = ("CASH", _) :=
    extract_tag (by decide) _
  unfold loadLine
  rw [tag]
  simp only [extractInt, extract_field (reads_int _), String.reduceEq, if_false, if_true]

theorem loadLine_holding {symbol : Symbol} (word : IsWord symbol) (client : ClientId)
    (quantity : Int) : loadLine format junk p (holdingLine client symbol quantity)
      = { p with holdings := p.holdings ++ [⟨client, symbol, quantity⟩] } := by
  have tag : extractWord "" (some (holdingLine client symbol quantity)) = ("HOLDING", _) :=
    extract_tag (by decide) _
  unfold loadLine
  rw [tag]
  simp only [extractWord, extractInt, extract_field (reads_word word),
    extract_field (reads_int _), String.reduceEq, if_false, if_true]

theorem loadLine_price {symbol : Symbol} (word : IsWord symbol) (price : P) :
    loadLine format junk p (priceLine format symbol price)
      = { p with
          prices := p.prices.insert symbol
            (extractNumber format junk.number (some (writeFields [format.print price]))).1 } := by
  have tag : extractWord "" (some (priceLine format symbol price)) = ("PRICE", _) :=
    extract_tag (by decide) _
  unfold loadLine
  rw [tag]
  simp only [extractWord, extract_field (reads_word word), String.reduceEq, if_false, if_true]

/-! ### A snapshot is read back -/

/-- What `load` makes of the text of a number. -/
def NumberFormat.readBack (format : NumberFormat P) (junk : Uninitialised P) (x : P) : P :=
  (extractNumber format junk.number (some (writeFields [format.print x]))).1

theorem NumberFormat.Exact.readBack_eq {Finite : P → Prop} (exact : format.Exact Finite) {x : P}
    (finite : Finite x) : format.readBack junk x = x := by
  unfold NumberFormat.readBack extractNumber
  rw [extract_field (exact.reads x finite)]

/-- The usernames and credentials of the accounts are words. -/
def WordsOfAccounts (accounts : List AccountRecord) : Prop :=
  ∀ record ∈ accounts,
    IsWord record.username ∧ IsWord record.saltHex ∧ IsWord record.passwordHashHex

/-- The symbols of the holdings are words. -/
def WordsOfPortfolios (portfolios : Table ClientId (Portfolio P)) : Prop :=
  ∀ client portfolio, portfolios.lookup client = some portfolio →
    ∀ symbol ∈ portfolio.holdings, IsWord symbol

/-- The symbols of the prices are words. -/
def WordsOfPrices (prices : Table Symbol P) : Prop :=
  ∀ symbol ∈ prices, IsWord symbol

/-- The buffered holdings of the visited portfolios. -/
def bufferedHoldings (order : ClientId → IterationOrder Symbol Int)
    (entries : List (Sigma fun _ : ClientId => Portfolio P)) : List PendingHolding :=
  entries.flatMap fun entry =>
    (savedHoldings (order entry.1) entry.2).map fun holding => ⟨entry.1, holding.1, holding.2⟩

theorem foldl_accounts {accounts : List AccountRecord} (words : WordsOfAccounts accounts) :
    (accounts.map accountLine).foldl (loadLine format junk) p
      = { p with directory := p.directory.importAll accounts } := by
  induction accounts generalizing p with
  | nil => rfl
  | cons record accounts ih =>
      obtain ⟨username, salt, hash⟩ := words record List.mem_cons_self
      rw [List.map_cons, List.foldl_cons, loadLine_account p username salt hash,
        ih _ fun r mem => words r (List.mem_cons_of_mem _ mem)]
      rfl

theorem foldl_holdings {client : ClientId} {holdings : List (Sigma fun _ : Symbol => Int)}
    (words : ∀ holding ∈ holdings, IsWord holding.1) :
    (holdings.map fun holding => holdingLine client holding.1 holding.2).foldl
        (loadLine format junk) p
      = { p with
          holdings := p.holdings ++ holdings.map fun holding =>
            ⟨client, holding.1, holding.2⟩ } := by
  induction holdings generalizing p with
  | nil => rw [List.map_nil, List.map_nil, List.append_nil]; rfl
  | cons holding holdings ih =>
      rw [List.map_cons, List.foldl_cons, loadLine_holding p (words holding List.mem_cons_self),
        ih _ fun h mem => words h (List.mem_cons_of_mem _ mem)]
      simp only [List.map_cons, List.append_assoc, List.cons_append, List.nil_append]

theorem foldl_portfolios (order : SaveOrder P)
    {entries : List (Sigma fun _ : ClientId => Portfolio P)}
    (words : ∀ entry ∈ entries, ∀ symbol ∈ entry.2.holdings, IsWord symbol) :
    (entries.flatMap fun entry => portfolioLines format order entry.1 entry.2).foldl
        (loadLine format junk) p
      = { p with
          cash := Table.insertAll
            (entries.map fun entry => ⟨entry.1, format.readBack junk entry.2.cash⟩) p.cash
          holdings := p.holdings ++ bufferedHoldings order.holdings entries } := by
  induction entries generalizing p with
  | nil => simp only [List.flatMap_nil, List.foldl_nil, bufferedHoldings, List.append_nil]; rfl
  | cons entry entries ih =>
      have plain : ∀ holding ∈ savedHoldings (order.holdings entry.1) entry.2,
          IsWord holding.1 := fun holding mem => by
        have known := (order.holdings entry.1).mem_walk.mp (List.mem_filter.mp mem).1
        exact words entry List.mem_cons_self _
          (AList.lookup_isSome.mp (by rw [known]; rfl))
      rw [List.flatMap_cons, List.foldl_append, portfolioLines, List.foldl_cons, loadLine_cash,
        foldl_holdings _ plain, ih _ fun e mem => words e (List.mem_cons_of_mem _ mem)]
      simp only [bufferedHoldings, List.flatMap_cons, List.append_assoc]
      rfl

theorem foldl_prices {entries : List (Sigma fun _ : Symbol => P)}
    (words : ∀ entry ∈ entries, IsWord entry.1) :
    (entries.map fun entry => priceLine format entry.1 entry.2).foldl (loadLine format junk) p
      = { p with
          prices := Table.insertAll
            (entries.map fun entry => ⟨entry.1, format.readBack junk entry.2⟩) p.prices } := by
  induction entries generalizing p with
  | nil => rfl
  | cons entry entries ih =>
      rw [List.map_cons, List.foldl_cons, loadLine_price p (words entry List.mem_cons_self),
        ih _ fun e mem => words e (List.mem_cons_of_mem _ mem)]
      rfl

omit [Zero P] in
/-- No line of a snapshot has a line end in it. -/
theorem single_snapshotLines (word : ∀ x, IsWord (format.print x)) {order : SaveOrder P}
    {accounts : List AccountRecord} {portfolios : Table ClientId (Portfolio P)}
    {prices : Table Symbol P} (known : WordsOfAccounts accounts)
    (held : WordsOfPortfolios portfolios) (priced : WordsOfPrices prices) :
    ∀ line ∈ snapshotLines format order accounts portfolios prices, ∀ c ∈ line, c ≠ '\n' := by
  intro line mem
  rcases List.mem_append.mp mem with mem | mem
  · rcases List.mem_append.mp mem with mem | mem
    · obtain ⟨record, exported, rfl⟩ := List.mem_map.mp mem
      obtain ⟨username, salt, hash⟩ := known record exported
      exact single_writeLine (by decide) (by
        simp only [List.forall_mem_cons, username, salt, hash, (reads_int _).word, true_and]
        exact fun field none => nomatch none)
    · obtain ⟨⟨client, portfolio⟩, visited, mem⟩ := List.mem_flatMap.mp mem
      rcases List.mem_cons.mp mem with rfl | mem
      · exact single_writeLine (by decide) (by
          simp only [List.forall_mem_cons, word, (reads_int _).word, true_and]
          exact fun field none => nomatch none)
      · obtain ⟨⟨symbol, quantity⟩, saved, rfl⟩ := List.mem_map.mp mem
        have look := (order.holdings client).mem_walk.mp (List.mem_filter.mp saved).1
        have plain : IsWord symbol := held client portfolio (order.portfolios.mem_walk.mp visited)
          symbol (AList.lookup_isSome.mp (by rw [look]; rfl))
        exact single_writeLine (by decide) (by
          simp only [List.forall_mem_cons, plain, (reads_int _).word, true_and]
          exact fun field none => nomatch none)
  · obtain ⟨⟨symbol, price⟩, visited, rfl⟩ := List.mem_map.mp mem
    have look := order.prices.mem_walk.mp visited
    have plain : IsWord symbol := priced symbol (AList.lookup_isSome.mp (by rw [look]; rfl))
    exact single_writeLine (by decide) (by
      simp only [List.forall_mem_cons, plain, word, true_and]
      exact fun field none => nomatch none)

/-- The buffers after a snapshot has been read. -/
def pendingOf (format : NumberFormat P) (junk : Uninitialised P) (order : SaveOrder P)
    (directory : ClientDirectory) (accounts : List AccountRecord)
    (portfolios : Table ClientId (Portfolio P)) (prices : Table Symbol P) : Pending P where
  directory := directory.importAll accounts
  cash := Table.insertAll ((order.portfolios.walk portfolios).map fun entry =>
    ⟨entry.1, format.readBack junk entry.2.cash⟩) ∅
  holdings := bufferedHoldings order.holdings (order.portfolios.walk portfolios)
  prices := Table.insertAll ((order.prices.walk prices).map fun entry =>
    ⟨entry.1, format.readBack junk entry.2⟩) ∅

/-- **A snapshot that was written is read line by line.** -/
theorem load_snapshot (word : ∀ x, IsWord (format.print x)) {order : SaveOrder P}
    {accounts : List AccountRecord} {portfolios : Table ClientId (Portfolio P)}
    {prices : Table Symbol P} (known : WordsOfAccounts accounts)
    (held : WordsOfPortfolios portfolios) (priced : WordsOfPrices prices) (loads : LoadOrder P)
    (x : Exchange P) :
    load format junk loads x (some (writeLines
        (snapshotLines format order accounts portfolios prices)))
      = (true,
          { directory := x.directory.importAll accounts
            engine := applyPending loads
              (pendingOf format junk order x.directory accounts portfolios prices) x.engine }) := by
  have visited : ∀ entry ∈ order.portfolios.walk portfolios, ∀ symbol ∈ entry.2.holdings,
      IsWord symbol := fun entry mem => held _ _ (order.portfolios.mem_walk.mp mem)
  have visitedPrices : ∀ entry ∈ order.prices.walk prices, IsWord entry.1 := fun entry mem =>
    priced _ (AList.lookup_isSome.mp (by rw [order.prices.mem_walk.mp mem]; rfl))
  have read : (snapshotLines format order accounts portfolios prices).foldl (loadLine format junk)
        { directory := x.directory }
      = pendingOf format junk order x.directory accounts portfolios prices := by
    rw [snapshotLines, List.foldl_append, List.foldl_append, foldl_accounts _ known,
      foldl_portfolios _ order visited, foldl_prices _ visitedPrices]
    rfl
  rw [load, lines_writeLines (single_snapshotLines word known held priced), read]
  rfl

end

end StockMarket
