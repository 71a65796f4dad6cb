import StockMarket.Net.Persistence

/-!
What a snapshot restores.

The directory is rebuilt account by account: it finds the accounts that were exported
(`lookup_restoreAccounts`), and since both directories are numbered, equal accounts
give equal next client ids (`Numbered.nextClientId_eq`).

The engine is rebuilt in three passes. The cash pass creates exactly the saved
portfolios, the holdings pass adds to each holding what was saved of it, and zero
holdings, which are not saved, are not missed; the prices replace those of symbols
that were registered before.
-/

namespace StockMarket

open Atomic

variable {P : Type}

/-! ### The directory -/

namespace ClientDirectory

/-- The accounts of records imported one after the other. -/
theorem accounts_restore (records : List AccountRecord) : ∀ d : ClientDirectory,
    (d.importAll records).accounts
      = Table.insertAll (records.map fun r => ⟨r.username, r.account⟩) d.accounts := by
  induction records with
  | nil => exact fun d => rfl
  | cons record records ih => exact fun d => ih (d.importAccount record)

/-- Accounts restored into an empty directory are those of the records. -/
theorem lookup_restore {records : List AccountRecord}
    (once : (records.map AccountRecord.username).Nodup) {username : String} {account : Account} :
    (importAll records {}).accounts.lookup username = some account ↔
      ∃ record ∈ records, record.username = username ∧ record.account = account := by
  have keys : ((records.map fun r => (⟨r.username, r.account⟩ : Sigma fun _ : String => Account)).map
      Sigma.fst).Nodup := by
    rw [List.map_map]
    exact once
  rw [accounts_restore, Table.lookup_insertAll keys, List.mem_map]
  constructor
  · rintro ⟨record, mem, eq⟩
    cases eq
    exact ⟨record, mem, rfl, rfl⟩
  · rintro ⟨record, mem, rfl, rfl⟩
    exact ⟨record, mem, rfl⟩

/-- The exported accounts, restored into an empty directory. -/
theorem lookup_restoreAccounts (order : IterationOrder String Account) (d : ClientDirectory)
    (username : String) :
    (importAll (d.exportAccounts order) {}).accounts.lookup username
      = d.accounts.lookup username := by
  refine Option.ext fun account => ?_
  rw [lookup_restore (nodup_exportAccounts order d)]
  constructor
  · rintro ⟨record, mem, rfl, rfl⟩
    exact mem_exportAccounts.mp mem
  · intro look
    exact ⟨⟨username, account.clientId, account.saltHex, account.passwordHashHex⟩,
      mem_exportAccounts.mpr look, rfl, rfl⟩

/-- Records with different usernames, none of them known, keep the numbering. -/
theorem Numbered.restore {records : List AccountRecord} (words : WordsOfAccounts records)
    (once : (records.map AccountRecord.username).Nodup) : ∀ {d : ClientDirectory}, Numbered d →
    (∀ record ∈ records, record.username ∉ d.accounts) →
    Numbered (d.importAll records) := by
  induction records with
  | nil => exact fun numbered _ => numbered
  | cons record records ih =>
      intro d numbered fresh
      rw [List.map_cons, List.nodup_cons] at once
      obtain ⟨-, salt, hash⟩ := words record List.mem_cons_self
      refine ih (fun r mem => words r (List.mem_cons_of_mem _ mem)) once.2
        (numbered.importAccount (fresh record List.mem_cons_self) salt hash) fun r mem known => ?_
      have kept : r.username ∈ d.accounts.insert record.username record.account := known
      rcases (AList.mem_insert _).mp kept with same | known
      · exact once.1 (same ▸ List.mem_map_of_mem mem)
      · exact fresh r (List.mem_cons_of_mem _ mem) known

/-- The accounts determine the next client id. -/
theorem Numbered.nextClientId_le {d d' : ClientDirectory} (numbered : Numbered d)
    (numbered' : Numbered d') (same : ∀ u, d.accounts.lookup u = d'.accounts.lookup u) :
    d.nextClientId ≤ d'.nextClientId := by
  rcases numbered.next with one | ⟨username, account, look, eq⟩
  · rw [one]
    exact numbered'.least
  · rw [← eq]
    exact numbered'.below username account ((same username).symm.trans look)

theorem Numbered.nextClientId_eq {d d' : ClientDirectory} (numbered : Numbered d)
    (numbered' : Numbered d') (same : ∀ u, d.accounts.lookup u = d'.accounts.lookup u) :
    d.nextClientId = d'.nextClientId :=
  le_antisymm (numbered.nextClientId_le numbered' same)
    (numbered'.nextClientId_le numbered fun u => (same u).symm)

variable (digest : String → HexText)

/-- What a login answers depends on the accounts alone. -/
theorem authenticate_congr {d d' : ClientDirectory} {username : String}
    (same : d.accounts.lookup username = d'.accounts.lookup username) (password : String)
    (token : HexText) : (d.authenticate digest username password token).1
      = (d'.authenticate digest username password token).1 := by
  unfold authenticate
  rw [← same]
  cases d.accounts.lookup username with
  | none => rfl
  | some account =>
      simp only
      split <;> rfl

/-- What a registration answers depends on the accounts and the next client id. -/
theorem registerClient_congr {d d' : ClientDirectory} {username : String}
    (same : d.accounts.lookup username = d'.accounts.lookup username)
    (next : d.nextClientId = d'.nextClientId) (password : String) (salt token : HexText) :
    (d.registerClient digest username password salt token).1
      = (d'.registerClient digest username password salt token).1 := by
  have known : username ∈ d.accounts ↔ username ∈ d'.accounts := by
    rw [← AList.lookup_isSome, ← AList.lookup_isSome, same]
  unfold registerClient
  by_cases taken : username ∈ d.accounts
  · rw [if_pos taken, if_pos (known.mp taken)]
  · rw [if_neg taken, if_neg (mt known.mpr taken), next]

end ClientDirectory

/-! ### The engine -/

section

variable [Zero P]

open MatchingEngine

omit [Zero P] in
/-- The cash pass creates a portfolio for each new client. -/
theorem lookup_ensureAll (entries : List (Sigma fun _ : ClientId => P)) (client : ClientId) :
    ∀ e : MatchingEngine P,
      (entries.foldl (fun e entry => e.ensureClient entry.1 entry.2) e).portfolios.lookup client
        = (e.portfolios.lookup client).or
            ((entries.dlookup client).map fun cash => { cash := cash }) := by
  induction entries with
  | nil => intro e; simp
  | cons entry entries ih =>
      intro e
      obtain ⟨c, cash⟩ := entry
      rw [List.foldl_cons, ih]
      have step : (e.ensureClient c cash).portfolios = Table.tryEmplace c { cash } e.portfolios :=
        rfl
      rw [step]
      by_cases eq : client = c
      · subst eq
        rw [Table.lookup_tryEmplace_self, List.dlookup_cons_eq]
        cases e.portfolios.lookup client <;> rfl
      · rw [Table.lookup_tryEmplace_ne eq, List.dlookup_cons_ne _ _ eq]

/-- What the holdings pass adds to one holding. -/
def addedTo (client : ClientId) (symbol : Symbol) (holding : PendingHolding) : Int :=
  if holding.clientId = client then if holding.symbol = symbol then holding.quantity else 0 else 0

theorem portfolioSnapshot_ensureClient_zero (e : MatchingEngine P) (client c : ClientId) :
    (e.ensureClient client 0).portfolioSnapshot c = e.portfolioSnapshot c := by
  unfold portfolioSnapshot ensureClient
  by_cases eq : c = client
  · subst eq
    rw [Table.lookup_tryEmplace_self]
    cases e.portfolios.lookup c <;> rfl
  · rw [Table.lookup_tryEmplace_ne eq]

/-- A holding of the second pass is added, and nothing else happens to a portfolio. -/
theorem portfolioSnapshot_applyHolding (e : MatchingEngine P) (h : PendingHolding)
    (client : ClientId) (symbol : Symbol) :
    ((applyHolding e h).portfolioSnapshot client).cash = (e.portfolioSnapshot client).cash ∧
      ((applyHolding e h).portfolioSnapshot client).holding symbol
        = (e.portfolioSnapshot client).holding symbol + addedTo client symbol h := by
  rw [← portfolioSnapshot_ensureClient_zero e h.clientId client]
  unfold applyHolding addedTo
  generalize e.ensureClient h.clientId 0 = e
  unfold portfolioSnapshot grantInitialHoldings
  by_cases mine : h.clientId = client
  · subst mine
    rw [Table.lookup_update, Option.getD_some, if_pos rfl]
    refine ⟨rfl, ?_⟩
    unfold Portfolio.holding
    by_cases same : h.symbol = symbol
    · subst same
      rw [Table.lookup_update, Option.getD_some, if_pos rfl]
    · rw [Table.lookup_update_ne (Ne.symm same), if_neg same, add_zero]
  · rw [Table.lookup_update_ne (Ne.symm mine), if_neg mine, add_zero]
    exact ⟨rfl, rfl⟩

theorem portfolioSnapshot_applyHoldings (holdings : List PendingHolding) (client : ClientId)
    (symbol : Symbol) : ∀ e : MatchingEngine P,
    ((holdings.foldl applyHolding e).portfolioSnapshot client).cash
        = (e.portfolioSnapshot client).cash ∧
      ((holdings.foldl applyHolding e).portfolioSnapshot client).holding symbol
        = (e.portfolioSnapshot client).holding symbol
          + (holdings.map (addedTo client symbol)).sum := by
  induction holdings with
  | nil => exact fun e => ⟨rfl, (add_zero _).symm⟩
  | cons h holdings ih =>
      intro e
      obtain ⟨cash, holding⟩ := ih (applyHolding e h)
      obtain ⟨cash₁, holding₁⟩ := portfolioSnapshot_applyHolding e h client symbol
      exact ⟨cash.trans cash₁, by
        rw [List.foldl_cons, holding, holding₁, List.map_cons, List.sum_cons, add_assoc]⟩

/-- The holdings pass gives portfolios to the clients of its holdings only. -/
theorem mem_portfolios_applyHoldings (holdings : List PendingHolding) (client : ClientId) :
    ∀ e : MatchingEngine P, client ∈ (holdings.foldl applyHolding e).portfolios ↔
      client ∈ e.portfolios ∨ ∃ h ∈ holdings, h.clientId = client := by
  induction holdings with
  | nil => intro e; simp
  | cons h holdings ih =>
      intro e
      have step : client ∈ (applyHolding e h).portfolios ↔
          client = h.clientId ∨ client ∈ e.portfolios := by
        unfold applyHolding grantInitialHoldings ensureClient Table.update Table.tryEmplace
        rw [AList.mem_insert]
        split
        · exact Iff.rfl
        · rw [AList.mem_insert, ← or_assoc, or_self]
      rw [List.foldl_cons, ih, step]
      rw [List.exists_mem_cons_iff, or_comm (a := client = h.clientId), or_assoc, eq_comm]

omit [Zero P] in
theorem portfolios_registerAll (entries : List (Sigma fun _ : Symbol => P)) :
    ∀ e : MatchingEngine P,
      (entries.foldl (fun e entry => e.registerSymbol entry.1 entry.2) e).portfolios
        = e.portfolios := by
  induction entries with
  | nil => exact fun e => rfl
  | cons entry entries ih => exact fun e => ih (e.registerSymbol entry.1 entry.2)

omit [Zero P] in
theorem lastPrices_registerAll (entries : List (Sigma fun _ : Symbol => P)) :
    ∀ e : MatchingEngine P,
      (entries.foldl (fun e entry => e.registerSymbol entry.1 entry.2) e).lastPrices
        = Table.insertAll entries e.lastPrices := by
  induction entries with
  | nil => exact fun e => rfl
  | cons entry entries ih => exact fun e => ih (e.registerSymbol entry.1 entry.2)

omit [Zero P] in
/-- Zero holdings need not be saved. -/
theorem sum_savedHoldings (order : IterationOrder Symbol Int) (portfolio : Portfolio P)
    (symbol : Symbol) :
    ((savedHoldings order portfolio).map fun h => if h.1 = symbol then h.2 else 0).sum
      = portfolio.holding symbol := by
  have dropped : ∀ l : List (Sigma fun _ : Symbol => Int),
      ((l.filter fun h => h.2 ≠ 0).map fun h => if h.1 = symbol then h.2 else 0).sum
        = (l.map fun h => if h.1 = symbol then h.2 else 0).sum := by
    intro l
    induction l with
    | nil => rfl
    | cons h l ih =>
        by_cases zero : h.2 = 0
        · rw [List.filter_cons_of_neg (by simp [zero]), ih, List.map_cons, List.sum_cons, zero,
            ite_self, zero_add]
        · rw [List.filter_cons_of_pos (by simp [zero]), List.map_cons, List.sum_cons, ih,
            List.map_cons, List.sum_cons]
  rw [savedHoldings, dropped, order.sum_walk_ite (fun q => q), Portfolio.holding]
  cases portfolio.holdings.lookup symbol <;> rfl

omit [Zero P] in
/-- All that is buffered for one holding. -/
theorem sum_bufferedHoldings (order : SaveOrder P) (portfolios : Table ClientId (Portfolio P))
    (client : ClientId) (symbol : Symbol) :
    ((bufferedHoldings order.holdings (order.portfolios.walk portfolios)).map
        (addedTo client symbol)).sum
      = (portfolios.lookup client).elim 0 fun portfolio => portfolio.holding symbol := by
  have each : ∀ entry : Sigma fun _ : ClientId => Portfolio P,
      (((savedHoldings (order.holdings entry.1) entry.2).map fun h =>
          (⟨entry.1, h.1, h.2⟩ : PendingHolding)).map (addedTo client symbol)).sum
        = if entry.1 = client then entry.2.holding symbol else 0 := by
    intro entry
    rw [List.map_map]
    by_cases mine : entry.1 = client
    · rw [if_pos mine, ← sum_savedHoldings (order.holdings entry.1) entry.2 symbol]
      refine congrArg List.sum (List.map_congr_left fun h _ => ?_)
      exact if_pos mine
    · rw [if_neg mine]
      refine List.sum_eq_zero fun q mem => ?_
      obtain ⟨h, -, rfl⟩ := List.mem_map.mp mem
      exact if_neg mine
  rw [← order.portfolios.sum_walk_ite (fun portfolio => portfolio.holding symbol)]
  generalize order.portfolios.walk portfolios = entries
  induction entries with
  | nil => rfl
  | cons entry entries ih =>
      rw [bufferedHoldings, List.flatMap_cons, List.map_append, List.sum_append, each,
        List.map_cons, List.sum_cons]
      exact congrArg _ ih

variable (format : NumberFormat P) (junk : Uninitialised P) (order : SaveOrder P)
  (directory : ClientDirectory) (accounts : List AccountRecord)
  (portfolios : Table ClientId (Portfolio P)) (prices : Table Symbol P)

/-- The engine after the cash pass. -/
def ensureAll (loads : LoadOrder P) (cash : Table ClientId P) (e : MatchingEngine P) :
    MatchingEngine P :=
  (loads.cash.walk cash).foldl (fun e entry => e.ensureClient entry.1 entry.2) e

theorem portfolios_applyPending (loads : LoadOrder P) (p : Pending P) (e : MatchingEngine P) :
    (applyPending loads p e).portfolios
      = (p.holdings.foldl applyHolding (ensureAll loads p.cash e)).portfolios :=
  portfolios_registerAll _ _

omit [Zero P] in
/-- The cash pass gives every saved portfolio its cash. -/
theorem lookup_ensureAll_saved (loads : LoadOrder P) {e : MatchingEngine P}
    (empty : e.portfolios = ∅) (f : Portfolio P → P) (client : ClientId) :
    (ensureAll loads (Table.insertAll ((order.portfolios.walk portfolios).map fun entry =>
        ⟨entry.1, f entry.2⟩) ∅) e).portfolios.lookup client
      = (portfolios.lookup client).map fun p => { cash := f p } := by
  unfold ensureAll
  rw [lookup_ensureAll, empty, loads.cash.dlookup_walk, order.portfolios.lookup_insertAll_walk,
    Option.map_map]
  rfl

/-- The portfolios that a snapshot restores into an engine without clients. -/
theorem portfolioSnapshot_applyPending (loads : LoadOrder P) {e : MatchingEngine P}
    (empty : e.portfolios = ∅) (client : ClientId) (symbol : Symbol) :
    ((applyPending loads (pendingOf format junk order directory accounts portfolios prices)
        e).portfolioSnapshot client).cash
        = (portfolios.lookup client).elim 0 (fun p => format.readBack junk p.cash) ∧
      ((applyPending loads (pendingOf format junk order directory accounts portfolios prices)
        e).portfolioSnapshot client).holding symbol
        = (portfolios.lookup client).elim 0 (fun p => p.holding symbol) := by
  have look := lookup_ensureAll_saved order portfolios loads empty
    (fun p => format.readBack junk p.cash) client
  obtain ⟨cash, holding⟩ := portfolioSnapshot_applyHoldings
    (bufferedHoldings order.holdings (order.portfolios.walk portfolios)) client symbol
    (ensureAll loads (pendingOf format junk order directory accounts portfolios prices).cash e)
  rw [sum_bufferedHoldings] at holding
  have same : (applyPending loads
        (pendingOf format junk order directory accounts portfolios prices) e).portfolioSnapshot
          client
      = ((bufferedHoldings order.holdings (order.portfolios.walk portfolios)).foldl applyHolding
          (ensureAll loads (pendingOf format junk order directory accounts portfolios prices).cash
            e)).portfolioSnapshot client := by
    unfold portfolioSnapshot
    rw [portfolios_applyPending]
    rfl
  have start : (ensureAll loads
      (pendingOf format junk order directory accounts portfolios prices).cash e).portfolioSnapshot
        client = ((portfolios.lookup client).map fun p =>
          { cash := format.readBack junk p.cash }).getD default := by
    rw [portfolioSnapshot]
    exact congrArg (Option.getD · default) look
  rw [same, cash, holding, start]
  cases portfolios.lookup client with
  | none => exact ⟨rfl, rfl⟩
  | some portfolio => exact ⟨rfl, zero_add _⟩

/-- A snapshot restores the clients that it has portfolios of. -/
theorem mem_portfolios_applyPending (loads : LoadOrder P) {e : MatchingEngine P}
    (empty : e.portfolios = ∅) (client : ClientId) :
    client ∈ (applyPending loads (pendingOf format junk order directory accounts portfolios prices)
        e).portfolios ↔ client ∈ portfolios := by
  have look := lookup_ensureAll_saved order portfolios loads empty
    (fun p => format.readBack junk p.cash) client
  have created : client ∈ (ensureAll loads
      (pendingOf format junk order directory accounts portfolios prices).cash e).portfolios ↔
        client ∈ portfolios := by
    rw [← AList.lookup_isSome, ← AList.lookup_isSome]
    exact (congrArg (fun o => o.isSome = true) look).to_iff.trans (by rw [Option.isSome_map])
  rw [portfolios_applyPending]
  refine (mem_portfolios_applyHoldings _ client _).trans ?_
  rw [created, or_iff_left_iff_imp]
  rintro ⟨h, mem, rfl⟩
  obtain ⟨entry, visited, mem⟩ := List.mem_flatMap.mp mem
  obtain ⟨holding, -, rfl⟩ := List.mem_map.mp mem
  exact AList.lookup_isSome.mp (by rw [order.portfolios.mem_walk.mp visited]; rfl)

/-- The prices that a snapshot restores, whatever was registered before. -/
theorem lookup_lastPrices_applyPending (loads : LoadOrder P) (e : MatchingEngine P)
    {symbol : Symbol} {price : P} (saved : prices.lookup symbol = some price) :
    (applyPending loads (pendingOf format junk order directory accounts portfolios prices)
        e).lastPrices.lookup symbol = some (format.readBack junk price) := by
  have buffered : (pendingOf format junk order directory accounts portfolios
      prices).prices.lookup symbol = some (format.readBack junk price) := by
    refine (order.prices.lookup_insertAll_walk _ symbol prices).trans ?_
    rw [saved]
    rfl
  unfold applyPending
  rw [lastPrices_registerAll]
  exact (Table.lookup_insertAll_iff (loads.prices.nodup_keys _) _).mpr
    (Or.inl (loads.prices.mem_walk.mpr buffered))

end

/-! ### The round trip -/

/-- What the round trip asks of an exchange: its names are words, and its numbers
finite. -/
structure Exchange.Plain (Finite : P → Prop) (x : Exchange P) : Prop where
  usernames : ∀ username ∈ x.directory.accounts, IsWord username
  holdings : WordsOfPortfolios x.engine.portfolios
  prices : WordsOfPrices x.engine.lastPrices
  finiteCash : ∀ client portfolio, x.engine.portfolios.lookup client = some portfolio →
    Finite portfolio.cash
  finitePrices : ∀ symbol price, x.engine.lastPrices.lookup symbol = some price → Finite price

/-- The exported accounts of a numbered directory are words. -/
theorem ClientDirectory.Numbered.wordsOfAccounts {d : ClientDirectory} (numbered : d.Numbered)
    (usernames : ∀ username ∈ d.accounts, IsWord username)
    (order : IterationOrder String Account) : WordsOfAccounts (d.exportAccounts order) := by
  intro record exported
  have look := ClientDirectory.mem_exportAccounts.mp exported
  exact ⟨usernames _ (AList.lookup_isSome.mp (by rw [look]; rfl)), numbered.words _ _ look⟩

/-- The directory that a snapshot restores is numbered as the one it was taken of. -/
theorem ClientDirectory.Numbered.nextClientId_restore {d : ClientDirectory} (numbered : d.Numbered)
    (usernames : ∀ username ∈ d.accounts, IsWord username)
    (order : IterationOrder String Account) :
    (importAll (d.exportAccounts order) {}).nextClientId = d.nextClientId := by
  have restored : (importAll (d.exportAccounts order) {}).Numbered :=
    Numbered.restore (numbered.wordsOfAccounts usernames order) (nodup_exportAccounts order d)
      .fresh fun record _ known => absurd known (AList.notMem_empty _)
  exact restored.nextClientId_eq numbered fun u => lookup_restoreAccounts order d u

/-- An engine with symbols registered at initial prices. -/
def seeded (seeds : List (Symbol × P)) : MatchingEngine P :=
  seeds.foldl (fun e seed => e.registerSymbol seed.1 seed.2) {}

theorem portfolios_seeded (seeds : List (Symbol × P)) :
    (seeded seeds).portfolios = ∅ := by
  unfold seeded
  suffices ∀ e : MatchingEngine P, (seeds.foldl (fun e seed => e.registerSymbol seed.1 seed.2)
      e).portfolios = e.portfolios from this {}
  induction seeds with
  | nil => exact fun e => rfl
  | cons seed seeds ih => exact fun e => ih (e.registerSymbol seed.1 seed.2)

/-- **Snapshot round trip.** The file that `save` writes of a quiescent exchange is loaded
successfully into a fresh directory and an engine with any symbols registered, and
restores every login, every portfolio, every saved price and the next client id. -/
theorem snapshot_roundTrip [Zero P] {format : NumberFormat P} {Finite : P → Prop}
    (exact : format.Exact Finite) (digest : String → HexText) {x : Exchange P}
    (reached : x.directory.Reachable digest) (plain : x.Plain Finite) (saves : SaveOrder P)
    (loads : LoadOrder P) (junk : Uninitialised P) (seeds : List (Symbol × P)) :
    ∃ restored : Exchange P,
      load format junk loads ⟨{}, seeded seeds⟩ (some ((save format saves).exec x).1)
        = (true, restored) ∧
      (∀ username password token,
        (restored.directory.authenticate digest username password token).1
          = (x.directory.authenticate digest username password token).1) ∧
      (∀ client symbol,
        (restored.engine.portfolioSnapshot client).cash
            = (x.engine.portfolioSnapshot client).cash ∧
          (restored.engine.portfolioSnapshot client).holding symbol
            = (x.engine.portfolioSnapshot client).holding symbol) ∧
      (∀ symbol ∈ x.engine.lastPrices,
        restored.engine.lastPrice symbol = x.engine.lastPrice symbol) ∧
      restored.directory.nextClientId = x.directory.nextClientId ∧
      (∀ username password salt token,
        (restored.directory.registerClient digest username password salt token).1
          = (x.directory.registerClient digest username password salt token).1) := by
  have numbered := reached.numbered
  have same := ClientDirectory.lookup_restoreAccounts saves.accounts x.directory
  have next := numbered.nextClientId_restore plain.usernames saves.accounts
  refine ⟨_, load_snapshot exact.word
      (numbered.wordsOfAccounts plain.usernames saves.accounts) plain.holdings plain.prices loads
      ⟨{}, seeded seeds⟩,
    fun username password token => ?login, fun client symbol => ?portfolio,
    fun symbol known => ?price, next, fun username password salt token => ?register⟩
  case login => exact ClientDirectory.authenticate_congr digest (same username) password token
  case register =>
    exact ClientDirectory.registerClient_congr digest (same username) next password salt token
  case portfolio =>
    obtain ⟨cash, holding⟩ := portfolioSnapshot_applyPending format junk saves {}
      (x.directory.exportAccounts saves.accounts) x.engine.portfolios x.engine.lastPrices loads
      (portfolios_seeded seeds) client symbol
    rw [cash, holding]
    unfold MatchingEngine.portfolioSnapshot
    cases look : x.engine.portfolios.lookup client with
    | none => exact ⟨rfl, rfl⟩
    | some portfolio => exact ⟨exact.readBack_eq (plain.finiteCash _ _ look), rfl⟩
  case price =>
    obtain ⟨price, look⟩ := Option.isSome_iff_exists.mp (AList.lookup_isSome.mpr known)
    have restored := lookup_lastPrices_applyPending format junk saves {}
      (x.directory.exportAccounts saves.accounts) x.engine.portfolios x.engine.lastPrices loads
      (seeded seeds) look
    unfold MatchingEngine.lastPrice
    rw [look]
    exact (congrArg (Option.getD · 0) restored).trans
      (exact.readBack_eq (plain.finitePrices _ _ look))

/-- Whole numbers, printed without a point. -/
def wholeNumbers : NumberFormat Int where
  print := toString
  read := readInt

/-- The order in which everything is stored. -/
def SaveOrder.stored : SaveOrder P where
  accounts := .stored
  portfolios := .stored
  holdings := fun _ => .stored
  prices := .stored

def LoadOrder.stored : LoadOrder P where
  cash := .stored
  prices := .stored

/-- A salt, a token or a digest. -/
def someHex : HexText where
  text := "c0ffee"
  nonempty := by decide
  digits := List.all_eq_true.mp (by decide)

/-- An exchange with one client, who has cash, shares of one symbol and none of another. -/
def oneClient : Exchange Int where
  directory := (({} : ClientDirectory).registerClient (fun _ => someHex) "alice" "pw" someHex
    someHex).2
  engine := setUp [.registerSymbol "AAPL" 150, .registerSymbol "MSFT" 300, .ensureClient 1 12345,
    .grantInitialHoldings 1 "AAPL" 10, .grantInitialHoldings 1 "MSFT" 0]

theorem snapshot_roundTrip_oneClient :
    ∃ restored : Exchange Int,
      load wholeNumbers ⟨0, 0, 0⟩ .stored ⟨{}, seeded [("AAPL", 1)]⟩
          (some ((save wholeNumbers .stored).exec oneClient).1) = (true, restored) ∧
        restored.directory.nextClientId = 2 ∧
        (restored.engine.portfolioSnapshot 1).cash = 12345 ∧
        (restored.engine.portfolioSnapshot 1).holding "AAPL" = 10 ∧
        restored.engine.lastPrice "AAPL" = 150 := by
  have exact : wholeNumbers.Exact fun _ => True :=
    ⟨fun n => (reads_int n).word, fun n _ => reads_int n⟩
  have plain : oneClient.Plain fun _ => True := by
    refine ⟨?_, ?_, ?_, fun _ _ _ => trivial, fun _ _ _ => trivial⟩
    · exact (by decide : ∀ username ∈ oneClient.directory.accounts.keys, IsWord username)
    · intro client portfolio look symbol mem
      have all : ∀ entry ∈ oneClient.engine.portfolios.entries,
          ∀ symbol ∈ entry.2.holdings.keys, IsWord symbol := by decide
      exact all ⟨client, portfolio⟩ (Table.mem_entries_iff.mpr look) symbol mem
    · exact (by decide : ∀ symbol ∈ oneClient.engine.lastPrices.keys, IsWord symbol)
  obtain ⟨restored, loaded, -, portfolios, prices, next, -⟩ :=
    snapshot_roundTrip exact (fun _ => someHex)
      (.register "alice" "pw" someHex someHex .fresh) plain .stored .stored ⟨0, 0, 0⟩
      [("AAPL", 1)]
  exact ⟨restored, loaded, next, (portfolios 1 "AAPL").1, (portfolios 1 "AAPL").2,
    prices "AAPL" (by decide)⟩

end StockMarket
