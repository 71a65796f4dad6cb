import StockMarket.Net.RoundTrip
import StockMarket.Net.Server

/-!
Snapshots taken while clients register.

REGISTER creates the account, then the portfolio, then the first shares, each in a
step of its own; `save` copies the accounts, then the portfolios, then the prices.
What a snapshot restores is decided by the states at these three reads
(`save_reads`): the accounts of the first and the portfolios of the second
(`usable_load_iff`). A REGISTER that runs between the two leaves a portfolio without
an account, whose number the next client is given.
-/

namespace StockMarket

open Atomic MatchingEngine

/-! ### Commands -/

/-- The REGISTER branch of `handle_connection`. -/
def registerCommand (digest : String → HexText) (username password : String)
    (salt token : HexText) : Prog (Exchange Double) RegisterOutcome := do
  let outcome ← .step fun x =>
    let (outcome, directory) :=
      x.directory.registerClient digest username password salt token
    (outcome, { x with directory })
  match outcome with
  | .ok client token => do
    (openAccount client).zoom Exchange.engine fun engine x => { x with engine }
    return .ok client token
  | .usernameTaken => return .usernameTaken

/-- A message of a client that has not logged in, as far as it registers. -/
def registerMessage (digest : String → HexText) (line : String) (salt token : HexText) :
    Prog (Exchange Double) (Option (List Char)) :=
  let tokens := split line
  if tokens.getD 0 "" = "REGISTER" ∧ tokens.length = 3 then do
    let _ ← registerCommand digest (tokens.getD 1 "") (tokens.getD 2 "") salt token
    return none
  else return none

/-- A thread that saves a snapshot. -/
def saveThread (format : NumberFormat Double) (order : SaveOrder Double) :
    Prog (Exchange Double) (Option (List Char)) := do
  let text ← save format order
  return some text

/-! ### Names -/

theorem isWord_ofList {token : List Char} (some : token ≠ [])
    (solid : ∀ c ∈ token, isSpace c = false) : IsWord (String.ofList token) where
  nonempty := by rwa [String.toList_ofList]
  solid := by rwa [String.toList_ofList]

theorem isWord_of_mem_splitFrom (text : List Char) : ∀ {token : List Char},
    (∀ c ∈ token, isSpace c = false) → ∀ word ∈ splitFrom token text, IsWord word := by
  induction text with
  | nil =>
      intro token solid word mem
      rw [splitFrom] at mem
      split at mem
      · cases mem
      · next some =>
          rw [List.mem_singleton.mp mem]
          exact isWord_ofList some solid
  | cons c cs ih =>
      intro token solid word mem
      rw [splitFrom] at mem
      split at mem
      · split at mem
        · exact ih (by simp) word mem
        · next some =>
            rcases List.mem_cons.mp mem with rfl | mem
            · exact isWord_ofList some solid
            · exact ih (by simp) word mem
      · next space =>
          refine ih (fun c' mem' => ?_) word mem
          rcases List.mem_append.mp mem' with mem' | mem'
          · exact solid c' mem'
          · rw [List.mem_singleton.mp mem']
            exact Bool.eq_false_iff.mpr space

/-- The tokens of a message are words. -/
theorem isWord_of_mem_split {line word : String} (mem : word ∈ split line) : IsWord word :=
  isWord_of_mem_splitFrom line.toList (by simp) word mem

/-- The symbols of an engine are words. -/
structure MatchingEngine.Named (e : MatchingEngine Double) : Prop where
  symbols : ∀ symbol ∈ e.books, IsWord symbol
  holdings : WordsOfPortfolios e.portfolios
  prices : WordsOfPrices e.lastPrices

/-- Accounts are numbered, and all names are words. -/
structure Exchange.Named (x : Exchange Double) : Prop where
  numbered : x.directory.Numbered
  usernames : ∀ username ∈ x.directory.accounts, IsWord username
  engine : x.engine.Named

theorem MatchingEngine.Named.ensureClient {e : MatchingEngine Double} (named : e.Named)
    (client : ClientId) (cash : Double) : (e.ensureClient client cash).Named where
  symbols := named.symbols
  holdings := by
    intro c portfolio look symbol mem
    have look : (Table.tryEmplace client { cash } e.portfolios).lookup c = some portfolio := look
    by_cases eq : c = client
    · subst eq
      rw [Table.lookup_tryEmplace_self] at look
      cases held : e.portfolios.lookup c with
      | none =>
          rw [held] at look
          cases look
          exact absurd mem (AList.notMem_empty _)
      | some p =>
          rw [held] at look
          cases look
          exact named.holdings c _ held symbol mem
    · rw [Table.lookup_tryEmplace_ne eq] at look
      exact named.holdings c portfolio look symbol mem
  prices := named.prices

theorem MatchingEngine.Named.grantInitialHoldings {e : MatchingEngine Double} (named : e.Named)
    (client : ClientId) {symbol : Symbol} (word : IsWord symbol) (quantity : Int) :
    (e.grantInitialHoldings client symbol quantity).Named where
  symbols := named.symbols
  holdings := by
    intro c portfolio look s mem
    have look : (Table.update client default (fun p : Portfolio Double =>
        { p with holdings := Table.update symbol 0 (· + quantity) p.holdings })
        e.portfolios).lookup c = some portfolio := look
    by_cases eq : c = client
    · subst eq
      rw [Table.lookup_update] at look
      cases look
      rcases (AList.mem_insert _).mp mem with rfl | mem
      · exact word
      · cases held : e.portfolios.lookup c with
        | none =>
            rw [held] at mem
            exact absurd mem (AList.notMem_empty _)
        | some p =>
            rw [held] at mem
            exact named.holdings c p held s mem
    · rw [Table.lookup_update_ne eq] at look
      exact named.holdings c portfolio look s mem
  prices := named.prices

theorem keeps_grantAll (client : ClientId) : ∀ {symbols : List Symbol},
    (∀ symbol ∈ symbols, IsWord symbol) → Keeps MatchingEngine.Named (grantAll client symbols)
  | [], _ => trivial
  | symbol :: _, words => fun _ named =>
      ⟨named.grantInitialHoldings client (words symbol List.mem_cons_self) 50,
        keeps_grantAll client fun s mem => words s (List.mem_cons_of_mem _ mem)⟩

theorem keeps_openAccount (client : ClientId) :
    Keeps MatchingEngine.Named (openAccount client) := fun _ named =>
  ⟨named.ensureClient client _, fun _ named =>
    ⟨named, keeps_grantAll client fun symbol mem => named.symbols symbol mem⟩⟩

theorem ClientDirectory.mem_accounts_registerClient {digest : String → HexText}
    {d : ClientDirectory} {username password u : String} {salt token : HexText}
    (known : u ∈ (d.registerClient digest username password salt token).2.accounts) :
    u = username ∨ u ∈ d.accounts := by
  unfold registerClient at known
  split at known
  · exact Or.inr known
  · exact (AList.mem_insert _).mp known

variable {digest : String → HexText}

theorem keeps_registerCommand {username password : String} (word : IsWord username)
    (salt token : HexText) :
    Keeps Exchange.Named (registerCommand digest username password salt token) := by
  intro x named
  refine ⟨⟨named.numbered.registerClient username password salt token, fun u known => ?_,
    named.engine⟩, ?_⟩
  · rcases ClientDirectory.mem_accounts_registerClient known with rfl | known
    · exact word
    · exact named.usernames u known
  · change Keeps Exchange.Named (match (x.directory.registerClient digest username password salt
      token).1 with | .ok client token => _ | .usernameTaken => _)
    cases (x.directory.registerClient digest username password salt token).1 with
    | ok client token =>
        refine Keeps.bind (Keeps.zoom (fun x named => named.engine) (fun x _ named engine => ?_)
          (keeps_openAccount client)) fun _ => trivial
        exact ⟨named.numbered, named.usernames, engine⟩
    | usernameTaken => trivial

/-- Whatever message a client registers with, all names stay words. -/
theorem keeps_registerMessage (line : String) (salt token : HexText) :
    Keeps Exchange.Named (registerMessage digest line salt token) := by
  simp only [registerMessage]
  split
  · next registers =>
      have token_mem : (split line).getD 1 "" ∈ split line := by
        rw [List.getD_eq_getElem?_getD, List.getElem?_eq_getElem (by omega), Option.getD_some]
        exact List.getElem_mem _
      exact (keeps_registerCommand (isWord_of_mem_split token_mem) salt token).bind
        fun _ => trivial
  · trivial

/-! ### What a snapshot is good for -/

/-- Some account has the client id. -/
def ClientDirectory.HasAccount (d : ClientDirectory) (client : ClientId) : Prop :=
  ∃ username account, d.accounts.lookup username = some account ∧ account.clientId = client

/-- Accounts and portfolios belong together, and the next client starts without a
portfolio. -/
structure Exchange.Usable (x : Exchange Double) : Prop where
  funded : ∀ client, x.directory.HasAccount client → client ∈ x.engine.portfolios
  owned : ∀ client ∈ x.engine.portfolios, x.directory.HasAccount client
  next : x.directory.nextClientId ∉ x.engine.portfolios

/-- The text that `save` writes if it reads the accounts of `x₁`, the portfolios of `x₂`
and the prices of `x₃`. -/
def savedText (format : NumberFormat Double) (order : SaveOrder Double)
    (x₁ x₂ x₃ : Exchange Double) : List Char :=
  writeLines (snapshotLines format order (x₁.directory.exportAccounts order.accounts)
    x₂.engine.portfolios x₃.engine.lastPrices)

/-- Every run in which a snapshot is saved reads three states, one after the other, between
which the other threads run. -/
theorem save_reads {format : NumberFormat Double} {order : SaveOrder Double}
    {x₀ x : Exchange Double} {text : List Char}
    {ps₀ ps : List (Prog (Exchange Double) (Option (List Char)))}
    (run : Interleaves (x₀, saveThread format order :: ps₀) (x, .ret (some text) :: ps)) :
    ∃ x₁ ps₁ x₂ ps₂ x₃ ps₃, Interleaves (x₀, ps₀) (x₁, ps₁) ∧ Interleaves (x₁, ps₁) (x₂, ps₂) ∧
      Interleaves (x₂, ps₂) (x₃, ps₃) ∧ Interleaves (x₃, ps₃) (x, ps) ∧
      text = savedText format order x₁ x₂ x₃ := by
  obtain ⟨x₁, ps₁, run₁, run⟩ := run.first_step
  obtain ⟨x₂, ps₂, run₂, run⟩ := run.first_step
  obtain ⟨x₃, ps₃, run₃, run⟩ := run.first_step
  obtain ⟨done, run₄⟩ := run.of_ret
  cases done
  exact ⟨x₁, ps₁, x₂, ps₂, x₃, ps₃, run₁, run₂, run₃, run₄, rfl⟩

/-- What is loaded from a snapshot depends on the accounts at the first read and the
portfolios at the second. -/
theorem usable_load_iff {format : NumberFormat Double} (word : ∀ x, IsWord (format.print x))
    (saves : SaveOrder Double) (loads : LoadOrder Double) (junk : Uninitialised Double)
    (seeds : List (Symbol × Double)) {x₁ x₂ x₃ : Exchange Double} (named₁ : x₁.Named)
    (named₂ : x₂.Named) (named₃ : x₃.Named) :
    (load format junk loads ⟨{}, seeded seeds⟩
        (some (savedText format saves x₁ x₂ x₃))).2.Usable ↔
      ∀ client, x₁.directory.HasAccount client ↔ client ∈ x₂.engine.portfolios := by
  rw [savedText, load_snapshot word
    (named₁.numbered.wordsOfAccounts named₁.usernames saves.accounts) named₂.engine.holdings
    named₃.engine.prices]
  have accounts : ∀ client, (ClientDirectory.importAll
      (x₁.directory.exportAccounts saves.accounts) {}).HasAccount client ↔
        x₁.directory.HasAccount client := fun client => by
    unfold ClientDirectory.HasAccount
    simp only [ClientDirectory.lookup_restoreAccounts]
  have portfolios := mem_portfolios_applyPending format junk saves {}
    (x₁.directory.exportAccounts saves.accounts) x₂.engine.portfolios x₃.engine.lastPrices loads
    (portfolios_seeded seeds)
  have next := named₁.numbered.nextClientId_restore named₁.usernames saves.accounts
  constructor
  · intro usable client
    constructor
    · intro known
      exact (portfolios client).mp (usable.funded client ((accounts client).mpr known))
    · intro held
      exact (accounts client).mp (usable.owned client ((portfolios client).mpr held))
  · intro paired
    refine ⟨fun client known => ?_, fun client held => ?_, fun held => ?_⟩
    · exact (portfolios client).mpr ((paired client).mp ((accounts client).mp known))
    · exact (accounts client).mpr ((paired client).mpr ((portfolios client).mp held))
    · have known := (paired _).mpr ((portfolios _).mp held)
      obtain ⟨username, account, look, eq⟩ := known
      have below := named₁.numbered.below username account look
      rw [eq] at below
      exact absurd next (ne_of_lt below)

/-- The thread of a client that sends one message before it has logged in. -/
structure Registration where
  line : String
  salt : HexText
  token : HexText

def Registration.program (digest : String → HexText) (r : Registration) :
    Prog (Exchange Double) (Option (List Char)) :=
  registerMessage digest r.line r.salt r.token

/-- **A snapshot taken while clients register.** Of every run, the snapshot can be used
exactly if each client whose account had been created at the first of its reads had a
portfolio at the second, and no other client had. -/
theorem snapshot_usable_iff (digest : String → HexText) {format : NumberFormat Double}
    (word : ∀ x, IsWord (format.print x)) (saves : SaveOrder Double) (loads : LoadOrder Double)
    (junk : Uninitialised Double) (seeds : List (Symbol × Double)) {x₀ x : Exchange Double}
    (named : x₀.Named) (registrations : List Registration) {text : List Char}
    {ps : List (Prog (Exchange Double) (Option (List Char)))}
    (run : Interleaves
      (x₀, saveThread format saves :: registrations.map (Registration.program digest))
      (x, .ret (some text) :: ps)) :
    ∃ x₁ ps₁ x₂ ps₂ x₃ ps₃,
      Interleaves (x₀, registrations.map (Registration.program digest)) (x₁, ps₁) ∧
      Interleaves (x₁, ps₁) (x₂, ps₂) ∧ Interleaves (x₂, ps₂) (x₃, ps₃) ∧
      Interleaves (x₃, ps₃) (x, ps) ∧ text = savedText format saves x₁ x₂ x₃ ∧
      ((load format junk loads ⟨{}, seeded seeds⟩ (some text)).2.Usable ↔
        ∀ client, x₁.directory.HasAccount client ↔ client ∈ x₂.engine.portfolios) := by
  have keep : ∀ p ∈ registrations.map (Registration.program digest), Keeps Exchange.Named p := by
    intro p mem
    obtain ⟨r, -, rfl⟩ := List.mem_map.mp mem
    exact keeps_registerMessage r.line r.salt r.token
  obtain ⟨x₁, ps₁, x₂, ps₂, x₃, ps₃, first, second, third, last, rfl⟩ := save_reads run
  obtain ⟨named₁, keep₁⟩ := interleaves_keep first named keep
  obtain ⟨named₂, keep₂⟩ := interleaves_keep second named₁ keep₁
  obtain ⟨named₃, -⟩ := interleaves_keep third named₂ keep₂
  exact ⟨x₁, ps₁, x₂, ps₂, x₃, ps₃, first, second, third, last, rfl,
    usable_load_iff word saves loads junk seeds named₁ named₂ named₃⟩

/-! ### A registration between the two reads -/

/-- Whole numbers printed without a point, and the names of the special values. -/
def wholeDoubles : NumberFormat Double where
  print
    | .finite q => toString q.num
    | .posInf => "inf"
    | .negInf => "-inf"
    | .nan => "nan"
  read := fun text => (readInt text).map fun (n, rest) => (.finite n, rest)

theorem wholeDoubles_word (x : Double) : IsWord (wholeDoubles.print x) := by
  cases x with
  | finite q => exact (reads_int q.num).word
  | posInf => decide
  | negInf => decide
  | nan => decide

/-- A server that trades one symbol and has no clients yet. -/
def freshExchange : Exchange Double where
  directory := {}
  engine := seeded [("AAPL", 100.0)]

theorem freshExchange_named : freshExchange.Named where
  numbered := .fresh
  usernames := fun _ known => absurd known (AList.notMem_empty _)
  engine := by
    refine ⟨?_, fun client portfolio look => ?_, ?_⟩
    · exact (by decide : ∀ symbol ∈ (seeded [("AAPL", (100.0 : Double))]).books.keys, IsWord symbol)
    · cases look
    · exact (by decide : ∀ symbol ∈ (seeded [("AAPL", (100.0 : Double))]).lastPrices.keys,
        IsWord symbol)

def alice : Registration where
  line := "REGISTER alice secret"
  salt := someHex
  token := someHex

/-- The exchange after the whole REGISTER of a client. -/
def afterAlice : Exchange Double :=
  ((alice.program fun _ => someHex).exec freshExchange).2

theorem afterAlice_named : afterAlice.Named := by
  have alone := interleaves_exec [] [] (alice.program fun _ => someHex) freshExchange
  refine (interleaves_keep alone freshExchange_named fun p mem => ?_).1
  rw [List.mem_singleton.mp mem]
  exact keeps_registerMessage _ _ _

theorem exec_alice : (alice.program fun _ => someHex).exec freshExchange = (none, afterAlice) := by
  have answer : ((alice.program fun _ => someHex).exec freshExchange).1 = none := by
    decide +kernel
  exact Prod.ext answer rfl

/-- A client registers after the accounts and before the portfolios have been read. -/
theorem save_around_register :
    Interleaves (freshExchange,
        [saveThread wholeDoubles .stored, alice.program fun _ => someHex])
      (afterAlice, [.ret (some (savedText wholeDoubles .stored freshExchange afterAlice
        afterAlice)), .ret none]) := by
  refine .head (.act freshExchange [] [alice.program fun _ => someHex] _ _) ?_
  refine .trans (interleaves_exec [_] [] (alice.program fun _ => someHex) freshExchange) ?_
  rw [exec_alice]
  exact interleaves_exec [] [.ret none] _ afterAlice

/-- **A portfolio without an account**: the snapshot of that run cannot be used. -/
theorem snapshot_orphan :
    ∃ (x : Exchange Double) (text : List Char),
      Interleaves (freshExchange,
          [saveThread wholeDoubles .stored, alice.program fun _ => someHex])
        (x, [.ret (some text), .ret none]) ∧
      ¬(load wholeDoubles ⟨0, 0, 0⟩ .stored freshExchange (some text)).2.Usable := by
  refine ⟨_, _, save_around_register, fun usable => ?_⟩
  have paired := (usable_load_iff wholeDoubles_word .stored .stored ⟨0, 0, 0⟩ [("AAPL", 100.0)]
    freshExchange_named afterAlice_named afterAlice_named).mp usable
  have held : (1 : ClientId) ∈ afterAlice.engine.portfolios := by decide +kernel
  obtain ⟨username, account, look, -⟩ := (paired 1).mpr held
  cases look

/-- The run above, seen through the states that its snapshot was read from. -/
theorem snapshot_usable_iff_aroundRegister :
    ∃ x₁ ps₁ x₂ ps₂ x₃ ps₃,
      Interleaves (freshExchange, [alice].map (Registration.program fun _ => someHex)) (x₁, ps₁) ∧
      Interleaves (x₁, ps₁) (x₂, ps₂) ∧ Interleaves (x₂, ps₂) (x₃, ps₃) ∧
      Interleaves (x₃, ps₃) (afterAlice, [.ret none]) ∧
      savedText wholeDoubles .stored freshExchange afterAlice afterAlice
        = savedText wholeDoubles .stored x₁ x₂ x₃ ∧
      ((load wholeDoubles ⟨0, 0, 0⟩ .stored ⟨{}, seeded [("AAPL", 100.0)]⟩
          (some (savedText wholeDoubles .stored freshExchange afterAlice afterAlice))).2.Usable ↔
        ∀ client, x₁.directory.HasAccount client ↔ client ∈ x₂.engine.portfolios) :=
  snapshot_usable_iff (fun _ => someHex) wholeDoubles_word .stored .stored ⟨0, 0, 0⟩
    [("AAPL", 100.0)] freshExchange_named [alice] save_around_register

end StockMarket
