import StockMarket.Net.Stream
import StockMarket.Types

/-!
Accounts and session tokens (`include/net/auth.hpp`, `src/net/auth.cpp`).

The random salt and tokens of a call are its parameters, and so is the digest of
passwords; all of them are texts of hexadecimal digits (`HexText`). A call that
runs under the directory's mutex is a function on the directory.

A directory that started empty numbers its accounts below the next client id, and
the next client id is one more than the largest number given (`Reachable.numbered`),
so that the accounts alone determine it.
-/

namespace StockMarket

/-- A text of hexadecimal digits. -/
structure HexText where
  text : String
  nonempty : text.toList ≠ []
  digits : ∀ c ∈ text.toList, (digitValue 16 c).isSome

theorem isSpace_of_digitValue {c : Char} (digit : (digitValue 16 c).isSome) :
    isSpace c = false := by
  simp only [digitValue] at digit
  unfold isSpace
  rw [Bool.or_eq_false_iff, Bool.and_eq_false_iff, decide_eq_false_iff_not,
    decide_eq_false_iff_not, decide_eq_false_iff_not]
  split at digit
  · exact ⟨by omega, Or.inr (by omega)⟩
  · split at digit
    · exact ⟨by omega, Or.inr (by omega)⟩
    · split at digit
      · exact ⟨by omega, Or.inr (by omega)⟩
      · cases digit

theorem HexText.isWord (hex : HexText) : IsWord hex.text where
  nonempty := hex.nonempty
  solid := fun c mem => isSpace_of_digitValue (hex.digits c mem)

/-- `ClientDirectory::Account`. -/
structure Account where
  clientId : ClientId
  saltHex : String
  passwordHashHex : String
  deriving DecidableEq, Repr

structure AccountRecord where
  username : String
  clientId : ClientId
  saltHex : String
  passwordHashHex : String
  deriving DecidableEq, Repr

/-- The account of a record, under its username. -/
def AccountRecord.account (record : AccountRecord) : Account where
  clientId := record.clientId
  saltHex := record.saltHex
  passwordHashHex := record.passwordHashHex

structure ClientDirectory where
  accounts : Table String Account := ∅
  tokens : Table String ClientId := ∅
  nextClientId : ClientId := 1

/-- `RegisterOutcome`, with the values given back on `OK`. -/
inductive RegisterOutcome where
  | ok (client : ClientId) (token : String)
  | usernameTaken
  deriving DecidableEq, Repr

/-- `AuthOutcome`, with the values given back on `OK`. -/
inductive AuthOutcome where
  | ok (client : ClientId) (token : String)
  | unknownUsername
  | wrongPassword
  deriving DecidableEq, Repr

namespace ClientDirectory

variable (digest : String → HexText)

/-- `hash_password`. -/
def hashPassword (saltHex password : String) : String :=
  (digest (saltHex ++ password)).text

/-- `register_client`. -/
def registerClient (username password : String) (salt token : HexText) (d : ClientDirectory) :
    RegisterOutcome × ClientDirectory :=
  if username ∈ d.accounts then (.usernameTaken, d)
  else
    let account : Account := {
      clientId := d.nextClientId
      saltHex := salt.text
      passwordHashHex := hashPassword digest salt.text password }
    (.ok account.clientId token.text,
      { accounts := d.accounts.insert username account
        tokens := Table.tryEmplace token.text account.clientId d.tokens
        nextClientId := d.nextClientId + 1 })

/-- `authenticate`. -/
def authenticate (username password : String) (token : HexText) (d : ClientDirectory) :
    AuthOutcome × ClientDirectory :=
  match d.accounts.lookup username with
  | none => (.unknownUsername, d)
  | some account =>
    if hashPassword digest account.saltHex password ≠ account.passwordHashHex then
      (.wrongPassword, d)
    else
      (.ok account.clientId token.text,
        { d with tokens := Table.tryEmplace token.text account.clientId d.tokens })

/-- `resolve_token`. -/
def resolveToken (d : ClientDirectory) (token : String) : Option ClientId :=
  d.tokens.lookup token

/-- `export_accounts`. -/
def exportAccounts (order : IterationOrder String Account) (d : ClientDirectory) :
    List AccountRecord :=
  (order.walk d.accounts).map fun entry => {
    username := entry.1
    clientId := entry.2.clientId
    saltHex := entry.2.saltHex
    passwordHashHex := entry.2.passwordHashHex }

/-- `import_account`. -/
def importAccount (record : AccountRecord) (d : ClientDirectory) : ClientDirectory :=
  { d with
    accounts := d.accounts.insert record.username record.account
    nextClientId :=
      if d.nextClientId ≤ record.clientId then record.clientId + 1 else d.nextClientId }

/-- Accounts imported one after the other. -/
def importAll (records : List AccountRecord) (d : ClientDirectory) : ClientDirectory :=
  records.foldl (fun d record => d.importAccount record) d

/-! ### Numbering -/

/-- The accounts are numbered below the next client id, which is the smallest such
number; their credentials are words. -/
structure Numbered (d : ClientDirectory) : Prop where
  least : 1 ≤ d.nextClientId
  below : ∀ username account, d.accounts.lookup username = some account →
    account.clientId < d.nextClientId
  next : d.nextClientId = 1 ∨ ∃ username account, d.accounts.lookup username = some account ∧
    account.clientId + 1 = d.nextClientId
  words : ∀ username account, d.accounts.lookup username = some account →
    IsWord account.saltHex ∧ IsWord account.passwordHashHex

theorem Numbered.fresh : Numbered {} where
  least := Int.le_refl 1
  below := by rintro username account ⟨⟩
  next := Or.inl rfl
  words := by rintro username account ⟨⟩

variable {digest}

theorem Numbered.registerClient {d : ClientDirectory} (numbered : Numbered d)
    (username password : String) (salt token : HexText) :
    Numbered (d.registerClient digest username password salt token).2 := by
  unfold ClientDirectory.registerClient
  split
  · exact numbered
  · have least := numbered.least
    refine ⟨?_, fun u a look => ?_, Or.inr ⟨username, _, AList.lookup_insert _, rfl⟩,
      fun u a look => ?_⟩
    · exact Int.le_add_one least
    · by_cases eq : u = username
      · subst eq
        obtain rfl := Option.some.inj ((AList.lookup_insert _).symm.trans look)
        exact Int.lt_succ _
      · rw [AList.lookup_insert_ne eq] at look
        exact Int.lt_add_one_of_le (Int.le_of_lt (numbered.below u a look))
    · by_cases eq : u = username
      · subst eq
        obtain rfl := Option.some.inj ((AList.lookup_insert _).symm.trans look)
        exact ⟨salt.isWord, HexText.isWord _⟩
      · rw [AList.lookup_insert_ne eq] at look
        exact numbered.words u a look

theorem Numbered.authenticate {d : ClientDirectory} (numbered : Numbered d)
    (username password : String) (token : HexText) :
    Numbered (d.authenticate digest username password token).2 := by
  unfold ClientDirectory.authenticate
  split
  · exact numbered
  · split
    · exact numbered
    · exact ⟨numbered.least, numbered.below, numbered.next, numbered.words⟩

theorem nextClientId_importAccount (record : AccountRecord) (d : ClientDirectory) :
    (d.importAccount record).nextClientId = max d.nextClientId (record.clientId + 1) := by
  change (if d.nextClientId ≤ record.clientId then record.clientId + 1 else d.nextClientId) = _
  split
  · next larger => exact (max_eq_right (Int.le_add_one larger)).symm
  · next smaller => exact (max_eq_left (Int.not_le.mp smaller)).symm

/-- A new username keeps every account, so also the one with the largest number. -/
theorem Numbered.importAccount {d : ClientDirectory} (numbered : Numbered d)
    {record : AccountRecord} (fresh : record.username ∉ d.accounts)
    (salt : IsWord record.saltHex) (hash : IsWord record.passwordHashHex) :
    Numbered (d.importAccount record) := by
  have kept : ∀ u a, d.accounts.lookup u = some a →
      (d.importAccount record).accounts.lookup u = some a := by
    intro u a look
    have ne : u ≠ record.username := by
      rintro rfl
      exact fresh (AList.lookup_isSome.mp (by rw [look]; rfl))
    exact (AList.lookup_insert_ne ne).trans look
  have added : (d.importAccount record).accounts.lookup record.username = some record.account :=
    AList.lookup_insert _
  have cases : ∀ u a, (d.importAccount record).accounts.lookup u = some a →
      a = record.account ∨ d.accounts.lookup u = some a := by
    intro u a look
    by_cases eq : u = record.username
    · subst eq
      exact Or.inl (Option.some.inj (look.symm.trans added))
    · exact Or.inr ((AList.lookup_insert_ne eq).symm.trans look)
  refine ⟨?least, fun u a look => ?below, ?next, fun u a look => ?words⟩
  case least =>
    rw [nextClientId_importAccount]
    exact le_max_of_le_left numbered.least
  case below =>
    rw [nextClientId_importAccount]
    rcases cases u a look with rfl | look
    · exact lt_of_lt_of_le (Int.lt_succ record.clientId) (le_max_right _ _)
    · exact lt_of_lt_of_le (numbered.below u a look) (le_max_left _ _)
  case next =>
    rw [nextClientId_importAccount]
    rcases max_choice d.nextClientId (record.clientId + 1) with same | larger
    · rw [same]
      exact numbered.next.imp_right fun ⟨u, a, look, eq⟩ => ⟨u, a, kept u a look, eq⟩
    · rw [larger]
      exact Or.inr ⟨record.username, record.account, added, rfl⟩
  case words =>
    rcases cases u a look with rfl | look
    · exact ⟨salt, hash⟩
    · exact numbered.words u a look

variable (digest)

/-- What can become of an empty directory: clients register and log in, and accounts
are restored, each username once. -/
inductive Reachable : ClientDirectory → Prop where
  | fresh : Reachable {}
  | register {d : ClientDirectory} (username password : String) (salt token : HexText) :
      Reachable d → Reachable (d.registerClient digest username password salt token).2
  | authenticate {d : ClientDirectory} (username password : String) (token : HexText) :
      Reachable d → Reachable (d.authenticate digest username password token).2
  | restore {d : ClientDirectory} (record : AccountRecord) : Reachable d →
      record.username ∉ d.accounts → IsWord record.saltHex → IsWord record.passwordHashHex →
      Reachable (d.importAccount record)

variable {digest}

theorem Reachable.numbered {d : ClientDirectory} (reached : Reachable digest d) : Numbered d := by
  induction reached with
  | fresh => exact .fresh
  | register username password salt token _ ih =>
      exact ih.registerClient username password salt token
  | authenticate username password token _ ih => exact ih.authenticate username password token
  | restore record _ fresh salt hash ih => exact ih.importAccount fresh salt hash

/-! ### Exporting -/

theorem mem_exportAccounts {order : IterationOrder String Account} {d : ClientDirectory}
    {record : AccountRecord} : record ∈ d.exportAccounts order ↔
      d.accounts.lookup record.username = some record.account := by
  unfold exportAccounts
  rw [List.mem_map]
  constructor
  · rintro ⟨⟨username, account⟩, mem, rfl⟩
    exact order.mem_walk.mp mem
  · intro look
    exact ⟨⟨record.username, record.account⟩, order.mem_walk.mpr look, rfl⟩

/-- Every username is exported once. -/
theorem nodup_exportAccounts (order : IterationOrder String Account) (d : ClientDirectory) :
    ((d.exportAccounts order).map AccountRecord.username).Nodup := by
  rw [exportAccounts, List.map_map]
  exact order.nodup_keys d.accounts

end ClientDirectory

end StockMarket
