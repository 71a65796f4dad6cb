import StockMarket.Types
import StockMarket.Lib.Table

/-!
The registry of waiting orders (`include/order_registry.hpp`,
`src/order_registry.cpp`).

The two hash tables of the source are `Table`s. Where the source iterates over
one of them the order is a parameter. Every operation holds the registry's mutex
from its first to its last step, so the operations are functions on the registry
and a concurrent use of it is a sequence of calls.
-/

namespace StockMarket

variable {P : Type}

/-- The waiting orders of one symbol. -/
abbrev Bucket (P : Type) := Table Nat (Order P)

structure OrderRegistry (P : Type) where
  waitingBySymbol : Table Symbol (Bucket P) := ∅
  orderSymbolIndex : Table Nat Symbol := ∅

/-- `OrderRegistry::ScanResult`. -/
structure ScanResult (P : Type) where
  released : List (Order P) := []
  expired : List (Order P) := []

/-- The iteration orders that a scan meets. -/
structure ScanOrder (P : Type) where
  symbols : IterationOrder Symbol (Bucket P)
  bucket : Symbol → IterationOrder Nat (Order P)

/-- The order has an expiry and it has passed. -/
def Order.isExpired (o : Order P) (now : Int) : Prop :=
  match o.expiresAt with
  | none => False
  | some t => t ≤ now

instance (o : Order P) (now : Int) : Decidable (o.isExpired now) := by
  unfold Order.isExpired
  cases o.expiresAt <;> infer_instance

/-- The order has no start date or it has passed. -/
def Order.isStarted (o : Order P) (now : Int) : Prop :=
  match o.notBefore with
  | none => True
  | some t => t ≤ now

instance (o : Order P) (now : Int) : Decidable (o.isStarted now) := by
  unfold Order.isStarted
  cases o.notBefore <;> infer_instance

namespace OrderRegistry

/-- `OrderRegistry::add`. -/
def add (r : OrderRegistry P) (order : Order P) : OrderRegistry P where
  waitingBySymbol :=
    Table.update order.symbol ∅ (Table.tryEmplace order.id order) r.waitingBySymbol
  orderSymbolIndex := Table.tryEmplace order.id order.symbol r.orderSymbolIndex

/-- `OrderRegistry::cancel`. -/
def cancel (r : OrderRegistry P) (orderId : Nat) : Bool × OrderRegistry P :=
  match r.orderSymbolIndex.lookup orderId with
  | none => (false, r)
  | some symbol =>
    (true,
      { waitingBySymbol :=
          match r.waitingBySymbol.lookup symbol with
          | none => r.waitingBySymbol
          | some bucket => r.waitingBySymbol.insert symbol (bucket.erase orderId)
        orderSymbolIndex := r.orderSymbolIndex.erase orderId })

/-- `OrderRegistry::size`. -/
def size (r : OrderRegistry P) : Nat :=
  r.orderSymbolIndex.entries.length

/-- `OrderRegistry::all_waiting`. -/
def allWaiting (r : OrderRegistry P) : List (Order P) :=
  r.waitingBySymbol.entries.flatMap fun e => e.2.values

/-- The bucket of a symbol, empty if there is none. -/
def bucket (r : OrderRegistry P) (symbol : Symbol) : Bucket P :=
  (r.waitingBySymbol.lookup symbol).getD ∅

/-! ### Scanning -/

section Scan

variable [LE P] [DecidableLE P]

/-- The loop of `scan_bucket_locked` over the entries of a bucket. -/
def scanBucketLocked (now : Int) (referencePrice : P) :
    List (Sigma fun _ : Nat => Order P) → Bucket P × Table Nat Symbol × ScanResult P →
      Bucket P × Table Nat Symbol × ScanResult P
  | [], s => s
  | ⟨id, order⟩ :: walk, (bucket, index, result) =>
    if order.isExpired now then
      scanBucketLocked now referencePrice walk
        (bucket.erase id, index.erase id, { result with expired := result.expired ++ [order] })
    else if order.isStarted now ∧ order.releaseBandContains referencePrice then
      scanBucketLocked now referencePrice walk
        (bucket.erase id, index.erase id, { result with released := result.released ++ [order] })
    else scanBucketLocked now referencePrice walk (bucket, index, result)

/-- One symbol's part of a scan, added to a result. -/
def scanSymbol (order : IterationOrder Nat (Order P)) (now : Int) (referencePrice : P)
    (symbol : Symbol) (s : OrderRegistry P × ScanResult P) : OrderRegistry P × ScanResult P :=
  match s.1.waitingBySymbol.lookup symbol with
  | none => s
  | some bucket =>
    let scanned := scanBucketLocked now referencePrice (order.walk bucket)
      (bucket, s.1.orderSymbolIndex, s.2)
    (⟨s.1.waitingBySymbol.insert symbol scanned.1, scanned.2.1⟩, scanned.2.2)

/-- The symbols of a scan, one after the other. -/
def scanSymbols (order : Symbol → IterationOrder Nat (Order P)) (now : Int)
    (getReferencePrice : Symbol → P) (symbols : List Symbol)
    (s : OrderRegistry P × ScanResult P) : OrderRegistry P × ScanResult P :=
  symbols.foldl
    (fun s symbol => scanSymbol (order symbol) now (getReferencePrice symbol) symbol s) s

/-- `OrderRegistry::scan_and_release`. -/
def scanAndRelease (order : ScanOrder P) (now : Int) (getReferencePrice : Symbol → P)
    (r : OrderRegistry P) : OrderRegistry P × ScanResult P :=
  scanSymbols order.bucket now getReferencePrice
    ((order.symbols.walk r.waitingBySymbol).map fun e => e.1) (r, {})

/-- `OrderRegistry::scan_and_release_symbol`. -/
def scanAndReleaseSymbol (order : ScanOrder P) (symbol : Symbol) (now : Int)
    (getReferencePrice : Symbol → P) (r : OrderRegistry P) : OrderRegistry P × ScanResult P :=
  scanSymbol (order.bucket symbol) now (getReferencePrice symbol) symbol (r, {})

end Scan

end OrderRegistry

end StockMarket
