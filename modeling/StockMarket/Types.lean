import Mathlib.Algebra.Order.Ring.Int

/-!
The value types of the simulation engine (`include/types.hpp`).

Everything is generic in the type `P` of prices and cash, a C++ `double` in the
source: the exact development takes `ℚ`, and `StockMarket.Net.Double` adds the
special values. Order ids (`Nat`), client ids, quantities and instants (`Int`)
are the source's 64-bit integers, without their bound. A missing release bound,
`-infinity` or `+infinity` in the source, is `none`.
-/

namespace StockMarket

abbrev ClientId := Int
abbrev Symbol := String

/-- `now + s`, for a `steady_clock` instant in nanoseconds and a duration in
seconds. -/
def after (now : Int) (s : Int) : Int :=
  now + s * 1000000000

inductive Side where
  | buy
  | sell
  deriving DecidableEq, Repr

/-- The other side of the book. -/
def Side.opposite : Side → Side
  | .buy => .sell
  | .sell => .buy

@[simp] theorem Side.opposite_opposite (s : Side) : s.opposite.opposite = s := by
  cases s <;> rfl

theorem Side.opposite_ne (s : Side) : s.opposite ≠ s := by
  cases s <;> simp [Side.opposite]

theorem Side.eq_opposite_of_ne {s t : Side} (ne : t ≠ s) : t = s.opposite := by
  cases s <;> cases t <;> first | rfl | exact absurd rfl ne

inductive OrderKind where
  | market
  | limit
  | stop
  | limitStop
  deriving DecidableEq, Repr

/-- One order. `releaseLower` and `releaseUpper` are the band the reference price
has to be in before the order may enter the book. -/
structure Order (P : Type) where
  id : Nat
  client : ClientId
  side : Side
  kind : OrderKind
  symbol : Symbol
  quantity : Int
  price : P
  releaseLower : Option P
  releaseUpper : Option P
  submittedAt : Int
  notBefore : Option Int
  expiresAt : Option Int
  deriving DecidableEq, Repr

/-- The order with another quantity, all else unchanged. -/
def Order.withQuantity {P : Type} (o : Order P) (q : Int) : Order P :=
  { o with quantity := q }

section

variable {P : Type} (o : Order P) (q q' : Int)

@[simp] theorem Order.withQuantity_id : (o.withQuantity q).id = o.id := rfl
@[simp] theorem Order.withQuantity_client : (o.withQuantity q).client = o.client := rfl
@[simp] theorem Order.withQuantity_side : (o.withQuantity q).side = o.side := rfl
@[simp] theorem Order.withQuantity_kind : (o.withQuantity q).kind = o.kind := rfl
@[simp] theorem Order.withQuantity_symbol : (o.withQuantity q).symbol = o.symbol := rfl
@[simp] theorem Order.withQuantity_quantity : (o.withQuantity q).quantity = q := rfl
@[simp] theorem Order.withQuantity_price : (o.withQuantity q).price = o.price := rfl
@[simp] theorem Order.withQuantity_withQuantity :
    (o.withQuantity q).withQuantity q' = o.withQuantity q' := rfl
@[simp] theorem Order.withQuantity_self : o.withQuantity o.quantity = o := rfl

end

/-- `Order::release_band_contains`. A missing bound is an infinite one, which
every reference price satisfies that is comparable at all: `r ≤ r` fails for a
NaN only. -/
def Order.releaseBandContains {P : Type} [LE P] (o : Order P) (referencePrice : P) : Prop :=
  (match o.releaseLower with
    | none => referencePrice ≤ referencePrice
    | some lower => lower ≤ referencePrice) ∧
  (match o.releaseUpper with
    | none => referencePrice ≤ referencePrice
    | some upper => referencePrice ≤ upper)

instance {P : Type} [LE P] [DecidableLE P] (o : Order P) (r : P) :
    Decidable (o.releaseBandContains r) := by
  unfold Order.releaseBandContains
  cases o.releaseLower <;> cases o.releaseUpper <;> infer_instance

/-- What a caller asks for. `expiresIn` and `notBeforeIn` are relative to the
submission. -/
structure OrderRequest (P : Type) where
  client : ClientId
  side : Side
  kind : OrderKind
  symbol : Symbol
  quantity : Int
  price : P
  triggerLower : Option P
  triggerUpper : Option P
  expiresIn : Option Int
  notBeforeIn : Option Int
  deriving DecidableEq, Repr

/-- A completed match between two orders, at the resting order's price. -/
structure Trade (P : Type) where
  buyOrderId : Nat
  sellOrderId : Nat
  buyer : ClientId
  seller : ClientId
  symbol : Symbol
  quantity : Int
  price : P
  timestamp : Int
  deriving DecidableEq, Repr

/-- The order a trade names on one side. -/
def Trade.orderId {P : Type} (t : Trade P) : Side → Nat
  | .buy => t.buyOrderId
  | .sell => t.sellOrderId

/-- The client a trade names on one side. -/
def Trade.party {P : Type} (t : Trade P) : Side → ClientId
  | .buy => t.buyer
  | .sell => t.seller

/-- The outcome of `submit_order`. An empty `rejectReason` means no rejection. -/
structure SubmitResult (P : Type) where
  accepted : Bool := false
  queued : Bool := false
  rejectReason : String := ""
  orderId : Nat
  filledQuantity : Int := 0
  trades : List (Trade P) := []
  deriving DecidableEq, Repr

/-- The total quantity of a list of orders. -/
def totalQuantity {P : Type} (orders : List (Order P)) : Int :=
  (orders.map Order.quantity).sum

/-- The trades of one symbol. -/
def tradesOf {P : Type} (s : Symbol) (ts : List (Trade P)) :
    List (Trade P) :=
  ts.filter fun t => t.symbol = s

/-- The total quantity of a list of trades. -/
def tradedQuantity {P : Type} (trades : List (Trade P)) : Int :=
  (trades.map Trade.quantity).sum

section

variable {P : Type}

@[simp] theorem tradedQuantity_cons (t : Trade P) (ts : List (Trade P)) :
    tradedQuantity (t :: ts) = t.quantity + tradedQuantity ts := rfl

theorem tradedQuantity_append (ts us : List (Trade P)) :
    tradedQuantity (ts ++ us) = tradedQuantity ts + tradedQuantity us := by
  simp [tradedQuantity]

end

end StockMarket
