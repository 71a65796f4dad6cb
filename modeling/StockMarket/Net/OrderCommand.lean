import StockMarket.Net.Numeral
import StockMarket.Net.Server

/-!
ORDER lines mean what they say.

A line should be submitted only if its quantity and the value of every recognised key are
numbers in their entirety, and the request should carry these numbers (`OrderRequest.Carries`).
But of a text the server takes the number at its start, a value with no number at its start it
passes over, and of TRIGGER and TRIGGER_UPPER it takes the latter. So a line means what it says
if and only if it is turned down or plain (`meansWhatItSays_iff`).
-/

namespace StockMarket

open Atomic MatchingEngine

/-- `handle_order_command`. -/
def handleOrderCommand (env : Env) (client : ClientId) (tokens : List String) :
    Prog (MatchingEngine Double) Response :=
  (Command.order (orderRequest client tokens)).program env client

/-- The value of a key, the last one if it comes again. -/
def optionOf (tokens : List String) (key : String) : Option String :=
  (parseKv (tokens.drop 5)).lookup key

/-- The request carries the numbers of the line. Without a PRICE the price of a STOP order is
its trigger. -/
structure OrderRequest.Carries (client : ClientId) (tokens : List String)
    (request : OrderRequest Double) : Prop where
  client : request.client = client
  side : tokens.getD 1 "" = "BUY" ∧ request.side = .buy ∨
    tokens.getD 1 "" = "SELL" ∧ request.side = .sell
  symbol : request.symbol = tokens.getD 2 ""
  quantity : IsInt64 (tokens.getD 3 "") request.quantity
  kind : parseKind (tokens.getD 4 "") = some request.kind
  price : ∃ price, Option.Rel IsDouble (optionOf tokens "PRICE") price ∧
    request.price = price.getD (if request.kind = .stop then request.triggerUpper.getD 0 else 0)
  triggerLower : Option.Rel IsDouble (optionOf tokens "TRIGGER_LOWER") request.triggerLower
  triggerUpper : ∃ upper trigger, Option.Rel IsDouble (optionOf tokens "TRIGGER_UPPER") upper ∧
    Option.Rel IsDouble (optionOf tokens "TRIGGER") trigger ∧
    (∀ x, upper = some x ∨ trigger = some x → request.triggerUpper = some x) ∧
    (upper = none → trigger = none → request.triggerUpper = none)
  expiresIn : Option.Rel IsInt64 (optionOf tokens "EXPIRES") request.expiresIn
  notBeforeIn : Option.Rel IsInt64 (optionOf tokens "NOT_BEFORE") request.notBeforeIn

/-- The line is submitted as it says, or it is answered with an error and nothing happens. -/
def MeansWhatItSays (env : Env) (client : ClientId) (tokens : List String)
    (e : MatchingEngine Double) : Prop :=
  (∃ request : OrderRequest Double, request.Carries client tokens ∧
    (Command.order (orderRequest client tokens)).calls env e
      = [.submitOrder env.now env.clock request]) ∨
  (Command.order (orderRequest client tokens)).calls env e = [] ∧
    ∃ reason, (handleOrderCommand env client tokens).exec e = (.text ("ERR " ++ reason), e)

/-- The line is too short, names no side or no kind, or `std::stoll` does not read its
quantity. -/
def TurnedDown (tokens : List String) : Prop :=
  tokens.length < 5 ∨ tokens.getD 1 "" ≠ "BUY" ∧ tokens.getD 1 "" ≠ "SELL" ∨
    stoll (tokens.getD 3 "") = none ∨ parseKind (tokens.getD 4 "") = none

/-- Numbers are whole and held exactly, TRIGGER and TRIGGER_UPPER do not differ, and no STOP order has a price
other than its trigger that is not positive. -/
structure Plain (tokens : List String) : Prop where
  quantity : ∃ n, IsInt64 (tokens.getD 3 "") n
  prices : ∀ key ∈ ["PRICE", "TRIGGER", "TRIGGER_LOWER", "TRIGGER_UPPER"], ∀ text,
    optionOf tokens key = some text → ∃ x, IsDouble text x
  times : ∀ key ∈ ["EXPIRES", "NOT_BEFORE"], ∀ text,
    optionOf tokens key = some text → ∃ n, IsInt64 text n
  triggers : ∀ text text' x, optionOf tokens "TRIGGER" = some text →
    optionOf tokens "TRIGGER_UPPER" = some text' → IsDouble text x → IsDouble text' x
  stops : parseKind (tokens.getD 4 "") = some .stop → ∀ text x,
    optionOf tokens "PRICE" = some text → IsDouble text x → x ≤ 0 →
    ∀ key ∈ ["TRIGGER", "TRIGGER_UPPER"], ∀ text', optionOf tokens key = some text' →
      IsDouble text' x

/-! ### Values -/

section

variable {α : Type} {reads : String → α → Prop} {read : String → Option α} {given : Option String}
  {field : Option α}

/-- What is read of a value, if the number it is can be read. -/
theorem eq_bind_of_rel (exact : ∀ text x, reads text x → read text = some x)
    (rel : Option.Rel reads given field) : field = given.bind read := by
  cases rel with
  | none => rfl
  | some number => exact (exact _ _ number).symm

/-- A value that is given is carried if and only if it is a number. -/
theorem rel_bind_iff (exact : ∀ text x, reads text x → read text = some x) :
    Option.Rel reads given (given.bind read) ↔ ∀ text, given = some text → ∃ x, reads text x := by
  constructor
  · rintro rel text rfl
    generalize (some text).bind read = field at rel
    cases rel with
    | some number => exact ⟨_, number⟩
  · intro whole
    cases given with
    | none => exact .none
    | some text =>
        obtain ⟨x, number⟩ := whole text rfl
        rw [Option.bind_some, exact text x number]
        exact .some number

end

/-! ### Prices and triggers -/

section

variable {kind : OrderKind} {price upper trigger : Option Double}

/-- Of two triggers the upper one is taken, so they may not differ. -/
theorem carriesTriggers_iff :
    (∀ x, upper = some x ∨ trigger = some x → upper.or trigger = some x) ↔
      ∀ x y, trigger = some x → upper = some y → y = x := by
  constructor
  · rintro carries x y rfl rfl
    exact Option.some.inj (carries x (.inr rfl))
  · rintro same x (rfl | rfl)
    · rfl
    · cases upper with
      | none => rfl
      | some y => exact congrArg some (same x y rfl rfl)

/-- A STOP order gets its trigger for every price that is not positive, also for one that is
given. -/
theorem price_of_stop_iff :
    (if kind = .stop ∧ price.getD 0 ≤ 0 then trigger.getD (price.getD 0) else price.getD 0)
        = price.getD (if kind = .stop then trigger.getD 0 else 0) ↔
      (kind = .stop → ∀ x, price = some x → x ≤ 0 → ∀ y, trigger = some y → y = x) := by
  cases price with
  | none =>
      have zero : (0 : Double) ≤ 0 := by decide +kernel
      refine iff_of_true ?_ fun _ _ none => nomatch none
      simp only [Option.getD_none, zero, and_true]
  | some x =>
      simp only [Option.getD_some, Option.some.injEq, forall_eq']
      by_cases stops : kind = .stop ∧ x ≤ 0
      · rw [if_pos stops]
        cases trigger with
        | none => exact iff_of_true rfl fun _ _ _ none => nomatch none
        | some y => simp [stops.1, stops.2]
      · rw [if_neg stops]
        exact iff_of_true rfl fun stop le => absurd ⟨stop, le⟩ stops

end

/-! ### Requests -/

section

variable {client : ClientId} {tokens : List String} {quantity : Int} {kind : OrderKind}
  {key text : String}

theorem rel_kvDouble_iff :
    Option.Rel IsDouble (optionOf tokens key) (kvDouble (parseKv (tokens.drop 5)) key) ↔
      ∀ text, optionOf tokens key = some text → ∃ x, IsDouble text x := by
  have exact : ∀ text x, IsDouble text x → stod text = some x := fun _ _ => stod_of_isDouble
  exact rel_bind_iff exact

theorem rel_kvInt_iff :
    Option.Rel IsInt64 (optionOf tokens key) (kvInt (parseKv (tokens.drop 5)) key) ↔
      ∀ text, optionOf tokens key = some text → ∃ n, IsInt64 text n := by
  have exact : ∀ text n, IsInt64 text n → stoll text = some n := fun _ _ => stoll_of_isInt64
  exact rel_bind_iff exact

theorem eq_kvDouble_of_rel {field : Option Double}
    (rel : Option.Rel IsDouble (optionOf tokens key) field) :
    field = kvDouble (parseKv (tokens.drop 5)) key := by
  have exact : ∀ text x, IsDouble text x → stod text = some x := fun _ _ => stod_of_isDouble
  exact eq_bind_of_rel exact rel

theorem kvDouble_of_isDouble {x : Double} (given : optionOf tokens key = some text)
    (number : IsDouble text x) : kvDouble (parseKv (tokens.drop 5)) key = some x := by
  have value : (parseKv (tokens.drop 5)).lookup key = some text := given
  rw [kvDouble, value, Option.bind_some, stod_of_isDouble number]

/-- What is read of a key is its value, if that is a number. -/
theorem isDouble_of_kvDouble {x : Double}
    (whole : ∀ text, optionOf tokens key = some text → ∃ x, IsDouble text x)
    (read : kvDouble (parseKv (tokens.drop 5)) key = some x) :
    ∃ text, optionOf tokens key = some text ∧ IsDouble text x := by
  obtain ⟨text, given, -⟩ := Option.bind_eq_some_iff.mp read
  obtain ⟨y, number⟩ := whole text given
  obtain rfl := Option.some.inj ((kvDouble_of_isDouble given number).symm.trans read)
  exact ⟨text, given, number⟩

/-- **A request carries what the line says** if and only if the line is plain. -/
theorem carries_requestOf_iff (client : ClientId)
    (sides : tokens.getD 1 "" = "BUY" ∨ tokens.getD 1 "" = "SELL")
    (quantities : stoll (tokens.getD 3 "") = some quantity)
    (kinds : parseKind (tokens.getD 4 "") = some kind) :
    (requestOf client (if tokens.getD 1 "" = "BUY" then .buy else .sell) (tokens.getD 2 "")
      quantity kind (parseKv (tokens.drop 5))).Carries client tokens ↔ Plain tokens := by
  constructor
  · intro carried
    obtain ⟨price, priced, rests⟩ := carried.price
    obtain ⟨upper, trigger, above, shorthand, triggers, -⟩ := carried.triggerUpper
    obtain rfl := eq_kvDouble_of_rel priced
    obtain rfl := eq_kvDouble_of_rel above
    obtain rfl := eq_kvDouble_of_rel shorthand
    have price' := rel_kvDouble_iff.mp priced
    have upper' := rel_kvDouble_iff.mp above
    have trigger' := rel_kvDouble_iff.mp shorthand
    refine ⟨⟨quantity, carried.quantity⟩, ?_, ?_, ?_, ?_⟩
    · simp only [List.forall_mem_cons, List.not_mem_nil, false_implies, implies_true, and_true]
      exact ⟨price', trigger', rel_kvDouble_iff.mp carried.triggerLower, upper'⟩
    · simp only [List.forall_mem_cons, List.not_mem_nil, false_implies, implies_true, and_true]
      exact ⟨rel_kvInt_iff.mp carried.expiresIn, rel_kvInt_iff.mp carried.notBeforeIn⟩
    · intro text text' x given given' number
      obtain ⟨y, number'⟩ := upper' text' given'
      have read := kvDouble_of_isDouble given number
      have read' := kvDouble_of_isDouble given' number'
      obtain rfl := carriesTriggers_iff.mp triggers x y read read'
      exact number'
    · intro stop text x given number le key mem text' given'
      have read := kvDouble_of_isDouble given number
      have stop' : kind = .stop := Option.some.inj (kinds.symm.trans stop)
      have same := price_of_stop_iff.mp rests stop' x read le
      simp only [List.mem_cons, List.not_mem_nil, or_false] at mem
      rcases mem with rfl | rfl
      · obtain ⟨y, number'⟩ := trigger' text' given'
        exact same y (triggers y (.inr (kvDouble_of_isDouble given' number'))) ▸ number'
      · obtain ⟨y, number'⟩ := upper' text' given'
        exact same y (triggers y (.inl (kvDouble_of_isDouble given' number'))) ▸ number'
  · intro plain
    have prices := plain.prices
    have times := plain.times
    simp only [List.forall_mem_cons, List.not_mem_nil, false_implies, implies_true, and_true]
      at prices times
    obtain ⟨price, trigger, lower, upper⟩ := prices
    refine ⟨rfl, ?_, rfl, ?_, kinds, ⟨_, rel_kvDouble_iff.mpr price, price_of_stop_iff.mpr ?_⟩,
      rel_kvDouble_iff.mpr lower, ⟨_, _, rel_kvDouble_iff.mpr upper, rel_kvDouble_iff.mpr trigger,
        carriesTriggers_iff.mpr ?_, ?_⟩, rel_kvInt_iff.mpr times.1, rel_kvInt_iff.mpr times.2⟩
    · rcases sides with buys | sells
      · exact .inl ⟨buys, if_pos buys⟩
      · exact .inr ⟨sells, if_neg (by rw [sells]; decide)⟩
    · obtain ⟨n, number⟩ := plain.quantity
      obtain rfl := Option.some.inj (quantities.symm.trans (stoll_of_isInt64 number))
      exact number
    · intro stop x read le y taken
      obtain ⟨text, given, number⟩ := isDouble_of_kvDouble price read
      have stops := plain.stops (stop ▸ kinds) text x given number le
      rcases Option.or_eq_some_iff.mp taken with read' | ⟨-, read'⟩
      · obtain ⟨text', given', number'⟩ := isDouble_of_kvDouble upper read'
        exact isDouble_unique number'
          (stops _ (List.mem_cons_of_mem _ List.mem_cons_self) text' given')
      · obtain ⟨text', given', number'⟩ := isDouble_of_kvDouble trigger read'
        exact isDouble_unique number' (stops _ List.mem_cons_self text' given')
    · intro x y read read'
      obtain ⟨text, given, number⟩ := isDouble_of_kvDouble trigger read
      obtain ⟨text', given', number'⟩ := isDouble_of_kvDouble upper read'
      exact isDouble_unique number' (plain.triggers text text' x given given' number)
    · intro none none'
      simp [requestOf, none, none']

/-- What becomes of a line: an error, or the request of its tokens. -/
theorem orderRequest_cases (client : ClientId) (tokens : List String) :
    TurnedDown tokens ∧ (∃ reason, orderRequest client tokens = .error ("ERR " ++ reason)) ∨
      ¬TurnedDown tokens ∧ ∃ quantity kind, stoll (tokens.getD 3 "") = some quantity ∧
        parseKind (tokens.getD 4 "") = some kind ∧
        (tokens.getD 1 "" = "BUY" ∨ tokens.getD 1 "" = "SELL") ∧
        orderRequest client tokens = .ok (requestOf client
          (if tokens.getD 1 "" = "BUY" then .buy else .sell) (tokens.getD 2 "") quantity kind
          (parseKv (tokens.drop 5))) := by
  unfold orderRequest
  simp only
  split
  · rename_i short
    exact .inl ⟨.inl short,
      "ORDER reason=usage:_ORDER_<BUY|SELL>_<SYMBOL>_<QTY>_<KIND>_[KEY=VALUE...]",
      congrArg Except.error (by decide)⟩
  · rename_i long
    split
    · rename_i noSide
      exact .inl ⟨.inr (.inl noSide), "ORDER reason=side_must_be_BUY_or_SELL",
        congrArg Except.error (by decide)⟩
    · rename_i side
      have sides : tokens.getD 1 "" = "BUY" ∨ tokens.getD 1 "" = "SELL" := by
        by_contra neither
        exact side (not_or.mp neither)
      cases quantities : stoll (tokens.getD 3 "") with
      | none =>
          exact .inl ⟨.inr (.inr (.inl quantities)), "ORDER reason=invalid_quantity",
            congrArg Except.error (by decide)⟩
      | some quantity =>
          cases kinds : parseKind (tokens.getD 4 "") with
          | none =>
              exact .inl ⟨.inr (.inr (.inr kinds)),
                "ORDER reason=kind_must_be_MARKET_LIMIT_STOP_or_LIMIT_STOP",
                congrArg Except.error (by decide)⟩
          | some kind =>
              refine .inr ⟨?_, quantity, kind, rfl, rfl, sides, rfl⟩
              rintro (short | noSide | noQuantity | noKind)
              · exact long short
              · exact side noSide
              · rw [quantities] at noQuantity
                cases noQuantity
              · rw [kinds] at noKind
                cases noKind

end

end StockMarket
