import StockMarket.Engine.Threads

/-!
A cancellation in two steps while other threads move the order.

A CANCEL looks for its order in the book and then in the registry; a release pass takes
an order out of the registry and then into the book. So the order can slip past the
CANCEL. `Apart` is the condition under which it cannot: when the CANCEL looks in the book
the order is not on its way there, and no scan releases it before the CANCEL has looked
in the registry. Then a CANCEL that has missed the order in the book and has not found it
gone since finds it waiting (`Sought`). Once a CANCEL has found its order, nobody has an
order of that id any more (`Withdrawn`), and no trade names it (`Silent`).
-/

namespace StockMarket

open Atomic MatchingEngine

variable {P : Type}

/-- The order of this id and symbol waits, is on its way from the registry to a book, or
rests. -/
def Present (orderId : Nat) (s : Symbol) (e : MatchingEngine P) (φs : List (Phase P)) : Prop :=
  ∃ o : Order P, o.id = orderId ∧ o.symbol = s ∧
    (e.registry.Waits o ∨ (∃ φ ∈ φs, o ∈ φ.released) ∨ o ∈ e.allResting)

theorem Present.perm {orderId : Nat} {s : Symbol} {e : MatchingEngine P} {φs φs' : List (Phase P)}
    (same : φs.Perm φs') (present : Present orderId s e φs) : Present orderId s e φs' := by
  obtain ⟨o, id, symbol, waits | ⟨φ, mem, here⟩ | rests⟩ := present
  · exact ⟨o, id, symbol, .inl waits⟩
  · exact ⟨o, id, symbol, .inr (.inl ⟨φ, same.mem_iff.mp mem, here⟩)⟩
  · exact ⟨o, id, symbol, .inr (.inr rests)⟩

/-- The order is not on its way to the book when the CANCEL looks there, and no scan
releases it before the CANCEL has looked in the registry too. -/
structure Apart (orderId : Nat) (s : Symbol) (_ : MatchingEngine P) (others : List (Phase P))
    (φ φ' : Phase P) (_ : MatchingEngine P) : Prop where
  probing : φ = .idle → φ' = .probed orderId s →
    ∀ ψ ∈ others, ∀ o ∈ ψ.released, o.id = orderId → o.symbol ≠ s
  releasing : .probed orderId s ∈ others →
    ∀ o ∈ φ'.released, o ∉ φ.released → o.id = orderId → o.symbol ≠ s

/-! ### Orders that do not wait -/

namespace MatchingEngine

/-- The orders with an id that do not wait. -/
def placed (e : MatchingEngine P) (φs : List (Phase P)) : List (Order P) :=
  φs.flatMap Phase.drafts ++ (φs.flatMap Phase.underway ++ e.allResting)

theorem claimed_eq (e : MatchingEngine P) (φs : List (Phase P)) :
    e.claimed φs = e.placed φs ++ e.waitingOrders := by
  rw [claimed, placed, openOrders, List.append_assoc, List.append_assoc]

theorem mem_placed_of_released {e : MatchingEngine P} {φ : Phase P} {φs : List (Phase P)}
    {o : Order P} (mem : φ ∈ φs) (released : o ∈ φ.released) : o ∈ e.placed φs := by
  refine List.mem_append_right _ (List.mem_append_left _ (List.mem_flatMap.mpr ⟨φ, mem, ?_⟩))
  cases φ <;> first | exact released | cases released

end MatchingEngine

namespace ThreadsInvariant

section

variable [LT P] {e : MatchingEngine P} {φs : List (Phase P)} {o : Order P}

/-- A waiting order's id is nowhere else. -/
theorem not_placed (inv : ThreadsInvariant e φs) (waits : e.registry.Waits o) :
    o.id ∉ (e.placed φs).map Order.id := by
  have distinct := inv.distinct
  rw [claimed_eq, List.map_append, List.nodup_append] at distinct
  intro mem
  have waiting := List.mem_map_of_mem (f := Order.id) (inv.engine.registry.mem_allWaiting.mpr waits)
  exact distinct.2.2 o.id mem o.id waiting rfl

theorem given_of_waits (inv : ThreadsInvariant e φs) (waits : e.registry.Waits o) :
    o.id < e.nextOrderId := by
  refine inv.given o.id ?_
  rw [claimed_eq, List.map_append]
  exact List.mem_append_right _
    (List.mem_map_of_mem (inv.engine.registry.mem_allWaiting.mpr waits))

end

variable [Zero P] [Add P] [Sub P] [Mul P] [IntCast P] [LT P] [DecidableLT P] [LE P] [DecidableLE P]
  [IsStrictOrder P (· < ·)] {e e' : MatchingEngine P} {φ φ' : Phase P} {φs : List (Phase P)}

/-- **Where an order that does not wait came from**: it did not wait before either, or it has
a new id, or a scan released it. -/
theorem placed_of_move (inv : ThreadsInvariant e (φ :: φs)) (moves : Move φ e φ' e') {id : Nat}
    (mem : id ∈ (e'.placed (φ' :: φs)).map Order.id) :
    id = e.nextOrderId ∨ id ∈ (e.placed (φ :: φs)).map Order.id ∨
      ∃ o ∈ φ'.released, e.registry.Waits o ∧ o.id = id := by
  by_cases same : e'.registry = e.registry
  · obtain ⟨taken, cases', ids⟩ := (inv.passage moves).ids
    have waiting : e'.waitingOrders = e.waitingOrders := congrArg OrderRegistry.allWaiting same
    rw [claimed_eq, claimed_eq, waiting, List.map_append, List.map_append,
      ← List.append_assoc] at ids
    rcases List.mem_append.mp (((List.subperm_append_right _).mp ids).subset mem) with new | old
    · rcases cases' with ⟨rfl, -⟩ | ⟨rfl, -⟩
      · cases new
      · exact .inl (List.mem_singleton.mp new)
    · exact .inr (.inl old)
  · cases moves with
    | quiet φ alike => exact absurd alike.registry same
    | queue o =>
        refine .inr (.inl ?_)
        exact ((List.sublist_cons_self o _).append_left _).map Order.id |>.subset mem
    | scan order now s symbols result =>
        obtain ⟨o, here, rfl⟩ := List.mem_map.mp mem
        rcases List.mem_append.mp here with draft | here
        · exact .inr (.inl (List.mem_map_of_mem (List.mem_append_left _ draft)))
        · rcases List.mem_append.mp here with underway | rests
          · rcases List.mem_append.mp underway with released | underway
            · rcases EngineInvariant.mem_released_scanStep inv.engine.registry released
              with old | waited
              · exact .inr (.inl (List.mem_map_of_mem
                (mem_placed_of_released List.mem_cons_self old)))
              · exact .inr (.inr ⟨o, released, waited, rfl⟩)
            · refine .inr (.inl (List.mem_map_of_mem (List.mem_append_right _ ?_)))
              exact List.mem_append_left _ (List.mem_append_right _ underway)
          · refine .inr (.inl (List.mem_map_of_mem (List.mem_append_right _ ?_)))
            exact List.mem_append_right _ rests
    | cancelWaiting φ orderId => exact .inr (.inl mem)
    | miss s miss => exact .inr (.inl mem)
    | found s hit => exact .inr (.inl mem)
    | _ => exact absurd rfl same

/-- **A waiting order keeps waiting** as long as an order of its id and symbol is present and
no scan releases it. -/
theorem keeps_waiting (inv : ThreadsInvariant e (φ :: φs)) (moves : Move φ e φ' e') {o : Order P}
    (waits : e.registry.Waits o) (present : Present o.id o.symbol e' (φ' :: φs))
    (releasing : ∀ r ∈ φ'.released, r ∉ φ.released → r.id = o.id → r.symbol ≠ o.symbol) :
    ∃ r, r.id = o.id ∧ r.symbol = o.symbol ∧ e'.registry.Waits r := by
  obtain ⟨r, id, symbol, waiting | elsewhere⟩ := present
  · exact ⟨r, id, symbol, waiting⟩
  · exfalso
    have placed : o.id ∈ (e'.placed (φ' :: φs)).map Order.id := by
      rw [← id]
      refine List.mem_map_of_mem ?_
      rcases elsewhere with ⟨ψ, mem, here⟩ | rests
      · exact mem_placed_of_released mem here
      · exact List.mem_append_right _ (List.mem_append_right _ rests)
    rcases inv.placed_of_move moves placed with new | old | ⟨w, released, waited, same⟩
    · exact absurd new (inv.given_of_waits waits).ne
    · exact inv.not_placed waits old
    · obtain rfl : w = o := inv.engine.registry.unique waited waits same
      by_cases before : w ∈ φ.released
      · exact inv.not_placed waits
          (List.mem_map_of_mem (mem_placed_of_released List.mem_cons_self before))
      · exact releasing w released before rfl rfl

end ThreadsInvariant

/-! ### A CANCEL that does not find its order -/

/-- What a CANCEL has seen: after a miss in the book its order waits, and it does not miss
the order in the registry. -/
structure Sought [LT P] (orderId : Nat) (s : Symbol) (e : MatchingEngine P) (φ : Phase P)
    (others : List (Phase P)) : Prop where
  threads : ThreadsInvariant e (φ :: others)
  waits : φ = .probed orderId s → ∃ o, o.id = orderId ∧ o.symbol = s ∧ e.registry.Waits o
  found : φ ≠ .missed orderId s

namespace Sought

variable [Zero P] [Add P] [Sub P] [Mul P] [IntCast P] [LT P] [DecidableLT P] [LE P] [DecidableLE P]
  [IsStrictOrder P (· < ·)] {orderId : Nat} {s : Symbol} {e e' : MatchingEngine P}
  {φ φ' ψ ψ' : Phase P} {φs : List (Phase P)}

omit [Zero P] [Add P] [Sub P] [Mul P] [IntCast P] [DecidableLT P] [LE P] [DecidableLE P]
  [IsStrictOrder P (· < ·)] in
theorem perm {φs' : List (Phase P)} (sought : Sought orderId s e φ φs) (same : φs.Perm φs') :
    Sought orderId s e φ φs' :=
  ⟨sought.threads.perm (same.cons φ), sought.waits, sought.found⟩

/-- The move of another thread. -/
theorem other (sought : Sought orderId s e φ (ψ :: φs)) (moves : Move ψ e ψ' e')
    (apart : Apart orderId s e (φ :: φs) ψ ψ' e')
    (present : Present orderId s e' (ψ' :: φ :: φs)) : Sought orderId s e' φ (ψ' :: φs) := by
  have inv := sought.threads.perm (List.Perm.swap ψ φ φs)
  refine ⟨(inv.move moves).perm (List.Perm.swap φ ψ' φs), fun probed => ?_, sought.found⟩
  obtain ⟨o, rfl, rfl, waits⟩ := sought.waits probed
  refine inv.keeps_waiting moves waits present (apart.releasing ?_)
  exact List.mem_cons.mpr (.inl probed.symm)

omit [Zero P] [Add P] [Sub P] [Mul P] [IntCast P] [LE P] [DecidableLE P] in
/-- A cancellation by id that misses leaves the book as it is, without an order of that id. -/
theorem missed_in_book (inv : EngineInvariant e (φs.flatMap Phase.underway))
    (miss : ((e.bookFor s).cancel orderId).1 = false) :
    (e.bookFor s).cancel orderId = (false, e.bookFor s) ∧
      ∀ o ∈ e.allResting, o.id = orderId → o.symbol ≠ s := by
  rcases OrderBook.cancel_cases (inv.book s).sorted orderId with ⟨none, same⟩ | ⟨side, ls, -, hit⟩
  · refine ⟨same, fun o rests id symbol => ?_⟩
    obtain ⟨t, mem⟩ := mem_allResting.mp rests
    obtain ⟨side, here⟩ := mem_restingOrders.mp mem
    obtain rfl : t = s := ((inv.book t).own side o here).2.1.symm.trans symbol
    exact none o mem id
  · rw [hit] at miss
    cases miss

/-- The CANCEL's own move. -/
theorem own (sought : Sought orderId s e φ φs) (moves : Move φ e φ' e')
    (apart : Apart orderId s e φs φ φ' e') (present : Present orderId s e' (φ' :: φs)) :
    Sought orderId s e' φ' φs := by
  refine ⟨sought.threads.move moves, fun probed => ?_, fun missed => ?_⟩
  · by_cases before : φ = .probed orderId s
    · obtain ⟨o, rfl, rfl, waits⟩ := sought.waits before
      refine sought.threads.keeps_waiting moves waits present fun r released => ?_
      rw [probed] at released
      cases released
    · -- the CANCEL has just missed the order in the book
      have idle : φ = .idle := by
        cases moves <;> first | rfl | exact absurd probed before | cases probed
      have unreleased := apart.probing idle probed
      have unrested : ∀ o ∈ e'.allResting, o.id = orderId → o.symbol ≠ s := by
        subst idle
        cases moves with
        | quiet φ same => cases probed
        | cancelBook φ c s => cases probed
        | cancelWaiting φ orderId => cases probed
        | probeUnknown orderId unknown =>
            cases probed
            intro o rests id symbol
            obtain ⟨t, mem⟩ := mem_allResting.mp rests
            obtain ⟨side, here⟩ := mem_restingOrders.mp mem
            obtain rfl : t = s :=
              ((sought.threads.engine.book t).own side o here).2.1.symm.trans symbol
            rw [bookFor, AList.lookup_eq_none.mpr unknown] at mem
            cases mem
        | probe miss =>
            cases probed
            obtain ⟨same, none⟩ := missed_in_book sought.threads.engine miss
            intro o rests
            refine none o ?_
            rw [same] at rests
            obtain ⟨t, mem⟩ := mem_allResting.mp rests
            refine mem_allResting.mpr ⟨t, ?_⟩
            by_cases here : t = s
            · rw [here, bookFor_withBook] at mem
              exact here ▸ mem
            · rwa [bookFor_withBook_ne _ _ _ here] at mem
        | _ => cases probed
      obtain ⟨o, id, symbol, waits | ⟨ψ, mem, released⟩ | rests⟩ := present
      · exact ⟨o, id, symbol, waits⟩
      · rcases List.mem_cons.mp mem with rfl | mem
        · rw [probed] at released
          cases released
        · exact absurd symbol (unreleased ψ mem o released id)
      · exact absurd symbol (unrested o rests id)
  · cases moves with
    | quiet φ same => exact sought.found missed
    | cancelBook φ c s => exact sought.found missed
    | cancelWaiting φ orderId => exact sought.found missed
    | miss s miss =>
        cases missed
        obtain ⟨o, rfl, -, waits⟩ := sought.waits rfl
        rw [sought.threads.engine.registry.cancel_eq waits] at miss
        cases miss
    | _ => cases missed

end Sought

/-! ### A CANCEL that finds its order -/

/-- Nobody has an order of this id any more, nor will. -/
structure Absent (orderId : Nat) (e : MatchingEngine P) (φs : List (Phase P)) : Prop where
  given : orderId < e.nextOrderId
  absent : orderId ∉ (e.claimed φs).map Order.id

/-- After a CANCEL has found its order, nobody has it. -/
structure Withdrawn [LT P] (orderId : Nat) (e : MatchingEngine P) (φ : Phase P)
    (others : List (Phase P)) : Prop where
  threads : ThreadsInvariant e (φ :: others)
  absent : φ = .cancelled orderId → Absent orderId e (φ :: others)

section

variable [LT P] {orderId : Nat} {e e' : MatchingEngine P} {φ φ' ψ ψ' : Phase P}
  {φs φs' : List (Phase P)}

omit [LT P] in
theorem Absent.perm (absent : Absent orderId e φs) (same : φs.Perm φs') : Absent orderId e φs' := by
  have claimed : (e.claimed φs').Perm (e.claimed φs) :=
    (same.flatMap_right Phase.drafts).symm.append
      ((same.flatMap_right Phase.underway).symm.append_right _)
  exact ⟨absent.given, fun mem => absent.absent ((claimed.map Order.id).mem_iff.mp mem)⟩

theorem Absent.passage (absent : Absent orderId e φs) (passage : Passage e φs e' φs') :
    Absent orderId e' φs' :=
  ⟨absent.given.trans_le passage.next, passage.absent absent.given absent.absent⟩

/-- An order that a cancellation took away had its id alone. -/
theorem ThreadsInvariant.absent_of_removed (inv : ThreadsInvariant e φs) {r : Order P}
    (same : φs'.flatMap Phase.underway = φs.flatMap Phase.underway)
    (drafts : φs'.flatMap Phase.drafts = φs.flatMap Phase.drafts)
    (split : (e.openOrders (φs.flatMap Phase.underway)).Perm
      ([r] ++ e'.openOrders (φs.flatMap Phase.underway)))
    (next : e'.nextOrderId = e.nextOrderId) : Absent r.id e' φs' := by
  have claimed : (e.claimed φs).Perm (r :: e'.claimed φs') := by
    unfold MatchingEngine.claimed
    rw [same, drafts]
    exact (split.append_left _).trans List.perm_middle
  have ids := claimed.map Order.id
  refine ⟨next ▸ inv.given r.id (ids.mem_iff.mpr List.mem_cons_self), ?_⟩
  exact (List.nodup_cons.mp (ids.nodup_iff.mp inv.distinct)).1

end

namespace Withdrawn

variable [Zero P] [Add P] [Sub P] [Mul P] [IntCast P] [LT P] [DecidableLT P] [LE P] [DecidableLE P]
  [IsStrictOrder P (· < ·)] {orderId : Nat} {e e' : MatchingEngine P} {φ φ' ψ ψ' : Phase P}
  {φs : List (Phase P)}

omit [Zero P] [Add P] [Sub P] [Mul P] [IntCast P] [DecidableLT P] [LE P] [DecidableLE P]
  [IsStrictOrder P (· < ·)] in
theorem perm {φs' : List (Phase P)} (withdrawn : Withdrawn orderId e φ φs)
    (same : φs.Perm φs') : Withdrawn orderId e φ φs' :=
  ⟨withdrawn.threads.perm (same.cons φ), fun found => (withdrawn.absent found).perm (same.cons φ)⟩

/-- The move of another thread. -/
theorem other (withdrawn : Withdrawn orderId e φ (ψ :: φs)) (moves : Move ψ e ψ' e') :
    Withdrawn orderId e' φ (ψ' :: φs) := by
  have swap := List.Perm.swap ψ φ φs
  have passage := (withdrawn.threads.perm swap).passage moves
  refine ⟨(passage.invariant (withdrawn.threads.perm swap)).perm (List.Perm.swap φ ψ' φs), ?_⟩
  intro found
  exact (((withdrawn.absent found).perm swap).passage passage).perm (List.Perm.swap φ ψ' φs)

/-- The CANCEL's own move. -/
theorem own (withdrawn : Withdrawn orderId e φ φs) (moves : Move φ e φ' e') :
    Withdrawn orderId e' φ' φs := by
  have passage := withdrawn.threads.passage moves
  refine ⟨passage.invariant withdrawn.threads, fun found => ?_⟩
  by_cases before : φ = .cancelled orderId
  · exact (withdrawn.absent before).passage passage
  · cases moves with
    | quiet φ same => exact absurd found before
    | cancelBook φ c s => exact absurd found before
    | cancelWaiting φ id => exact absurd found before
    | @probeFound _ _ s hit =>
        cases found
        obtain ⟨-, gone, split, one⟩ := withdrawn.threads.engine.bookCancelled (.byId orderId) s
        obtain ⟨r, rfl, rfl⟩ := one hit
        exact withdrawn.threads.absent_of_removed rfl rfl split rfl
    | found s hit =>
        cases found
        obtain ⟨-, gone, split, one⟩ := withdrawn.threads.engine.waitingCancelled orderId
        obtain ⟨r, rfl, rfl⟩ := one hit
        exact withdrawn.threads.absent_of_removed rfl rfl split rfl
    | _ => cases found

end Withdrawn

/-! ### No later trade -/

/-- The trades emitted since then do not name the order, which nobody has. -/
structure Silent [LT P] (start : MatchingEngine P) (orderId : Nat) (e : MatchingEngine P)
    (φs : List (Phase P)) : Prop where
  threads : ThreadsInvariant e φs
  absent : Absent orderId e φs
  trades : ∃ ts, e.emitted = start.emitted ++ ts ∧ ∀ t ∈ ts, ∀ side, t.orderId side ≠ orderId

theorem Silent.perm [LT P] {start e : MatchingEngine P} {orderId : Nat} {φs φs' : List (Phase P)}
    (silent : Silent start orderId e φs) (same : φs.Perm φs') : Silent start orderId e φs' :=
  ⟨silent.threads.perm same, silent.absent.perm same, silent.trades⟩

section

variable [Zero P] [Add P] [Sub P] [Mul P] [IntCast P] [LT P] [DecidableLT P] [LE P] [DecidableLE P]
  [IsStrictOrder P (· < ·)] {e e' : MatchingEngine P} {φ φ' : Phase P} {φs : List (Phase P)}

omit [Zero P] [Add P] [Sub P] [Mul P] [IntCast P] [LE P] [DecidableLE P]
    [IsStrictOrder P (· < ·)] in
/-- A trade names the order that is matched and one that rests in its book. -/
theorem EngineInvariant.trade_names {pending : List (Order P)} {o : Order P}
    (inv : EngineInvariant e pending) {clock : Nat → Int} {t : Trade P}
    (mem : t ∈ (matchBook clock o e).1) (side : Side) :
    t.orderId side = o.id ∨ ∃ r ∈ e.allResting, t.orderId side = r.id := by
  rw [inv.matchBook_trades] at mem
  obtain ⟨f, hf, now, rfl⟩ := mem_fillTrades mem
  obtain ⟨l, hl, -, queued, -⟩ := inv.mem_fillFor hf
  have resting : f.1.2 ∈ e.allResting :=
    mem_allResting.mpr ⟨_, mem_restingOrders.mpr ⟨_, mem_restingIn.mpr ⟨l, hl, queued⟩⟩⟩
  by_cases own : side = o.side
  · subst own
    exact .inl (tradeOf_orderId ..)
  · obtain rfl := Side.eq_opposite_of_ne own
    exact .inr ⟨f.1.2, resting, tradeOf_orderId_opposite ..⟩

omit [Zero P] [Add P] [Sub P] [Mul P] [IntCast P] [LE P] [DecidableLE P]
    [IsStrictOrder P (· < ·)] in
/-- So it names open orders. -/
theorem EngineInvariant.orderId_of_trade {pending : List (Order P)} {o : Order P}
    (inv : EngineInvariant e (o :: pending)) {clock : Nat → Int} {t : Trade P}
    (mem : t ∈ (matchBook clock o e).1) (side : Side) :
    t.orderId side ∈ (e.openOrders (o :: pending)).map Order.id := by
  rcases inv.trade_names mem side with eq | ⟨r, hr, eq⟩
  · rw [eq]
    exact List.mem_cons_self
  · rw [eq]
    exact List.mem_map_of_mem (List.mem_append_right _ (List.mem_append_left _ hr))

omit [Add P] [Sub P] [Mul P] [IntCast P] [IsStrictOrder P (· < ·)] in
/-- **What a move emits** names orders that threads and engine have. -/
theorem ThreadsInvariant.emits (inv : ThreadsInvariant e (φ :: φs)) (moves : Move φ e φ' e') :
    ∃ ts, e'.emitted = e.emitted ++ ts ∧
      ∀ t ∈ ts, ∀ side, t.orderId side ∈ (e.claimed (φ :: φs)).map Order.id := by
  have none : e'.emitted = e.emitted → ∃ ts, e'.emitted = e.emitted ++ ts ∧
      ∀ t ∈ ts, ∀ side, t.orderId side ∈ (e.claimed (φ :: φs)).map Order.id :=
    fun same => ⟨[], same.trans (List.append_nil _).symm, fun t mem => by cases mem⟩
  have inside : ∀ id ∈ (e.openOrders ((φ :: φs).flatMap Phase.underway)).map Order.id,
      id ∈ (e.claimed (φ :: φs)).map Order.id := fun id mem => by
    rw [claimed, List.map_append]
    exact List.mem_append_right _ mem
  cases moves with
  | quiet φ same => exact none same.emitted
  | matchNew clock o =>
      exact ⟨_, rfl, fun t mem side => inside _ (inv.engine.orderId_of_trade mem side)⟩
  | matchReleased clock o later =>
      exact ⟨_, rfl, fun t mem side => inside _ (inv.engine.orderId_of_trade mem side)⟩
  | _ => exact none rfl

theorem Silent.move {start : MatchingEngine P} {orderId : Nat}
    (silent : Silent start orderId e (φ :: φs)) (moves : Move φ e φ' e') :
    Silent start orderId e' (φ' :: φs) := by
  have passage := silent.threads.passage moves
  refine ⟨passage.invariant silent.threads, silent.absent.passage passage, ?_⟩
  obtain ⟨ts, before, unnamed⟩ := silent.trades
  obtain ⟨us, after, named⟩ := silent.threads.emits moves
  refine ⟨ts ++ us, by rw [after, before, List.append_assoc], fun t mem side same => ?_⟩
  rcases List.mem_append.mp mem with old | new
  · exact unnamed t old side same
  · exact silent.absent.absent (same ▸ named t new side)

end

end StockMarket
