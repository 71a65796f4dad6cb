import StockMarket.OrderBook

/-!
What a match does to the walked side of the book, for every price type.

The nested loops over levels and queues are one greedy fill
(`StockMarket.Greedy`) of the flat list of resting orders in the accepted
levels: `matchLevels_trades`, `matchLevels_incoming` and `matchLevels_left` say so
for the trades, for the incoming order and for the orders left. Nothing is
assumed about the book or about the comparison of prices. `mem_matchLevels_left`
and `matchLevels_left_prices` say what becomes of each single level.
-/

namespace StockMarket

variable {P : Type}

/-- The resting orders of some levels with the key of their level. -/
def entries (ls : List (Level P)) : List (P × Order P) :=
  ls.flatMap fun l => l.queue.map (l.price, ·)

@[simp] theorem entries_nil : entries ([] : List (Level P)) = [] := rfl

@[simp] theorem entries_cons (l : Level P) (ls : List (Level P)) :
    entries (l :: ls) = l.queue.map (l.price, ·) ++ entries ls := rfl

theorem entries_append (ls ls' : List (Level P)) :
    entries (ls ++ ls') = entries ls ++ entries ls' := List.flatMap_append

theorem restingIn_append (ls ls' : List (Level P)) :
    restingIn (ls ++ ls') = restingIn ls ++ restingIn ls' := List.flatMap_append

theorem map_snd_entries : ∀ ls : List (Level P), (entries ls).map Prod.snd = restingIn ls
  | [] => rfl
  | l :: ls => by
      rw [entries_cons, List.map_append, map_snd_entries ls, restingIn_cons, List.map_map]
      congr 1
      exact List.map_id l.queue

theorem mem_entries {e : P × Order P} {ls : List (Level P)} :
    e ∈ entries ls ↔ ∃ l ∈ ls, l.price = e.1 ∧ e.2 ∈ l.queue := by
  simp only [entries, List.mem_flatMap, List.mem_map]
  constructor
  · rintro ⟨l, hl, o, ho, rfl⟩
    exact ⟨l, hl, rfl, ho⟩
  · rintro ⟨l, hl, hp, ho⟩
    exact ⟨l, hl, e.2, ho, by rw [hp]⟩

/-- The quantity of an entry, its capacity in a greedy fill. -/
def entryQuantity (e : P × Order P) : Int := e.2.quantity

/-- An entry after it gave `a` units. -/
def shrinkEntry (e : P × Order P) (a : Int) : P × Order P :=
  (e.1, e.2.withQuantity (e.2.quantity - a))

/-- The trades of a fill, in order; `n` trades were made before. -/
def fillTrades (aggressor : Side) (symbol : Symbol) (incoming : Order P)
    (clock : Nat → Int) : Nat → List ((P × Order P) × Int) → List (Trade P)
  | _, [] => []
  | n, f :: fs =>
    tradeOf aggressor symbol incoming f.1.2 f.2 f.1.1 (clock n) ::
      fillTrades aggressor symbol incoming clock (n + 1) fs

section

variable {aggressor : Side} {symbol : Symbol} {incoming : Order P} {clock : Nat → Int}

@[simp] theorem tradeOf_withQuantity (resting : Order P) (q qty : Int) (p : P)
    (now : Int) : tradeOf aggressor symbol (incoming.withQuantity q) resting qty p now
      = tradeOf aggressor symbol incoming resting qty p now := by
  cases aggressor <;> rfl

@[simp] theorem tradeOf_quantity (resting : Order P) (qty : Int) (p : P) (now : Int) :
    (tradeOf aggressor symbol incoming resting qty p now).quantity = qty := by
  cases aggressor <;> rfl

@[simp] theorem tradeOf_price (resting : Order P) (qty : Int) (p : P) (now : Int) :
    (tradeOf aggressor symbol incoming resting qty p now).price = p := by
  cases aggressor <;> rfl

@[simp] theorem tradeOf_symbol (resting : Order P) (qty : Int) (p : P) (now : Int) :
    (tradeOf aggressor symbol incoming resting qty p now).symbol = symbol := by
  cases aggressor <;> rfl

@[simp] theorem tradeOf_orderId (resting : Order P) (qty : Int) (p : P) (now : Int) :
    (tradeOf aggressor symbol incoming resting qty p now).orderId aggressor = incoming.id := by
  cases aggressor <;> rfl

@[simp] theorem tradeOf_orderId_opposite (resting : Order P) (qty : Int) (p : P)
    (now : Int) :
    (tradeOf aggressor symbol incoming resting qty p now).orderId aggressor.opposite
      = resting.id := by
  cases aggressor <;> rfl

@[simp] theorem tradeOf_party (resting : Order P) (qty : Int) (p : P) (now : Int) :
    (tradeOf aggressor symbol incoming resting qty p now).party aggressor = incoming.client := by
  cases aggressor <;> rfl

@[simp] theorem tradeOf_party_opposite (resting : Order P) (qty : Int) (p : P)
    (now : Int) :
    (tradeOf aggressor symbol incoming resting qty p now).party aggressor.opposite
      = resting.client := by
  cases aggressor <;> rfl

@[simp] theorem fillTrades_withQuantity (q : Int) : ∀ (n : Nat)
    (fs : List ((P × Order P) × Int)),
    fillTrades aggressor symbol (incoming.withQuantity q) clock n fs
      = fillTrades aggressor symbol incoming clock n fs
  | _, [] => rfl
  | n, f :: fs => by
      simp only [fillTrades, tradeOf_withQuantity, fillTrades_withQuantity q (n + 1) fs]

@[simp] theorem fillTrades_length : ∀ (n : Nat) (fs : List ((P × Order P) × Int)),
    (fillTrades aggressor symbol incoming clock n fs).length = fs.length
  | _, [] => rfl
  | n, _ :: fs => by simp only [fillTrades, List.length_cons, fillTrades_length (n + 1) fs]

theorem fillTrades_append : ∀ (n : Nat) (fs gs : List ((P × Order P) × Int)),
    fillTrades aggressor symbol incoming clock n (fs ++ gs)
      = fillTrades aggressor symbol incoming clock n fs
        ++ fillTrades aggressor symbol incoming clock (n + fs.length) gs
  | _, [], _ => rfl
  | n, f :: fs, gs => by
      simp only [List.cons_append, fillTrades, List.length_cons, fillTrades_append (n + 1) fs gs]
      congr 3
      omega

/-- Anything read off the trades of a fill that ignores the time stamp can be
read off the fill. -/
theorem map_fillTrades {β : Type} (f : Trade P → β) (g : (P × Order P) × Int → β)
    (same : ∀ e now, f (tradeOf aggressor symbol incoming e.1.2 e.2 e.1.1 now) = g e) :
    ∀ (n : Nat) (fs : List ((P × Order P) × Int)),
      (fillTrades aggressor symbol incoming clock n fs).map f = fs.map g
  | _, [] => rfl
  | n, e :: fs => by
      simp only [fillTrades, List.map_cons, same, map_fillTrades f g same (n + 1) fs]

theorem tradedQuantity_fillTrades (n : Nat) (fs : List ((P × Order P) × Int)) :
    tradedQuantity (fillTrades aggressor symbol incoming clock n fs)
      = (fs.map Prod.snd).sum := by
  rw [tradedQuantity, map_fillTrades Trade.quantity Prod.snd (fun _ _ => tradeOf_quantity ..)]

theorem mem_fillTrades {t : Trade P} {n : Nat} {fs : List ((P × Order P) × Int)}
    (mem : t ∈ fillTrades aggressor symbol incoming clock n fs) :
    ∃ f ∈ fs, ∃ now, t = tradeOf aggressor symbol incoming f.1.2 f.2 f.1.1 now := by
  induction fs generalizing n with
  | nil => cases mem
  | cons f fs ih =>
      rw [fillTrades, List.mem_cons] at mem
      rcases mem with rfl | mem
      · exact ⟨f, List.mem_cons_self, _, rfl⟩
      · obtain ⟨g, hg, now, eq⟩ := ih mem
        exact ⟨g, List.mem_cons_of_mem _ hg, now, eq⟩

/-! ### One queue -/

variable (aggressor symbol clock) in
theorem matchQueue_trades (levelPrice : P) : ∀ (n : Nat) (incoming : Order P)
    (queue : List (Order P)),
    (matchQueue aggressor symbol levelPrice clock n incoming queue).trades
      = fillTrades aggressor symbol incoming clock n
          (Greedy.take entryQuantity incoming.quantity (queue.map (levelPrice, ·)))
  | _, _, [] => rfl
  | n, incoming, resting :: queue => by
      rw [matchQueue, List.map_cons, Greedy.take]
      by_cases open' : 0 < incoming.quantity
      · rw [if_pos open', if_pos open']
        by_cases full : (resting.withQuantity
            (resting.quantity - min incoming.quantity resting.quantity)).quantity = 0
        · simp only [full, if_true, fillTrades]
          rw [matchQueue_trades levelPrice, fillTrades_withQuantity]
          rfl
        · have used : incoming.quantity - min incoming.quantity resting.quantity ≤ 0 := by
            simp only [Order.withQuantity_quantity] at full
            omega
          rw [if_neg full]
          simp only [fillTrades, entryQuantity, Greedy.take_of_nonpos used]
      · rw [if_neg open', if_neg open']
        rfl

variable (aggressor symbol clock) in
theorem matchQueue_incoming (levelPrice : P) : ∀ (n : Nat) (incoming : Order P)
    (queue : List (Order P)),
    (matchQueue aggressor symbol levelPrice clock n incoming queue).incoming
      = incoming.withQuantity (incoming.quantity
          - Greedy.taken entryQuantity incoming.quantity (queue.map (levelPrice, ·)))
  | _, _, [] => by simp [matchQueue]
  | n, incoming, resting :: queue => by
      rw [matchQueue, List.map_cons]
      by_cases open' : 0 < incoming.quantity
      · rw [if_pos open', Greedy.taken_cons open']
        by_cases full : (resting.withQuantity
            (resting.quantity - min incoming.quantity resting.quantity)).quantity = 0
        · simp only [full, if_true]
          rw [matchQueue_incoming levelPrice, ← sub_sub]
          rfl
        · have used : incoming.quantity - min incoming.quantity resting.quantity ≤ 0 := by
            simp only [Order.withQuantity_quantity] at full
            omega
          rw [if_neg full]
          simp only [entryQuantity, Greedy.taken_of_nonpos used, add_zero]
      · rw [if_neg open', Greedy.taken_of_nonpos (not_lt.mp open'), sub_zero]
        rfl

variable (aggressor symbol clock) in
theorem matchQueue_left (levelPrice : P) : ∀ (n : Nat) (incoming : Order P)
    (queue : List (Order P)),
    (matchQueue aggressor symbol levelPrice clock n incoming queue).left.map (levelPrice, ·)
      = Greedy.rest entryQuantity shrinkEntry incoming.quantity (queue.map (levelPrice, ·))
  | _, _, [] => rfl
  | n, incoming, resting :: queue => by
      rw [matchQueue, List.map_cons, Greedy.rest]
      by_cases open' : 0 < incoming.quantity
      · rw [if_pos open', if_pos open']
        by_cases full : resting.quantity ≤ incoming.quantity
        · have emptied : (resting.withQuantity
              (resting.quantity - min incoming.quantity resting.quantity)).quantity = 0 := by
            simp only [Order.withQuantity_quantity]
            omega
          simp only [emptied, if_true]
          rw [if_pos (show entryQuantity (levelPrice, resting) ≤ _ from full),
            matchQueue_left levelPrice, min_eq_right full]
          rfl
        · have kept : ¬(resting.withQuantity
              (resting.quantity - min incoming.quantity resting.quantity)).quantity = 0 := by
            simp only [Order.withQuantity_quantity]
            omega
          rw [if_neg kept, if_neg (show ¬entryQuantity (levelPrice, resting) ≤ _ from full)]
          rw [min_eq_left (not_le.mp full).le]
          rfl
      · rw [if_neg open', if_neg open']
        rfl

/-- A queue that keeps an order has used up the incoming order. -/
theorem matchQueue_left_ne_nil {levelPrice : P} : ∀ {n : Nat} {incoming : Order P}
    {queue : List (Order P)},
    (matchQueue aggressor symbol levelPrice clock n incoming queue).left ≠ [] →
      (matchQueue aggressor symbol levelPrice clock n incoming queue).incoming.quantity ≤ 0
  | _, _, [], ne => absurd rfl ne
  | n, incoming, resting :: queue, ne => by
      rw [matchQueue] at ne ⊢
      by_cases open' : 0 < incoming.quantity
      · rw [if_pos open'] at ne ⊢
        by_cases full : (resting.withQuantity
            (resting.quantity - min incoming.quantity resting.quantity)).quantity = 0
        · simp only [full, if_true] at ne ⊢
          exact matchQueue_left_ne_nil ne
        · rw [if_neg full]
          simp only [Order.withQuantity_quantity] at full ⊢
          omega
      · rw [if_neg open']
        exact not_lt.mp open'

/-- An order left in a queue is untouched, or lost part of its quantity. -/
theorem mem_matchQueue_left {levelPrice : P} {n : Nat} {incoming : Order P}
    {queue : List (Order P)} {o : Order P}
    (mem : o ∈ (matchQueue aggressor symbol levelPrice clock n incoming queue).left) :
    o ∈ queue ∨ ∃ r ∈ queue, ∃ a, 0 < a ∧ a < r.quantity ∧ o = r.withQuantity (r.quantity - a) := by
  have mem' : (levelPrice, o) ∈ Greedy.rest entryQuantity shrinkEntry incoming.quantity
      (queue.map (levelPrice, ·)) := by
    rw [← matchQueue_left aggressor symbol clock]
    exact List.mem_map_of_mem mem
  rcases Greedy.mem_rest mem' with h | ⟨e, he, a, apos, alt, eq⟩
  · obtain ⟨o', ho', eq⟩ := List.mem_map.mp h
    exact .inl ((Prod.mk.inj eq).2 ▸ ho')
  · obtain ⟨r, hr, rfl⟩ := List.mem_map.mp he
    exact .inr ⟨r, hr, a, apos, alt, (Prod.mk.inj eq).2⟩

/-! ### All levels -/

variable [LT P] [DecidableLT P]

/-- The levels the incoming order is willing to trade with, from the best one on. -/
def acceptedLevels (aggressor : Side) (incoming : Order P) (ls : List (Level P)) :
    List (Level P) :=
  ls.takeWhile fun l => ¬refuses aggressor incoming l.price

/-- The levels from the first one on that the incoming order refuses. -/
def refusedLevels (aggressor : Side) (incoming : Order P) (ls : List (Level P)) :
    List (Level P) :=
  ls.dropWhile fun l => ¬refuses aggressor incoming l.price

theorem acceptedLevels_append_refusedLevels (aggressor : Side) (incoming : Order P)
    (ls : List (Level P)) :
    acceptedLevels aggressor incoming ls ++ refusedLevels aggressor incoming ls = ls :=
  List.takeWhile_append_dropWhile

@[simp] theorem acceptedLevels_withQuantity (q : Int) (ls : List (Level P)) :
    acceptedLevels aggressor (incoming.withQuantity q) ls
      = acceptedLevels aggressor incoming ls := rfl

@[simp] theorem refusedLevels_withQuantity (q : Int) (ls : List (Level P)) :
    refusedLevels aggressor (incoming.withQuantity q) ls
      = refusedLevels aggressor incoming ls := rfl

theorem acceptedLevels_cons_of_refuses {l : Level P} (h : refuses aggressor incoming l.price)
    (ls : List (Level P)) : acceptedLevels aggressor incoming (l :: ls) = [] := by
  simp [acceptedLevels, h]

theorem acceptedLevels_cons_of_accepts {l : Level P} (h : ¬refuses aggressor incoming l.price)
    (ls : List (Level P)) :
    acceptedLevels aggressor incoming (l :: ls) = l :: acceptedLevels aggressor incoming ls := by
  simp [acceptedLevels, h]

theorem refusedLevels_cons_of_refuses {l : Level P} (h : refuses aggressor incoming l.price)
    (ls : List (Level P)) : refusedLevels aggressor incoming (l :: ls) = l :: ls := by
  simp [refusedLevels, h]

theorem refusedLevels_cons_of_accepts {l : Level P} (h : ¬refuses aggressor incoming l.price)
    (ls : List (Level P)) :
    refusedLevels aggressor incoming (l :: ls) = refusedLevels aggressor incoming ls := by
  simp [refusedLevels, h]

/-- What is filled: the accepted levels, greedily. -/
def fillOf (aggressor : Side) (incoming : Order P) (ls : List (Level P)) :
    List ((P × Order P) × Int) :=
  Greedy.take entryQuantity incoming.quantity (entries (acceptedLevels aggressor incoming ls))

/-- How much is filled. -/
def filledOf (aggressor : Side) (incoming : Order P) (ls : List (Level P)) : Int :=
  Greedy.taken entryQuantity incoming.quantity (entries (acceptedLevels aggressor incoming ls))

theorem fillOf_of_nonpos (h : incoming.quantity ≤ 0) (ls : List (Level P)) :
    fillOf aggressor incoming ls = [] := Greedy.take_of_nonpos h _

theorem filledOf_of_nonpos (h : incoming.quantity ≤ 0) (ls : List (Level P)) :
    filledOf aggressor incoming ls = 0 := Greedy.taken_of_nonpos h _

/-- **The trades of the nested loops are those of the flat greedy fill.** -/
theorem matchLevels_trades : ∀ (n : Nat) (incoming : Order P) (ls : List (Level P)),
    (matchLevels aggressor symbol clock n incoming ls).trades
      = fillTrades aggressor symbol incoming clock n (fillOf aggressor incoming ls)
  | _, _, [] => rfl
  | n, incoming, l :: ls => by
      rw [matchLevels]
      by_cases open' : 0 < incoming.quantity
      · rw [if_pos open']
        by_cases stop : refuses aggressor incoming l.price
        · rw [if_pos stop, fillOf, acceptedLevels_cons_of_refuses stop]
          rfl
        · have split : fillOf aggressor incoming (l :: ls)
              = Greedy.take entryQuantity incoming.quantity (l.queue.map (l.price, ·))
                ++ Greedy.take entryQuantity (incoming.quantity - Greedy.taken entryQuantity
                    incoming.quantity (l.queue.map (l.price, ·)))
                  (entries (acceptedLevels aggressor incoming ls)) := by
            rw [fillOf, acceptedLevels_cons_of_accepts stop, entries_cons, Greedy.take_append]
          have used := matchQueue_incoming aggressor symbol clock l.price n incoming l.queue
          rw [if_neg stop]
          by_cases emptied : (matchQueue aggressor symbol l.price clock n incoming l.queue).left = []
          · simp only [emptied, if_true]
            rw [matchLevels_trades, split, fillTrades_append, matchQueue_trades,
              fillTrades_length, used, fillTrades_withQuantity]
            rfl
          · have done := matchQueue_left_ne_nil emptied
            rw [used, Order.withQuantity_quantity] at done
            rw [if_neg emptied, split, Greedy.take_of_nonpos done, List.append_nil]
            exact matchQueue_trades aggressor symbol clock l.price n incoming l.queue
      · rw [if_neg open', fillOf_of_nonpos (not_lt.mp open')]
        rfl

theorem matchLevels_incoming : ∀ (n : Nat) (incoming : Order P) (ls : List (Level P)),
    (matchLevels aggressor symbol clock n incoming ls).incoming
      = incoming.withQuantity (incoming.quantity - filledOf aggressor incoming ls)
  | _, _, [] => by simp [matchLevels, filledOf, acceptedLevels]
  | n, incoming, l :: ls => by
      rw [matchLevels]
      by_cases open' : 0 < incoming.quantity
      · rw [if_pos open']
        by_cases stop : refuses aggressor incoming l.price
        · rw [if_pos stop, filledOf, acceptedLevels_cons_of_refuses stop]
          simp
        · have split : filledOf aggressor incoming (l :: ls)
              = Greedy.taken entryQuantity incoming.quantity (l.queue.map (l.price, ·))
                + Greedy.taken entryQuantity (incoming.quantity - Greedy.taken entryQuantity
                    incoming.quantity (l.queue.map (l.price, ·)))
                  (entries (acceptedLevels aggressor incoming ls)) := by
            rw [filledOf, acceptedLevels_cons_of_accepts stop, entries_cons, Greedy.taken_append]
          have used := matchQueue_incoming aggressor symbol clock l.price n incoming l.queue
          rw [if_neg stop]
          by_cases emptied : (matchQueue aggressor symbol l.price clock n incoming l.queue).left = []
          · simp only [emptied, if_true]
            rw [matchLevels_incoming, used, split, ← sub_sub]
            rfl
          · have done := matchQueue_left_ne_nil emptied
            rw [used, Order.withQuantity_quantity] at done
            rw [if_neg emptied, split, Greedy.taken_of_nonpos done, add_zero]
            exact used
      · rw [if_neg open', filledOf_of_nonpos (not_lt.mp open'), sub_zero]
        rfl

variable (aggressor symbol clock) in
/-- The orders left on the walked side: the rest of the accepted levels, then the
refused ones. -/
theorem matchLevels_left : ∀ (n : Nat) (incoming : Order P) (ls : List (Level P)),
    entries (matchLevels aggressor symbol clock n incoming ls).left
      = Greedy.rest entryQuantity shrinkEntry incoming.quantity
          (entries (acceptedLevels aggressor incoming ls))
        ++ entries (refusedLevels aggressor incoming ls)
  | _, _, [] => rfl
  | n, incoming, l :: ls => by
      rw [matchLevels]
      by_cases open' : 0 < incoming.quantity
      · rw [if_pos open']
        by_cases stop : refuses aggressor incoming l.price
        · rw [if_pos stop, acceptedLevels_cons_of_refuses stop, refusedLevels_cons_of_refuses stop]
          rfl
        · have used := matchQueue_incoming aggressor symbol clock l.price n incoming l.queue
          have queueLeft := matchQueue_left aggressor symbol clock l.price n incoming l.queue
          rw [if_neg stop, acceptedLevels_cons_of_accepts stop, refusedLevels_cons_of_accepts stop,
            entries_cons, Greedy.rest_append, ← queueLeft]
          by_cases emptied : (matchQueue aggressor symbol l.price clock n incoming l.queue).left = []
          · simp only [emptied, if_true, List.map_nil, List.nil_append]
            rw [matchLevels_left, used]
            rfl
          · have done := matchQueue_left_ne_nil emptied
            rw [used, Order.withQuantity_quantity] at done
            rw [if_neg emptied, Greedy.rest_of_nonpos done, entries_cons, List.append_assoc,
              ← entries_append, acceptedLevels_append_refusedLevels]
      · rw [if_neg open', Greedy.rest_of_nonpos (not_lt.mp open'), ← entries_append,
          acceptedLevels_append_refusedLevels]

variable (aggressor symbol clock) in
/-- The keys of the levels left are a suffix of the keys before. -/
theorem matchLevels_left_prices : ∀ (n : Nat) (incoming : Order P) (ls : List (Level P)),
    (matchLevels aggressor symbol clock n incoming ls).left.map Level.price
      <:+ ls.map Level.price
  | _, _, [] => List.suffix_refl _
  | n, incoming, l :: ls => by
      rw [matchLevels]
      by_cases open' : 0 < incoming.quantity
      · rw [if_pos open']
        by_cases stop : refuses aggressor incoming l.price
        · rw [if_pos stop]
        · rw [if_neg stop]
          by_cases emptied : (matchQueue aggressor symbol l.price clock n incoming l.queue).left = []
          · simp only [emptied, if_true]
            exact (matchLevels_left_prices _ _ ls).trans (List.suffix_cons _ _)
          · rw [if_neg emptied]
            exact List.suffix_refl _
      · rw [if_neg open']

variable (aggressor symbol clock) in
/-- Anything but the quantity, read off the orders left, is a suffix of what it was. -/
theorem matchLevels_left_map {β : Type} (key : Order P → β)
    (same : ∀ o q, key (o.withQuantity q) = key o) (n : Nat) (incoming : Order P)
    (ls : List (Level P)) :
    (restingIn (matchLevels aggressor symbol clock n incoming ls).left).map key
      <:+ (restingIn ls).map key := by
  have unshrunk : ∀ (e : P × Order P) a, key (shrinkEntry e a).2 = key e.2 :=
    fun e a => same e.2 (e.2.quantity - a)
  have walked := Greedy.rest_map_suffix entryQuantity (fun e : P × Order P => key e.2) unshrunk
    incoming.quantity (entries (acceptedLevels aggressor incoming ls))
  obtain ⟨gone, eq⟩ := walked
  have all := acceptedLevels_append_refusedLevels aggressor incoming ls
  refine ⟨gone, ?_⟩
  rw [← map_snd_entries, ← map_snd_entries ls, matchLevels_left]
  conv_rhs => rw [← all, entries_append, List.map_map, List.map_append]
  rw [List.map_map, List.map_append, ← List.append_assoc]
  exact congrArg (· ++ _) eq

/-- A level left is untouched, or still has orders and each of them was in that
level before, possibly with more quantity. -/
theorem mem_matchLevels_left {l' : Level P} : ∀ {n : Nat} {incoming : Order P}
    {ls : List (Level P)},
    l' ∈ (matchLevels aggressor symbol clock n incoming ls).left →
      ∃ l ∈ ls, l'.price = l.price ∧ (l' = l ∨ l'.queue ≠ [] ∧ ∀ o ∈ l'.queue,
        o ∈ l.queue ∨ ∃ r ∈ l.queue, ∃ a, 0 < a ∧ a < r.quantity ∧
          o = r.withQuantity (r.quantity - a))
  | _, _, [], mem => by cases mem
  | n, incoming, l :: ls, mem => by
      rw [matchLevels] at mem
      by_cases open' : 0 < incoming.quantity
      · rw [if_pos open'] at mem
        by_cases stop : refuses aggressor incoming l.price
        · rw [if_pos stop] at mem
          exact ⟨l', mem, rfl, .inl rfl⟩
        · rw [if_neg stop] at mem
          by_cases emptied : (matchQueue aggressor symbol l.price clock n incoming l.queue).left = []
          · simp only [emptied, if_true] at mem
            obtain ⟨k, hk, spec⟩ := mem_matchLevels_left mem
            exact ⟨k, List.mem_cons_of_mem _ hk, spec⟩
          · rw [if_neg emptied, List.mem_cons] at mem
            rcases mem with rfl | mem
            · exact ⟨l, List.mem_cons_self, rfl, .inr ⟨emptied, fun _ ho => mem_matchQueue_left ho⟩⟩
            · exact ⟨l', List.mem_cons_of_mem _ mem, rfl, .inl rfl⟩
      · rw [if_neg open'] at mem
        exact ⟨l', mem, rfl, .inl rfl⟩

/-- A match of an order that keeps some quantity walked every accepted level. -/
theorem matchLevels_left_of_unfilled : ∀ (n : Nat) (incoming : Order P) (ls : List (Level P)),
    0 < (matchLevels aggressor symbol clock n incoming ls).incoming.quantity →
      (matchLevels aggressor symbol clock n incoming ls).left
        = refusedLevels aggressor incoming ls
  | _, _, [], _ => rfl
  | n, incoming, l :: ls, unfilled => by
      rw [matchLevels] at unfilled ⊢
      by_cases open' : 0 < incoming.quantity
      · rw [if_pos open'] at unfilled ⊢
        by_cases stop : refuses aggressor incoming l.price
        · rw [if_pos stop, refusedLevels_cons_of_refuses stop]
        · rw [if_neg stop] at unfilled ⊢
          rw [refusedLevels_cons_of_accepts stop]
          by_cases emptied : (matchQueue aggressor symbol l.price clock n incoming l.queue).left = []
          · simp only [emptied, if_true] at unfilled ⊢
            rw [matchLevels_left_of_unfilled _ _ _ unfilled, matchQueue_incoming]
            rfl
          · rw [if_neg emptied] at unfilled
            exact absurd unfilled (not_lt.mpr (matchQueue_left_ne_nil emptied))
      · rw [if_neg open'] at unfilled
        exact absurd unfilled open'

/-! ### Time stamps -/

/-- A trade apart from its time stamp. -/
def Trade.untimed (t : Trade P) : Trade P :=
  { t with timestamp := 0 }

/-! ### The whole match -/

namespace OrderBook

variable (b : OrderBook P) (clock : Nat → Int) (incoming : Order P)

theorem matchOrder_trades : (b.matchOrder clock incoming).1
    = fillTrades incoming.side b.symbol incoming clock 0
        (fillOf incoming.side incoming (b.levels incoming.side.opposite)) := by
  rw [matchOrder_eq, matchIncoming, ← matchLevels_trades]
  split <;> rfl

@[simp] theorem matchOrder_symbol : (b.matchOrder clock incoming).2.symbol = b.symbol := by
  rw [matchOrder_eq, matchIncoming]
  split <;> simp

/-- The side that is walked. -/
theorem matchOrder_levels_opposite : (b.matchOrder clock incoming).2.levels incoming.side.opposite
    = (matchLevels incoming.side b.symbol clock 0 incoming
        (b.levels incoming.side.opposite)).left := by
  rw [matchOrder_eq, matchIncoming]
  split <;> simp

/-- The side of the incoming order: what is left of it comes to rest. -/
theorem matchOrder_levels_side : (b.matchOrder clock incoming).2.levels incoming.side
    = let left := incoming.quantity
        - filledOf incoming.side incoming (b.levels incoming.side.opposite)
      if 0 < left ∧ incoming.kind ≠ .market then
        pushBack incoming.side (incoming.withQuantity left) (b.levels incoming.side)
      else b.levels incoming.side := by
  rw [matchOrder_eq, matchIncoming, matchLevels_incoming]
  split
  · rename_i rests
    refine Eq.trans ?_ (if_pos rests).symm
    simp
  · rename_i spent
    refine Eq.trans ?_ (if_neg spent).symm
    simp

/-- The trades of a match depend on the clock in their time stamps only. -/
theorem untimed_matchOrder : (b.matchOrder clock incoming).1.map Trade.untimed
    = (b.matchOrder (fun _ => 0) incoming).1 := by
  have stamps : ∀ (e : (P × Order P) × Int) now,
      (tradeOf incoming.side b.symbol incoming e.1.2 e.2 e.1.1 now).untimed
        = tradeOf incoming.side b.symbol incoming e.1.2 e.2 e.1.1 0 := by
    intro e now
    cases incoming.side <;> rfl
  have zero : ∀ (n : Nat) (fs : List ((P × Order P) × Int)),
      fillTrades incoming.side b.symbol incoming (fun _ => 0) n fs
        = fs.map fun e => tradeOf incoming.side b.symbol incoming e.1.2 e.2 e.1.1 0 := by
    intro n fs
    induction fs generalizing n with
    | nil => rfl
    | cons f fs ih => rw [fillTrades, ih, List.map_cons]
  rw [matchOrder_trades, matchOrder_trades, map_fillTrades _ _ stamps, zero]

theorem tradedQuantity_matchOrder : tradedQuantity (b.matchOrder clock incoming).1
    = filledOf incoming.side incoming (b.levels incoming.side.opposite) := by
  rw [matchOrder_trades, tradedQuantity_fillTrades]
  rfl

end OrderBook

end

end StockMarket
