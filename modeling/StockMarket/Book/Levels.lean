import StockMarket.Book.Sweep
import Mathlib.Order.RelClasses

/-!
The map operations on the levels of one side: `pushBack`, `cancelAt`, `cancelIn`.

`pushBack` adds one order and keeps the levels in order. A cancellation, by price
or by id, takes exactly one order out of one level and drops the level if that
was its last order (`Removed`, `cancelAt_removed`, `cancelIn_removed`). The order
of prices is only assumed to be strict, so all of this also holds with prices
that compare with nothing.
-/

namespace StockMarket

variable {P : Type}

/-! ### Adding an order -/

section PushBack

variable [LT P] [DecidableLT P] {s : Side} {o : Order P}

/-- The levels of a side are in the order of its map. -/
def LevelsSorted (s : Side) (ls : List (Level P)) : Prop :=
  ls.Pairwise fun a b => s.before a.price b.price

instance (s : Side) (ls : List (Level P)) : Decidable (LevelsSorted s ls) :=
  inferInstanceAs (Decidable (List.Pairwise _ _))

theorem pushBack_cons_before {l : Level P} (h : s.before l.price o.price) (ls : List (Level P)) :
    pushBack s o (l :: ls) = l :: pushBack s o ls := by
  rw [pushBack, if_pos h]

theorem pushBack_cons_new {l : Level P} (h : ¬s.before l.price o.price)
    (h' : s.before o.price l.price) (ls : List (Level P)) :
    pushBack s o (l :: ls) = ⟨o.price, [o]⟩ :: l :: ls := by
  rw [pushBack, if_neg h, if_pos h']

theorem pushBack_cons_same {l : Level P} (h : ¬s.before l.price o.price)
    (h' : ¬s.before o.price l.price) (ls : List (Level P)) :
    pushBack s o (l :: ls) = { l with queue := l.queue ++ [o] } :: ls := by
  rw [pushBack, if_neg h, if_neg h']

/-- `pushBack` adds the order and nothing else. -/
theorem restingIn_pushBack : ∀ ls : List (Level P),
    (restingIn (pushBack s o ls)).Perm (o :: restingIn ls)
  | [] => by simp [pushBack]
  | l :: ls => by
      by_cases h : s.before l.price o.price
      · rw [pushBack_cons_before h, restingIn_cons, restingIn_cons]
        exact ((restingIn_pushBack ls).append_left l.queue).trans List.perm_middle
      · by_cases h' : s.before o.price l.price
        · rw [pushBack_cons_new h h']
          exact List.Perm.refl _
        · rw [pushBack_cons_same h h', restingIn_cons, List.append_assoc]
          exact List.perm_middle

/-- A level of `pushBack` is old, or new with the order alone, or old with the
order at its tail. -/
theorem mem_pushBack {l' : Level P} {ls : List (Level P)} (mem : l' ∈ pushBack s o ls) :
    l' ∈ ls ∨ l' = ⟨o.price, [o]⟩ ∨ ∃ l ∈ ls, ¬s.before l.price o.price ∧
      ¬s.before o.price l.price ∧ l' = { l with queue := l.queue ++ [o] } := by
  induction ls with
  | nil =>
      rw [pushBack, List.mem_singleton] at mem
      exact .inr (.inl mem)
  | cons l ls ih =>
      by_cases h : s.before l.price o.price
      · rw [pushBack_cons_before h, List.mem_cons] at mem
        rcases mem with rfl | mem
        · exact .inl List.mem_cons_self
        · rcases ih mem with old | new | ⟨k, hk, spec⟩
          · exact .inl (List.mem_cons_of_mem _ old)
          · exact .inr (.inl new)
          · exact .inr (.inr ⟨k, List.mem_cons_of_mem _ hk, spec⟩)
      · by_cases h' : s.before o.price l.price
        · rw [pushBack_cons_new h h', List.mem_cons] at mem
          rcases mem with rfl | mem
          · exact .inr (.inl rfl)
          · exact .inl mem
        · rw [pushBack_cons_same h h', List.mem_cons] at mem
          rcases mem with rfl | mem
          · exact .inr (.inr ⟨l, List.mem_cons_self, h, h', rfl⟩)
          · exact .inl (List.mem_cons_of_mem _ mem)

/-- The keys of `pushBack` are the old ones and possibly the order's price. -/
theorem price_of_mem_pushBack {l' : Level P} {ls : List (Level P)} (mem : l' ∈ pushBack s o ls) :
    l'.price = o.price ∨ ∃ l ∈ ls, l'.price = l.price := by
  rcases mem_pushBack mem with old | rfl | ⟨l, hl, -, -, rfl⟩
  · exact .inr ⟨l', old, rfl⟩
  · exact .inl rfl
  · exact .inr ⟨l, hl, rfl⟩

section

variable {b : OrderBook P} {clock : Nat → Int} {incoming : Order P}

/-- The resting orders after a match, up to order: the orders left on the walked
side, the other side, and possibly the rest of the incoming order. -/
theorem restingOrders_matchOrder :
    let left := incoming.quantity
      - filledOf incoming.side incoming (b.levels incoming.side.opposite)
    (b.matchOrder clock incoming).2.restingOrders.Perm
      ((if 0 < left ∧ incoming.kind ≠ .market then [incoming.withQuantity left] else [])
        ++ (restingIn (b.levels incoming.side)
          ++ restingIn (matchLevels incoming.side b.symbol clock 0 incoming
              (b.levels incoming.side.opposite)).left)) := by
  intro left
  refine (restingOrders_perm _ incoming.side).trans ?_
  rw [OrderBook.matchOrder_levels_side, OrderBook.matchOrder_levels_opposite, ← List.append_assoc]
  refine List.Perm.append_right _ ?_
  dsimp only
  by_cases rests : 0 < left ∧ incoming.kind ≠ .market
  · rw [if_pos rests, if_pos rests]
    exact restingIn_pushBack _
  · rw [if_neg rests, if_neg rests]
    exact List.Perm.refl _

/-- The levels after a match have old prices, but for one at the price of an incoming
order that came to rest. -/
theorem price_of_mem_matchOrder {t : Side} {l' : Level P}
    (mem : l' ∈ (b.matchOrder clock incoming).2.levels t) :
    (incoming.kind ≠ .market ∧ l'.price = incoming.price) ∨ ∃ l ∈ b.levels t, l'.price = l.price := by
  by_cases own : t = incoming.side
  · subst own
    rw [OrderBook.matchOrder_levels_side] at mem
    dsimp only at mem
    split at mem
    · rename_i rests
      rcases price_of_mem_pushBack mem with new | old
      · exact .inl ⟨rests.2, new⟩
      · exact .inr old
    · exact .inr ⟨l', mem, rfl⟩
  · obtain rfl := Side.eq_opposite_of_ne own
    rw [OrderBook.matchOrder_levels_opposite] at mem
    obtain ⟨l, hl, same, -⟩ := mem_matchLevels_left mem
    exact .inr ⟨l, hl, same⟩

/-- An order resting after a match rested on that side before, or is the incoming
one; only the quantity may differ, and it is used up by nothing that rests. -/
theorem mem_restingIn_matchOrder {t : Side} {r : Order P}
    (mem : r ∈ restingIn ((b.matchOrder clock incoming).2.levels t)) :
    (t = incoming.side ∧ incoming.kind ≠ .market ∧ ∃ q, 0 < q ∧ r = incoming.withQuantity q) ∨
      ∃ r' ∈ restingIn (b.levels t), ∃ q, (0 < r'.quantity → 0 < q) ∧ r = r'.withQuantity q := by
  by_cases own : t = incoming.side
  · subst own
    rw [OrderBook.matchOrder_levels_side] at mem
    dsimp only at mem
    split at mem
    · rename_i rests
      rcases List.mem_cons.mp ((restingIn_pushBack _).subset mem) with new | old
      · exact .inl ⟨rfl, rests.2, _, rests.1, new⟩
      · exact .inr ⟨r, old, r.quantity, id, rfl⟩
    · exact .inr ⟨r, mem, r.quantity, id, rfl⟩
  · have other : t = incoming.side.opposite := Side.eq_opposite_of_ne own
    subst other
    rw [OrderBook.matchOrder_levels_opposite] at mem
    obtain ⟨l', hl', hr⟩ := mem_restingIn.mp mem
    obtain ⟨l, hl, -, rfl | ⟨-, spec⟩⟩ := mem_matchLevels_left hl'
    · exact .inr ⟨r, mem_restingIn.mpr ⟨l', hl, hr⟩, r.quantity, id, rfl⟩
    · rcases spec r hr with old | ⟨r', hr', a, -, less, eq⟩
      · exact .inr ⟨r, mem_restingIn.mpr ⟨l, hl, old⟩, r.quantity, id, rfl⟩
      · exact .inr ⟨r', mem_restingIn.mpr ⟨l, hl, hr'⟩, _, fun _ => by omega, eq⟩

/-- Nothing of an order rests whose quantity was traded. -/
theorem mem_restingIn_of_filled {t : Side} {r : Order P}
    (filled : incoming.quantity ≤ tradedQuantity (b.matchOrder clock incoming).1)
    (mem : r ∈ restingIn ((b.matchOrder clock incoming).2.levels t)) :
    ∃ r' ∈ restingIn (b.levels t), ∃ q, r = r'.withQuantity q := by
  rcases mem_restingIn_matchOrder mem with ⟨rfl, -⟩ | ⟨r', hr', q, -, same⟩
  · rw [OrderBook.tradedQuantity_matchOrder] at filled
    rw [OrderBook.matchOrder_levels_side] at mem
    dsimp only at mem
    rw [if_neg fun rests => absurd rests.1 (by omega)] at mem
    exact ⟨r, mem, r.quantity, rfl⟩
  · exact ⟨r', hr', q, same⟩

end

variable [IsStrictOrder P (· < ·)]

omit [DecidableLT P] in
theorem before_irrefl (s : Side) (p : P) : ¬s.before p p := by
  cases s <;> exact irrefl_of (· < ·) p

omit [DecidableLT P] in
theorem before_trans {s : Side} {p q r : P} (h : s.before p q) (h' : s.before q r) :
    s.before p r := by
  cases s with
  | buy => exact trans_of (· < ·) h' h
  | sell => exact trans_of (· < ·) h h'

theorem sorted_pushBack : ∀ {ls : List (Level P)}, LevelsSorted s ls →
    LevelsSorted s (pushBack s o ls)
  | [], _ => List.pairwise_singleton _ _
  | l :: ls, sorted => by
      obtain ⟨first, rest⟩ := List.pairwise_cons.mp sorted
      by_cases h : s.before l.price o.price
      · rw [pushBack_cons_before h]
        refine List.pairwise_cons.mpr ⟨fun k hk => ?_, sorted_pushBack rest⟩
        rcases price_of_mem_pushBack hk with eq | ⟨k', hk', eq⟩
        · rw [eq]; exact h
        · rw [eq]; exact first k' hk'
      · by_cases h' : s.before o.price l.price
        · rw [pushBack_cons_new h h']
          refine List.pairwise_cons.mpr ⟨fun k hk => ?_, sorted⟩
          rcases List.mem_cons.mp hk with rfl | hk
          · exact h'
          · exact before_trans h' (first k hk)
        · rw [pushBack_cons_same h h']
          exact List.pairwise_cons.mpr ⟨first, rest⟩

end PushBack

/-! ### Removing an order -/

section Cancel

/-- A level after the removal of one order: gone if nothing is left. -/
def shorten (id : Nat) (l : Level P) : List (Level P) :=
  if eraseId id l.queue = [] then [] else [{ l with queue := eraseId id l.queue }]

@[simp] theorem restingIn_shorten (id : Nat) (l : Level P) :
    restingIn (shorten id l) = eraseId id l.queue := by
  unfold shorten
  split
  · rename_i empty
    rw [empty]
    rfl
  · simp

theorem hasId_iff {id : Nat} {queue : List (Order P)} :
    hasId id queue = true ↔ ∃ o ∈ queue, o.id = id := by
  simp [hasId]

/-- The queue around the order that `eraseId` takes out. -/
theorem eraseId_split {id : Nat} {queue : List (Order P)} (h : hasId id queue = true) :
    ∃ (o : Order P) (front back : List (Order P)), o.id = id ∧
      queue = front ++ o :: back ∧ eraseId id queue = front ++ back := by
  obtain ⟨o, ho, eq⟩ := hasId_iff.mp h
  obtain ⟨o', front, back, -, eq', split, erased⟩ :=
    List.exists_of_eraseP (p := fun o : Order P => decide (o.id = id)) ho (by simpa using eq)
  exact ⟨o', front, back, by simpa using eq', split, erased⟩

theorem eraseId_sublist (id : Nat) (queue : List (Order P)) : (eraseId id queue).Sublist queue :=
  List.eraseP_sublist

/-- `ls'` is `ls` with one order of the given id taken out of one level. -/
def Removed (id : Nat) (ls ls' : List (Level P)) : Prop :=
  ∃ (front : List (Level P)) (l : Level P) (back : List (Level P)),
    ls = front ++ l :: back ∧ hasId id l.queue = true ∧ ls' = front ++ shorten id l ++ back

/-- The resting orders around the one that was removed. -/
theorem Removed.resting {id : Nat} {ls ls' : List (Level P)} (h : Removed id ls ls') :
    ∃ (o : Order P) (front back : List (Order P)), o.id = id ∧
      restingIn ls = front ++ o :: back ∧ restingIn ls' = front ++ back := by
  obtain ⟨front, l, back, rfl, has, rfl⟩ := h
  obtain ⟨o, qfront, qback, eq, split, erased⟩ := eraseId_split has
  refine ⟨o, restingIn front ++ qfront, qback ++ restingIn back, eq, ?_, ?_⟩
  · simp [restingIn_append, split]
  · simp [restingIn_append, erased]

/-- What a removal leaves of a level. -/
theorem Removed.mem {id : Nat} {ls ls' : List (Level P)} (h : Removed id ls ls') {l' : Level P}
    (mem : l' ∈ ls') : ∃ l ∈ ls, l'.price = l.price ∧
      (l' = l ∨ l'.queue ≠ [] ∧ l'.queue.Sublist l.queue) := by
  obtain ⟨front, l, back, rfl, -, rfl⟩ := h
  rw [List.append_assoc, List.mem_append, List.mem_append] at mem
  rcases mem with mem | mem | mem
  · exact ⟨l', List.mem_append_left _ mem, rfl, .inl rfl⟩
  · unfold shorten at mem
    split at mem
    · cases mem
    · rename_i kept
      rw [List.mem_singleton] at mem
      subst mem
      exact ⟨l, by simp, rfl, .inr ⟨kept, eraseId_sublist _ _⟩⟩
  · exact ⟨l', by simp [mem], rfl, .inl rfl⟩

section

variable {b : OrderBook P} {s : Side} {id : Nat} {ls' : List (Level P)}

/-- The resting orders of a book around the one that was removed. -/
theorem Removed.restingOrders (removed : Removed id (b.levels s) ls') :
    ∃ o : Order P, o.id = id ∧ o ∈ restingIn (b.levels s) ∧
      b.restingOrders.Perm (o :: (b.setLevels s ls').restingOrders) := by
  obtain ⟨o, front, back, eq, before, after'⟩ := removed.resting
  refine ⟨o, eq, by simp [before], ?_⟩
  have mine := restingOrders_perm b s
  have theirs := restingOrders_perm (b.setLevels s ls') s
  rw [OrderBook.levels_setLevels, OrderBook.levels_setLevels_opposite, after'] at theirs
  rw [before] at mine
  refine mine.trans (List.Perm.trans ?_ (theirs.symm.cons o))
  rw [List.append_assoc, List.append_assoc, List.cons_append]
  exact List.perm_middle

theorem Removed.subset (removed : Removed id (b.levels s) ls') (t : Side) {r : Order P}
    (mem : r ∈ restingIn ((b.setLevels s ls').levels t)) : r ∈ restingIn (b.levels t) := by
  by_cases own : t = s
  · subst own
    rw [OrderBook.levels_setLevels] at mem
    obtain ⟨o, front, back, -, before, after'⟩ := removed.resting
    rw [before]
    rw [after'] at mem
    rcases List.mem_append.mp mem with mem | mem
    · exact List.mem_append_left _ mem
    · exact List.mem_append_right _ (List.mem_cons_of_mem _ mem)
  · rwa [OrderBook.levels_setLevels_of_ne _ own] at mem

/-- A removal adds no level. -/
theorem Removed.level (removed : Removed id (b.levels s) ls') (t : Side) {l' : Level P}
    (mem : l' ∈ (b.setLevels s ls').levels t) : ∃ l ∈ b.levels t, l'.price = l.price := by
  by_cases own : t = s
  · subst own
    rw [OrderBook.levels_setLevels] at mem
    obtain ⟨l, hl, eq, -⟩ := removed.mem mem
    exact ⟨l, hl, eq⟩
  · rw [OrderBook.levels_setLevels_of_ne _ own] at mem
    exact ⟨l', mem, rfl⟩

end

/-- The level that `dropId` shortens. -/
theorem dropId_split {id : Nat} {price : P} {queue : List (Order P)} :
    ∀ {ls rest : List (Level P)}, dropId id ls = some (price, queue, rest) →
      ∃ (front : List (Level P)) (l : Level P) (back : List (Level P)),
        ls = front ++ l :: back ∧ hasId id l.queue = true ∧ price = l.price ∧
        queue = eraseId id l.queue ∧ rest = front ++ { l with queue := queue } :: back
  | [], _, h => by cases h
  | l :: ls, rest, h => by
      rw [dropId] at h
      by_cases has : hasId id l.queue = true
      · rw [if_pos has] at h
        cases h
        exact ⟨[], l, ls, rfl, has, rfl, rfl, rfl⟩
      · rw [if_neg has, Option.map_eq_some_iff] at h
        obtain ⟨⟨p, q, tail⟩, found, eq⟩ := h
        cases eq
        obtain ⟨front, k, back, rfl, hk, rfl, rfl, rfl⟩ := dropId_split found
        exact ⟨l :: front, k, back, rfl, hk, rfl, rfl, rfl⟩

theorem dropId_eq_none_iff {id : Nat} : ∀ {ls : List (Level P)},
    dropId id ls = none ↔ ∀ o ∈ restingIn ls, o.id ≠ id
  | [] => by simp [dropId]
  | l :: ls => by
      rw [dropId, restingIn_cons]
      by_cases has : hasId id l.queue = true
      · rw [if_pos has]
        obtain ⟨o, ho, eq⟩ := hasId_iff.mp has
        simp only [reduceCtorEq, false_iff]
        exact fun h => h o (List.mem_append_left _ ho) eq
      · rw [if_neg has, Option.map_eq_none_iff, dropId_eq_none_iff]
        constructor
        · intro h o ho eq
          rcases List.mem_append.mp ho with ho | ho
          · exact has (hasId_iff.mpr ⟨o, ho, eq⟩)
          · exact h o ho eq
        · exact fun h o ho => h o (List.mem_append_right _ ho)

variable [LT P] [DecidableLT P]

omit [DecidableLT P] in
theorem Removed.sorted {s : Side} {id : Nat} {ls ls' : List (Level P)} (h : Removed id ls ls')
    (sorted : LevelsSorted s ls) : LevelsSorted s ls' := by
  obtain ⟨front, l, back, rfl, -, rfl⟩ := h
  unfold LevelsSorted at *
  have keys : ((front ++ shorten id l ++ back).map Level.price).Sublist
      ((front ++ l :: back).map Level.price) := by
    simp only [List.map_append, List.map_cons, List.append_assoc]
    refine (List.Sublist.refl _).append ?_
    unfold shorten
    split
    · exact List.sublist_cons_self _ _
    · exact List.Sublist.refl _
  rw [← List.pairwise_map (f := Level.price) (R := fun p q => s.before p q)] at sorted ⊢
  exact sorted.sublist keys

/-- A cancellation at a price removes one order, or finds none. -/
theorem cancelAt_removed {s : Side} {price : P} {id : Nat} : ∀ {ls ls' : List (Level P)},
    cancelAt s price id ls = some ls' → Removed id ls ls'
  | [], _, h => by cases h
  | l :: ls, ls', h => by
      rw [cancelAt] at h
      by_cases before : s.before l.price price
      · rw [if_pos before, Option.map_eq_some_iff] at h
        obtain ⟨rest, hrest, rfl⟩ := h
        obtain ⟨front, k, back, rfl, has, rfl⟩ := cancelAt_removed hrest
        exact ⟨l :: front, k, back, rfl, has, rfl⟩
      · rw [if_neg before] at h
        by_cases after' : s.before price l.price
        · rw [if_pos after'] at h
          cases h
        · rw [if_neg after'] at h
          by_cases has : hasId id l.queue = true
          · refine ⟨[], l, ls, rfl, has, ?_⟩
            rw [if_pos has] at h
            unfold shorten
            split at h
            · rename_i empty
              rw [if_pos empty]
              exact (Option.some.inj h).symm
            · rename_i kept
              rw [if_neg kept]
              exact (Option.some.inj h).symm
          · rw [if_neg has] at h
            cases h

theorem cancelIn_eq_none_iff {s : Side} {id : Nat} {ls : List (Level P)} :
    cancelIn s id ls = none ↔ ∀ o ∈ restingIn ls, o.id ≠ id := by
  rw [cancelIn, Option.map_eq_none_iff, dropId_eq_none_iff]

variable [IsStrictOrder P (· < ·)]

/-- In ordered levels only the level itself is equivalent to its key. -/
theorem eraseLevel_middle {s : Side} {front back : List (Level P)} {l : Level P}
    (sorted : LevelsSorted s (front ++ l :: back)) :
    eraseLevel s l.price (front ++ l :: back) = front ++ back := by
  obtain ⟨-, sorted', across⟩ := List.pairwise_append.mp sorted
  have later := (List.pairwise_cons.mp sorted').1
  have keepFront : front.filter (fun k => decide (s.before k.price l.price ∨
      s.before l.price k.price)) = front :=
    List.filter_eq_self.mpr fun k hk =>
      decide_eq_true (.inl (across k hk l List.mem_cons_self))
  have keepBack : back.filter (fun k => decide (s.before k.price l.price ∨
      s.before l.price k.price)) = back :=
    List.filter_eq_self.mpr fun k hk => decide_eq_true (.inr (later k hk))
  have dropSelf : ¬(s.before l.price l.price ∨ s.before l.price l.price) := by
    rw [or_self]
    exact before_irrefl s l.price
  rw [eraseLevel, List.filter_append, List.filter_cons_of_neg (by simpa using dropSelf),
    keepFront, keepBack]

/-- A cancellation by id removes one order of that id. -/
theorem cancelIn_removed {s : Side} {id : Nat} {ls ls' : List (Level P)}
    (sorted : LevelsSorted s ls) (h : cancelIn s id ls = some ls') : Removed id ls ls' := by
  rw [cancelIn, Option.map_eq_some_iff] at h
  obtain ⟨⟨price, queue, rest⟩, found, eq⟩ := h
  obtain ⟨front, l, back, rfl, has, rfl, rfl, rfl⟩ := dropId_split found
  refine ⟨front, l, back, rfl, has, ?_⟩
  unfold shorten
  by_cases empty : eraseId id l.queue = []
  · simp only [empty, if_true] at eq ⊢
    have sorted' : LevelsSorted s (front ++ { l with queue := [] } :: back) := by
      unfold LevelsSorted at *
      rw [← List.pairwise_map (f := Level.price) (R := fun p q => s.before p q)] at sorted ⊢
      simpa using sorted
    rw [← eq, List.append_nil]
    exact eraseLevel_middle (l := { l with queue := [] }) sorted'
  · simp only [empty, if_false] at eq ⊢
    rw [← eq, List.append_assoc]
    rfl

namespace OrderBook

omit [IsStrictOrder P (· < ·)] in
/-- The outcomes of a cancellation at a price. -/
theorem cancelAtPrice_cases (b : OrderBook P) (s : Side) (price : P) (id : Nat) :
    b.cancelAtPrice s price id = (false, b) ∨ ∃ ls', Removed id (b.levels s) ls' ∧
      b.cancelAtPrice s price id = (true, b.setLevels s ls') := by
  unfold cancelAtPrice
  cases found : cancelAt s price id (b.levels s) with
  | none => exact .inl rfl
  | some ls' => exact .inr ⟨ls', cancelAt_removed found, rfl⟩

/-- The outcomes of a cancellation by id. -/
theorem cancel_cases {b : OrderBook P} (sorted : ∀ s, LevelsSorted s (b.levels s)) (id : Nat) :
    ((∀ o ∈ b.restingOrders, o.id ≠ id) ∧ b.cancel id = (false, b)) ∨
      ∃ s ls', Removed id (b.levels s) ls' ∧ b.cancel id = (true, b.setLevels s ls') := by
  unfold cancel
  cases bid : cancelIn .buy id b.bids with
  | some ls' => exact .inr ⟨.buy, ls', cancelIn_removed (sorted .buy) bid, rfl⟩
  | none =>
      cases ask : cancelIn .sell id b.asks with
      | some ls' => exact .inr ⟨.sell, ls', cancelIn_removed (sorted .sell) ask, rfl⟩
      | none =>
          refine .inl ⟨fun o ho => ?_, rfl⟩
          rcases List.mem_append.mp ho with ho | ho
          · exact cancelIn_eq_none_iff.mp bid o ho
          · exact cancelIn_eq_none_iff.mp ask o ho

end OrderBook

end Cancel

end StockMarket
