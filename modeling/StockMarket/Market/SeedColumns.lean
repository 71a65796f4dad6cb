import Mathlib.Logic.Equiv.Basic
import StockMarket.MarketSeed

/-!
Loading the seed file does not depend on the order of its columns.

The cells of a line are what its commas separate; `split_csv_line` drops an empty one at the
end. What it gives for a column is the text of the cell there, where a missing cell, a
dropped one and an empty one are all the empty text (`getD_splitCsvLine`). A row is used or
skipped as its cells in the named columns say (`seedOfFields_eq`), and a named column is
where the permutation took it (`columnIndex_permuteLine`), so the seeds are the same
(`loadMarketSeed_permuteColumns`).
-/

namespace StockMarket

/-! ### Cells -/

/-- The cells of a line of the file. -/
def cells (line : List Char) : List String :=
  (line.splitOn ',').map String.ofList

/-- The text in a column, empty if the line has no such cell. -/
def cell (line : List Char) (i : Nat) : String :=
  (cells line).getD i ""

theorem modifyHead_nil_append (texts : List (List Char)) :
    texts.modifyHead ([] ++ ·) = texts := by
  cases texts <;> rfl

/-- The split in the middle of a line: `field` was read of the first cell. -/
theorem getD_fieldsFrom (i : Nat) : ∀ (line field : List Char),
    (fieldsFrom field line).getD i ""
      = (((line.splitOn ',').modifyHead (field ++ ·)).map String.ofList).getD i ""
  | [], field => by
      unfold fieldsFrom
      split_ifs with none
      · cases i <;> simp [none]
      · simp
  | c :: cs, field => by
      unfold fieldsFrom
      rw [List.splitOn_cons_eq_if_modifyHead]
      by_cases comma : c = ','
      · rw [if_pos comma, if_pos (beq_iff_eq.mpr comma), List.modifyHead_cons, List.append_nil]
        cases i with
        | zero => rfl
        | succ i =>
            have rest := getD_fieldsFrom i cs []
            rw [modifyHead_nil_append] at rest
            simpa using rest
      · have rest := getD_fieldsFrom i cs (field ++ [c])
        have read : (fun text => field ++ [c] ++ text) = (field ++ ·) ∘ List.cons c :=
          funext fun text => List.append_assoc _ _ _
        rw [if_neg comma, if_neg (by simpa using comma), rest, List.modifyHead_modifyHead, read]

/-- **What the splitter gives for a column** is the text of the cell. -/
theorem getD_splitCsvLine (line : List Char) (i : Nat) :
    (splitCsvLine line).getD i "" = cell line i := by
  rw [splitCsvLine, getD_fieldsFrom, modifyHead_nil_append]
  rfl

/-- A column beyond the fields is empty. -/
theorem cell_of_length_le {line : List Char} {i : Nat} (beyond : (splitCsvLine line).length ≤ i) :
    cell line i = "" := by
  rw [← getD_splitCsvLine, List.getD_eq_getElem?_getD, List.getElem?_eq_none beyond]
  rfl

/-! ### Rows -/

/-- What becomes of a row with these texts in the named columns. -/
def seedOf (ticker price : String) (volatility : Option String) : Option SeedSymbol :=
  if ticker = "" ∨ parseDoubleOr price 0 ≤ 0 then none
  else some {
    symbol := ticker
    lastPrice := parseDoubleOr price 0
    rollingVolatility20 := (volatility.map (parseDoubleOr · 0)).getD 0 }

theorem parseDoubleOr_empty (fallback : Double) : parseDoubleOr "" fallback = fallback :=
  if_pos rfl

/-- Without a ticker, or without a price, a row is skipped. -/
theorem seedOf_empty {ticker price : String} (volatility : Option String)
    (empty : ticker = "" ∨ price = "") : seedOf ticker price volatility = none := by
  refine if_pos (empty.imp_right fun empty => ?_)
  rw [empty, parseDoubleOr_empty]
  decide

theorem volatilityOf_splitCsvLine (v : Option Nat) (line : List Char) :
    volatilityOf v (splitCsvLine line)
      = ((v.map (cell line)).map (parseDoubleOr · 0)).getD 0 := by
  cases v with
  | none => rfl
  | some col =>
      simp only [volatilityOf, getD_splitCsvLine, Option.map_some, Option.getD_some]
      split_ifs with there
      · rfl
      · rw [cell_of_length_le (not_lt.mp there), parseDoubleOr_empty]

/-- **A row is what its cells in the named columns are**, wherever these are. -/
theorem seedOfFields_eq (t p : Nat) (v : Option Nat) (line : List Char) :
    seedOfFields t p v (splitCsvLine line)
      = seedOf (cell line t) (cell line p) (v.map (cell line)) := by
  unfold seedOfFields
  split_ifs with short
  · refine (seedOf_empty _ ?_).symm
    exact (le_max_iff.mp short).imp cell_of_length_le cell_of_length_le
  · simp only [getD_splitCsvLine, volatilityOf_splitCsvLine, seedOf]

theorem seedsOfRows_eq (t p : Nat) (v : Option Nat) : ∀ rows : List (List Char),
    seedsOfRows t p v rows
      = rows.filterMap fun line => seedOf (cell line t) (cell line p) (v.map (cell line))
  | [] => rfl
  | line :: rows => by
      rw [seedsOfRows, seedOfFields_eq, seedsOfRows_eq t p v rows, List.filterMap_cons]
      split_ifs with blank
      · have none : cell line t = "" :=
          cell_of_length_le (by simp [blank, splitCsvLine, fieldsFrom])
        rw [seedOf_empty _ (.inl none)]
      · cases seedOf (cell line t) (cell line p) (v.map (cell line)) <;> rfl

/-! ### Columns -/

/-- The line with its columns permuted: the new column `i` is the old column `σ i`. -/
def permuteLine {n : Nat} (σ : Equiv.Perm (Fin n)) (line : List Char) : List Char :=
  [','].intercalate (List.ofFn fun i => (cell line (σ i)).toList)

/-- The text with its columns permuted, in the header and in every row. -/
def permuteColumns {n : Nat} (σ : Equiv.Perm (Fin n)) (text : List Char) : List Char :=
  writeLines ((lines text).map (permuteLine σ))

section

variable {n : Nat} (σ : Equiv.Perm (Fin n)) {line : List Char}

/-- A part of a split has no separator, and what it has is in the list. -/
theorem of_mem_splitOn {α : Type} [DecidableEq α] (a : α) :
    ∀ {xs part : List α}, part ∈ xs.splitOn a → a ∉ part ∧ part ⊆ xs
  | [], part, mem => by
      obtain rfl := List.mem_singleton.mp mem
      exact ⟨List.not_mem_nil, List.nil_subset _⟩
  | x :: xs, part, mem => by
      rw [List.splitOn_cons_eq_if_modifyHead] at mem
      obtain ⟨first, others, split⟩ := List.exists_cons_of_ne_nil (List.splitOn_ne_nil a xs)
      split_ifs at mem with here
      · rcases List.mem_cons.mp mem with rfl | mem
        · exact ⟨List.not_mem_nil, List.nil_subset _⟩
        · obtain ⟨none, sub⟩ := of_mem_splitOn a mem
          exact ⟨none, List.subset_cons_of_subset x sub⟩
      · rw [split, List.modifyHead_cons] at mem
        rcases List.mem_cons.mp mem with rfl | mem
        · have listed : first ∈ xs.splitOn a := split ▸ List.mem_cons_self
          obtain ⟨none, sub⟩ := of_mem_splitOn a listed
          refine ⟨List.not_mem_cons_of_ne_of_not_mem ?_ none, List.cons_subset_cons x sub⟩
          exact fun same => here (beq_iff_eq.mpr same.symm)
        · obtain ⟨none, sub⟩ := of_mem_splitOn a (split ▸ List.mem_cons_of_mem _ mem)
          exact ⟨none, List.subset_cons_of_subset x sub⟩

/-- A text in a column is that of one of the parts, or empty. -/
theorem cell_cases (line : List Char) (i : Nat) :
    cell line i = "" ∨ ∃ part ∈ line.splitOn ',', cell line i = String.ofList part := by
  unfold cell
  rw [List.getD_eq_getElem?_getD]
  cases there : (cells line)[i]? with
  | none => exact .inl rfl
  | some text =>
      obtain ⟨part, mem, rfl⟩ := List.mem_map.mp (List.mem_of_getElem? there)
      exact .inr ⟨part, mem, rfl⟩

theorem of_cell (line : List Char) (i : Nat) :
    ',' ∉ (cell line i).toList ∧ (cell line i).toList ⊆ line := by
  rcases cell_cases line i with none | ⟨part, mem, text⟩
  · rw [none]
    exact ⟨List.not_mem_nil, List.nil_subset _⟩
  · rw [text, String.toList_ofList]
    exact of_mem_splitOn ',' mem

theorem cells_permuteLine (pos : n ≠ 0) (line : List Char) :
    cells (permuteLine σ line) = List.ofFn fun i => cell line (σ i) := by
  have parts : ∀ part ∈ List.ofFn fun i => (cell line (σ i)).toList, ',' ∉ part := by
    intro part mem
    obtain ⟨i, rfl⟩ := List.mem_ofFn.mp mem
    exact (of_cell line (σ i)).1
  have some : (List.ofFn fun i => (cell line (σ i)).toList) ≠ [] := by
    simpa using pos
  rw [cells, permuteLine, List.splitOn_intercalate ',' parts some, List.map_ofFn]
  exact congrArg List.ofFn (funext fun i => String.ofList_toList)

theorem cell_permuteLine (line : List Char) (i : Fin n) :
    cell (permuteLine σ line) i = cell line (σ i) := by
  have pos : n ≠ 0 := Nat.ne_zero_of_lt i.isLt
  rw [cell, cells_permuteLine σ pos, List.getD_eq_getElem?_getD]
  simp

/-- The column of a name is the first with that text in the header. -/
theorem columnIndex_eq_some_iff {name : String} (named : name ≠ "") {i : Nat} :
    columnIndex (splitCsvLine line) name = some i ↔
      cell line i = name ∧ ∀ j < i, cell line j ≠ name := by
  have read (j : Nat) (lt : j < (splitCsvLine line).length) :
      cell line j = (splitCsvLine line)[j] := by
    rw [← getD_splitCsvLine, List.getD_eq_getElem?_getD, List.getElem?_eq_getElem lt,
      Option.getD_some]
  unfold columnIndex
  rw [List.idxOf?_eq_some_iff]
  constructor
  · rintro ⟨lt, here, first⟩
    refine ⟨(read i lt).trans here, fun j before same => first j before ?_⟩
    rw [← read j (before.trans lt), same]
  · rintro ⟨here, first⟩
    have lt : i < (splitCsvLine line).length := by
      by_contra beyond
      exact named (here.symm.trans (cell_of_length_le (not_lt.mp beyond)))
    refine ⟨lt, (read i lt).symm.trans here, fun j before same => first j before ?_⟩
    rw [read j (before.trans lt), same]

theorem columnIndex_eq_none_iff {name : String} (named : name ≠ "") :
    columnIndex (splitCsvLine line) name = none ↔ ∀ i, cell line i ≠ name := by
  constructor
  · intro none i here
    refine List.idxOf?_eq_none_iff.mp none ?_
    have lt : i < (splitCsvLine line).length := by
      by_contra beyond
      exact named (here.symm.trans (cell_of_length_le (not_lt.mp beyond)))
    rw [← here, ← getD_splitCsvLine, List.getD_eq_getElem?_getD, List.getElem?_eq_getElem lt,
      Option.getD_some]
    exact List.getElem_mem lt
  · intro none
    cases found : columnIndex (splitCsvLine line) name with
    | none => rfl
    | some i => exact absurd ((columnIndex_eq_some_iff named).mp found).1 (none i)

variable {σ}

/-- Different columns have different names. -/
theorem cell_injective (distinct : (cells line).Nodup) {i j : Nat} (hi : i < (cells line).length)
    (hj : j < (cells line).length) (same : cell line i = cell line j) : i = j := by
  unfold cell at same
  rw [List.getD_eq_getElem?_getD, List.getD_eq_getElem?_getD, List.getElem?_eq_getElem hi,
    List.getElem?_eq_getElem hj, Option.getD_some, Option.getD_some] at same
  exact (distinct.getElem_inj_iff).mp same

/-- **A named column is where the permutation took it.** -/
theorem columnIndex_permuteLine {name : String} (named : name ≠ "")
    (width : (cells line).length = n) (distinct : (cells line).Nodup) :
    (columnIndex (splitCsvLine line) name = none ∧
        columnIndex (splitCsvLine (permuteLine σ line)) name = none) ∨
      ∃ i : Fin n, columnIndex (splitCsvLine line) name = some (σ i).val ∧
        columnIndex (splitCsvLine (permuteLine σ line)) name = some i.val := by
  have inside {line : List Char} {i : Nat} (here : cell line i = name) :
      i < (cells line).length := by
    by_contra beyond
    refine named (here.symm.trans ?_)
    rw [cell, List.getD_eq_getElem?_getD, List.getElem?_eq_none (not_lt.mp beyond)]
    rfl
  have pos : n ≠ 0 := by
    rw [← width, cells, List.length_map]
    exact fun none => List.splitOn_ne_nil ',' line (List.length_eq_zero_iff.mp none)
  have width' : (cells (permuteLine σ line)).length = n := by
    rw [cells_permuteLine σ pos, List.length_ofFn]
  cases found : columnIndex (splitCsvLine line) name with
  | none =>
      refine .inl ⟨rfl, (columnIndex_eq_none_iff named).mpr fun i here => ?_⟩
      have lt : i < n := width' ▸ inside here
      rw [cell_permuteLine σ line ⟨i, lt⟩] at here
      exact (columnIndex_eq_none_iff named).mp found _ here
  | some i =>
      obtain ⟨here, -⟩ := (columnIndex_eq_some_iff named).mp found
      have lt : i < n := width ▸ inside here
      refine .inr ⟨σ.symm ⟨i, lt⟩, by rw [Equiv.apply_symm_apply], ?_⟩
      refine (columnIndex_eq_some_iff named).mpr ⟨?_, fun j before there => ?_⟩
      · rw [cell_permuteLine, Equiv.apply_symm_apply, here]
      · have ltj : j < n := width' ▸ inside there
        have there' : cell line (σ ⟨j, ltj⟩) = name :=
          (cell_permuteLine σ line ⟨j, ltj⟩).symm.trans there
        have same : (σ ⟨j, ltj⟩ : Nat) = i :=
          cell_injective distinct (width ▸ (σ ⟨j, ltj⟩).isLt) (width ▸ lt) (there'.trans here.symm)
        have back : σ.symm ⟨i, lt⟩ = ⟨j, ltj⟩ := (Equiv.symm_apply_eq σ).mpr (Fin.ext same.symm)
        exact absurd before (by rw [back]; exact lt_irrefl j)

end

/-! ### Texts -/

theorem mem_intercalate {α : Type} {a x : α} : ∀ {parts : List (List α)},
    x ∈ [a].intercalate parts → x = a ∨ ∃ part ∈ parts, x ∈ part
  | [], mem => by simp at mem
  | [part], mem => .inr ⟨part, List.mem_cons_self, by simpa using mem⟩
  | part :: part' :: parts, mem => by
      rw [List.intercalate_cons_of_ne_nil (List.cons_ne_nil _ _), List.mem_append,
        List.mem_append] at mem
      rcases mem with (own | separator) | later
      · exact .inr ⟨part, List.mem_cons_self, own⟩
      · exact .inl (List.mem_singleton.mp separator)
      · rcases mem_intercalate later with same | ⟨part'', known, inside⟩
        · exact .inl same
        · exact .inr ⟨part'', List.mem_cons_of_mem _ known, inside⟩

theorem newline_notMem_linesFrom : ∀ (text start : List Char), '\n' ∉ start →
    ∀ line ∈ linesFrom start text, '\n' ∉ line
  | [], start, single, line, mem => by
      unfold linesFrom at mem
      split_ifs at mem
      · cases mem
      · exact List.mem_singleton.mp mem ▸ single
  | c :: cs, start, single, line, mem => by
      unfold linesFrom at mem
      split_ifs at mem with ends
      · rcases List.mem_cons.mp mem with rfl | mem
        · exact single
        · exact newline_notMem_linesFrom cs [] List.not_mem_nil line mem
      · refine newline_notMem_linesFrom cs (start ++ [c]) ?_ line mem
        simp [single, Ne.symm ends]

theorem lines_permuteColumns {n : Nat} (σ : Equiv.Perm (Fin n)) (text : List Char) :
    lines (permuteColumns σ text) = (lines text).map (permuteLine σ) := by
  refine lines_writeLines fun line mem c hc => ?_
  obtain ⟨old, known, rfl⟩ := List.mem_map.mp mem
  rintro rfl
  rcases mem_intercalate hc with comma | ⟨part, there, inside⟩
  · exact absurd comma (by decide)
  · obtain ⟨i, rfl⟩ := List.mem_ofFn.mp there
    exact newline_notMem_linesFrom text [] List.not_mem_nil old known ((of_cell old (σ i)).2 inside)

/-- **Loading the seed does not depend on the order of the columns.** -/
theorem loadMarketSeed_permuteColumns {n : Nat} (σ : Equiv.Perm (Fin n)) (text : List Char)
    (header : ∀ line ∈ (lines text).head?, (cells line).length = n ∧ (cells line).Nodup) :
    loadMarketSeed (some (permuteColumns σ text)) = loadMarketSeed (some text) := by
  unfold loadMarketSeed
  rw [Option.map_some, Option.map_some, lines_permuteColumns]
  cases whole : lines text with
  | nil => rfl
  | cons headerLine rows =>
      obtain ⟨width, distinct⟩ := header headerLine (by rw [whole]; rfl)
      have column (name : String) (named : name ≠ "") :=
        columnIndex_permuteLine (σ := σ) named width distinct
      simp only [List.map_cons]
      rcases column "ticker" (by decide) with ⟨found, found'⟩ | ⟨t, found, found'⟩
      · rw [found, found']
      rcases column "latest_price" (by decide) with ⟨priced, priced'⟩ | ⟨p, priced, priced'⟩
      · rw [found, found', priced, priced']
      -- each row has the same texts in the named columns
      rw [found, found', priced, priced']
      simp only [seedsOfRows_eq, List.filterMap_map]
      rcases column "rolling_volatility_20" (by decide) with ⟨none, none'⟩ | ⟨v, volatile, volatile'⟩
      · simp only [none, none', Function.comp_def, cell_permuteLine, Option.map_none]
      · simp only [volatile, volatile', Function.comp_def, cell_permuteLine, Option.map_some]

/-- A snapshot of three symbols: the last has no volatility, the second no price. -/
def snapshotCsv : List Char :=
  "ticker,latest_price,rolling_volatility_20\nAAPL,190.5,0.25\nMSFT,,0.2\nNVDA,120\n".toList

theorem loadMarketSeed_permuteColumns_reversed :
    (loadMarketSeed (some snapshotCsv)).map SeedSymbol.symbol = ["AAPL", "NVDA"] ∧
      permuteColumns (Equiv.swap (0 : Fin 3) 2) snapshotCsv
        = "rolling_volatility_20,latest_price,ticker\n0.25,190.5,AAPL\n0.2,,MSFT\n,120,NVDA\n".toList ∧
      loadMarketSeed (some (permuteColumns (Equiv.swap (0 : Fin 3) 2) snapshotCsv))
        = loadMarketSeed (some snapshotCsv) := by
  refine ⟨by decide +kernel, by decide +kernel, ?_⟩
  exact loadMarketSeed_permuteColumns (Equiv.swap (0 : Fin 3) 2) snapshotCsv (by decide +kernel)

end StockMarket
