import StockMarket.Net.Stream

/-!
The CSV file with the symbols to start from (`include/market_seed.hpp`,
`src/market_seed.cpp`).

The reader is a plain split at commas: `getline` with the delimiter `,`, which gives no field
for an empty cell at the end of a line. Columns are found by their name in the header. A
file that cannot be opened is `none`.
-/

namespace StockMarket

/-- One symbol with its price and its volatility. -/
structure SeedSymbol where
  symbol : Symbol
  lastPrice : Double := 0
  rollingVolatility20 : Double := 0
  deriving DecidableEq, Repr

/-- The fields of a line, if `field` was read of the first one. -/
def fieldsFrom (field : List Char) : List Char → List String
  | [] => if field = [] then [] else [String.ofList field]
  | c :: cs =>
    if c = ',' then String.ofList field :: fieldsFrom [] cs else fieldsFrom (field ++ [c]) cs

/-- `split_csv_line`. -/
def splitCsvLine (line : List Char) : List String :=
  fieldsFrom [] line

/-- `parse_double_or`. -/
def parseDoubleOr (text : String) (fallback : Double) : Double :=
  if text = "" then fallback else (stod text).getD fallback

/-- The lambda `column_index` of `load_market_seed`, with no index for -1. -/
def columnIndex (header : List String) (name : String) : Option Nat :=
  header.idxOf? name

/-- `seed.rolling_volatility_20`: it keeps its default without a column or a field. -/
def volatilityOf (volatilityCol : Option Nat) (fields : List String) : Double :=
  match volatilityCol with
  | none => 0
  | some volatilityCol =>
    if volatilityCol < fields.length then parseDoubleOr (fields.getD volatilityCol "") 0 else 0

/-- What the loop of `load_market_seed` makes of a row's fields, if it is not skipped. -/
def seedOfFields (tickerCol priceCol : Nat) (volatilityCol : Option Nat) (fields : List String) :
    Option SeedSymbol :=
  if fields.length ≤ max tickerCol priceCol then none
  else
    let seed : SeedSymbol :=
      { symbol := fields.getD tickerCol ""
        lastPrice := parseDoubleOr (fields.getD priceCol "") 0
        rollingVolatility20 := volatilityOf volatilityCol fields }
    if seed.symbol = "" ∨ seed.lastPrice ≤ 0 then none else some seed

/-- The loop of `load_market_seed` over the lines after the header. -/
def seedsOfRows (tickerCol priceCol : Nat) (volatilityCol : Option Nat) :
    List (List Char) → List SeedSymbol
  | [] => []
  | line :: rows =>
    if line = [] then seedsOfRows tickerCol priceCol volatilityCol rows
    else
      match seedOfFields tickerCol priceCol volatilityCol (splitCsvLine line) with
      | none => seedsOfRows tickerCol priceCol volatilityCol rows
      | some seed => seed :: seedsOfRows tickerCol priceCol volatilityCol rows

/-- `load_market_seed` of a file with this text. -/
def loadMarketSeed (file : Option (List Char)) : List SeedSymbol :=
  match file.map lines with
  | none | some [] => []
  | some (headerLine :: rows) =>
    let header := splitCsvLine headerLine
    match columnIndex header "ticker", columnIndex header "latest_price" with
    | some tickerCol, some priceCol =>
      seedsOfRows tickerCol priceCol (columnIndex header "rolling_volatility_20") rows
    | _, _ => []

end StockMarket
