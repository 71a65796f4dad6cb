import StockMarket.Book.Invariant
import StockMarket.Registry.ExactlyOnce
import StockMarket.Engine.Quantity
import StockMarket.Engine.Solvency
import StockMarket.Engine.ReleaseScan
import StockMarket.Bus.Delivery
import StockMarket.Net.Isolation
import StockMarket.Net.Finite
import StockMarket.Net.Protocol
import StockMarket.Net.Session
import StockMarket.Engine.LastPrice
import StockMarket.Engine.Triggers
import StockMarket.Engine.Exposure
import StockMarket.Net.Cancel
import StockMarket.Net.OrderCommand
import StockMarket.Net.Sha256
import StockMarket.Sql.Coverage
import StockMarket.Sql.Identity
import StockMarket.Sql.FreshIds
import StockMarket.Sql.Quantity
import StockMarket.Sql.SinglePrice
import StockMarket.Sql.Spending
import StockMarket.Sql.Valuation
import StockMarket.Sql.MarketFirst
import StockMarket.Sql.Funds
import StockMarket.Sql.Displays
import StockMarket.Book.Doubles
import StockMarket.Net.DepthTotals
import StockMarket.Net.Deadlines
import StockMarket.Market.Candles
import StockMarket.Market.Volume
import StockMarket.Market.SeedColumns
import StockMarket.Engine.Metrics
import StockMarket.Engine.MarketMaker
import StockMarket.Engine.Commute
import StockMarket.LatencyHistogram
import StockMarket.Net.Connections
import StockMarket.Engine.Simulation
import StockMarket.Engine.Watcher
import StockMarket.Market.Symbols
import StockMarket.Engine.Deadlock
import StockMarket.Sql.Locking
