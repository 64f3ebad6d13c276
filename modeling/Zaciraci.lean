import Zaciraci.Arbitrage.Picking
import Zaciraci.Arbitrage.UnitSearch
import Zaciraci.Auth.Refresh
import Zaciraci.Auth.UserCache
import Zaciraci.Lib.QuadraticForm
import Zaciraci.Path.BestRate
import Zaciraci.Path.SearchArithmetic
import Zaciraci.Path.Values
import Zaciraci.Persistence.FallbackPaths
import Zaciraci.Persistence.PoolHistory
import Zaciraci.Persistence.PredictionRecords
import Zaciraci.Persistence.Retention
import Zaciraci.Portfolio.Box
import Zaciraci.Portfolio.Covariance
import Zaciraci.Portfolio.Drawdown
import Zaciraci.Portfolio.Exhaustive
import Zaciraci.Rpc.Retry
import Zaciraci.Simulate.Accounting
import Zaciraci.Simulate.Engine
import Zaciraci.Simulate.PeriodClock
import Zaciraci.Simulate.SwapActions
import Zaciraci.Storage.Running
import Zaciraci.Storage.Stability
import Zaciraci.Trade.Allocation
import Zaciraci.Trade.Attribution
import Zaciraci.Trade.Confidence
import Zaciraci.Trade.Funding
import Zaciraci.Trade.Harvest
import Zaciraci.Trade.HarvestRuns
import Zaciraci.Trade.Isolation
import Zaciraci.Trade.MarketData
import Zaciraci.Trade.PredictionRuns
import Zaciraci.Trade.RateRecording
import Zaciraci.Trade.Target
import Zaciraci.Trade.TokenCache
import Zaciraci.Web.ConfigSessions
import Zaciraci.Lib.Newton
import Zaciraci.Simulate.Report
import Zaciraci.Trade.Volatility
import Zaciraci.Trade.Decision
import Zaciraci.Simulate.Settlement
import Zaciraci.Trade.Cron
import Zaciraci.Portfolio.Tangency
