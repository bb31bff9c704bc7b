import Razzer.AliasedPairs
import Razzer.Allocator
import Razzer.Breakpoints
import Razzer.ClearDB
import Razzer.CloneApart
import Razzer.CorpusFeed
import Razzer.CorpusSignal
import Razzer.DBFile
import Razzer.DBStops
import Razzer.ExecLog
import Razzer.ExecTotals
import Razzer.ExecuteOne
import Razzer.ForkServer
import Razzer.FuzzerSignal
import Razzer.Gate
import Razzer.LikelyHistory
import Razzer.LikelySync
import Razzer.LogCache
import Razzer.MemOperand
import Razzer.MergeMempairs
import Razzer.MinimizeCopies
import Razzer.MutateCopies
import Razzer.OutputRoundTrip
import Razzer.PollLoop
import Razzer.RaceFlags
import Razzer.RaceInfoText
import Razzer.RaceInputs
import Razzer.RaceLinks
import Razzer.RaceOrder
import Razzer.RaceSignal
import Razzer.ReproOptions
import Razzer.SignalSync
import Razzer.Spoiled
import Razzer.StaticAnalysis
import Razzer.SuppSync
import Razzer.TrueRaceSync
