import LynneSocial.Browser.Actions
import LynneSocial.Browser.Adaptors
import LynneSocial.Browser.Base64
import LynneSocial.Browser.BrowserConfig
import LynneSocial.Browser.CdpBrowserManager
import LynneSocial.Browser.Chains
import LynneSocial.Browser.Completion
import LynneSocial.Browser.Consumption
import LynneSocial.Browser.ContextCache
import LynneSocial.Browser.Cookies
import LynneSocial.Browser.Correlation
import LynneSocial.Browser.Delayed
import LynneSocial.Browser.DevTools
import LynneSocial.Browser.FirstSession
import LynneSocial.Browser.Handlers
import LynneSocial.Browser.Isolation
import LynneSocial.Browser.Lifetimes
import LynneSocial.Browser.Listeners
import LynneSocial.Browser.Orphans
import LynneSocial.Browser.Processes
import LynneSocial.Browser.Reopening
import LynneSocial.Browser.Requests
import LynneSocial.Browser.Scripts
import LynneSocial.Browser.SendCommand
import LynneSocial.Browser.SessionFiles
import LynneSocial.Browser.Sessions
import LynneSocial.Browser.Steps
import LynneSocial.Browser.Stream
import LynneSocial.Browser.Targets
import LynneSocial.Browser.WaitForSelector
import LynneSocial.Browser.WaitTimeout
import LynneSocial.Browser.Waits
import LynneSocial.Common.Find
import LynneSocial.Common.Json
import LynneSocial.Common.JsonCodec
import LynneSocial.Common.JsonDump
import LynneSocial.Common.Models
import LynneSocial.Common.Stoi
import LynneSocial.Config.ConfigModels
import LynneSocial.Lib.Base64
import LynneSocial.Lib.Binary64
import LynneSocial.Lib.Decimal
import LynneSocial.Lib.FileSystem
import LynneSocial.Lib.History
import LynneSocial.Lib.InPlace
import LynneSocial.Lib.OneShot
import LynneSocial.Lib.Outbox
import LynneSocial.Lib.StringLiteral
import LynneSocial.Lib.Transition
import LynneSocial.Lib.Utf8
import LynneSocial.Llm.BaseUrl
import LynneSocial.Llm.DeepSeekEngine
import LynneSocial.Scheduler.Armed
import LynneSocial.Scheduler.Destruction
import LynneSocial.Scheduler.Jobs
import LynneSocial.Scheduler.PostQueue
import LynneSocial.Scheduler.Timers
import LynneSocial.Scheduler.UvScheduler
import LynneSocial.Storage.Dates
import LynneSocial.Storage.FailedSaves
import LynneSocial.Storage.JsonlStorage
import LynneSocial.Storage.Refinement
import LynneSocial.WsClient.Delivery
import LynneSocial.Common.JsonLexer
import LynneSocial.Common.JsonParser
import LynneSocial.Common.JsonText
import LynneSocial.Common.Nlohmann
import LynneSocial.Scheduler.ThreadPool
import LynneSocial.Llm.Chats
import LynneSocial.Lib.MinHeap
import LynneSocial.Scheduler.EventLoop
import LynneSocial.Scheduler.Deadlines
