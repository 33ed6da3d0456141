import BtcServer.AcceptLoops
import BtcServer.DbproxyServer.Program
import BtcServer.DbproxyServer.Result
import BtcServer.LoginServer.Output
import BtcServer.HttpmessageServer.ConcurrentRegistration
import BtcServer.HttpmessageServer.ConnectionManager
import BtcServer.HttpmessageServer.KeepAlive
import BtcServer.HttpmessageServer.Lifecycle
import BtcServer.HttpmessageServer.RequestLine
import BtcServer.HttpmessageServer.HeaderLookup
import BtcServer.HttpmessageServer.Registration
import BtcServer.HttpmessageServer.Framing
import BtcServer.HttpmessageServer.CaseFolding
import BtcServer.HttpmessageServer.Representation
import BtcServer.HttpmessageServer.ContentLength
import BtcServer.HttpmessageServer.BodyLimit
import BtcServer.HttpmessageServer.ServerLog
import BtcServer.HttpmessageServer.Progress
import BtcServer.HttpmessageServer.Receiving
import BtcServer.HttpmessageServer.EveryPeer
import BtcServer.HttpmessageServer.Idleness
import BtcServer.HttpmessageServer.Sending
import BtcServer.Boost.Gregorian
import BtcServer.Lib.Greatest
import BtcServer.AvRouter.AutoLoggerFile
import BtcServer.AvRouter.DailyFiles
import BtcServer.AvRouter.Logger
import BtcServer.AvRouter.LoggerThreads
import BtcServer.HttpmessageServer.Locking
