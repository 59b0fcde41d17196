import AdxDsp.Lib.Bytes
import AdxDsp.Lib.JsonQuote
import AdxDsp.Lib.Prog
import AdxDsp.Lib.ReadModifyWrite
import AdxDsp.Lib.Redis
import AdxDsp.Lib.Sieve
import AdxDsp.Lib.Steps
import AdxDsp.Lib.Expiry
import AdxDsp.Lib.Growth
import AdxDsp.Tracker.Command
import AdxDsp.Tracker.Control
import AdxDsp.Tracker.Tracker
import AdxDsp.Tracker.FlagRace
import AdxDsp.Tracker.KpiPause
import AdxDsp.Tracker.Serve
import AdxDsp.Tracker.Charging
import AdxDsp.Tracker.FrequencyCount
import AdxDsp.Tracker.Query
import AdxDsp.Tracker.ParamRead
import AdxDsp.Tracker.Redirect
import AdxDsp.Tracker.FlagHistory
import AdxDsp.Tracker.Balance
import AdxDsp.Tracker.KpiReload
import AdxDsp.Bid.Element
import AdxDsp.Bid.IflytekAdm
import AdxDsp.Bid.TraceUrl
import AdxDsp.Bid.FlagKey
import AdxDsp.Bid.Filter
import AdxDsp.Bid.Selector
import AdxDsp.Bid.DeviceCount
import AdxDsp.Bid.FrequencyFilter
import AdxDsp.Bid.AdCtrl
import AdxDsp.Bid.SelectAd
import AdxDsp.Bid.Pipeline
import AdxDsp.Bid.Bidding
import AdxDsp.Bid.Paused
import AdxDsp.Bid.TraceFields
import AdxDsp.Bid.DoubleCache
import AdxDsp.Bid.DealPrice
import AdxDsp.Bid.RecordCount
import AdxDsp.Bid.Inventory
import AdxDsp.Bid.Response
import AdxDsp.Bid.SharedTables
import AdxDsp.Bid.ReceiveBuffer
import AdxDsp.Bid.LocalLog
import AdxDsp.Bid.ServerLog
import AdxDsp.Tracker.PriceDecode
import AdxDsp.AutoCost.CheckTime
import AdxDsp.AutoCost.Complete
import AdxDsp.Bid.Workers
import AdxDsp.Bid.Permits
import AdxDsp.Bid.Shutdown
import AdxDsp.Bid.Classify
import AdxDsp.Bid.Winner
import AdxDsp.Bid.NativeAssets
import AdxDsp.Bid.Region
import AdxDsp.Bid.ImpAddress
import AdxDsp.Json.Parse
import AdxDsp.Json.Safety
import AdxDsp.Lib.JsonText
import AdxDsp.Json.Accept
import AdxDsp.Json.Decode
import AdxDsp.Json.Shape
import AdxDsp.Json.Buffer
import AdxDsp.Json.RoundTrip
import AdxDsp.Cache.Nodes
import AdxDsp.Cache.FromJson
import AdxDsp.Bid.NativeImages
import AdxDsp.Bid.AdvcatSelect
import AdxDsp.Bid.DeviceTargeting
import AdxDsp.Lib.SearchTree
import AdxDsp.Bid.AllowNoDeviceid
import AdxDsp.Bid.Price
import AdxDsp.Lib.Md5
import AdxDsp.Bid.ThirdMonitor
import AdxDsp.Lib.Replace
import AdxDsp.Text.ReplaceMacro
import AdxDsp.Lib.Blocks
import AdxDsp.Text.MacroReplace
import AdxDsp.Lib.Lines
import AdxDsp.Bid.ErrcodeHex
import AdxDsp.Text.UrlCoding
import AdxDsp.Text.Base64
import AdxDsp.Lib.Calendar
import AdxDsp.Tracker.Periods
import AdxDsp.Tracker.CleanUp
import AdxDsp.Tracker.Pacing
import AdxDsp.Lib.RedBlack
import AdxDsp.Lib.RedBlackDelete
import AdxDsp.Tracker.CacheKeys
import AdxDsp.Cache.Rotation
import AdxDsp.Lib.Forest
import AdxDsp.Cache.Splice
import AdxDsp.Json.Unambiguous
import AdxDsp.Json.Built
import AdxDsp.Json.AddString
import AdxDsp.Tracker.Flume
import AdxDsp.Bid.SendSwitch
import AdxDsp.Bid.SceneTargeting
import AdxDsp.Bid.ImpInfo
import AdxDsp.Lib.Buffers
import AdxDsp.Bid.TanxDeviceId
import AdxDsp.Tracker.PriceBounds
import AdxDsp.Lib.Sextets
import AdxDsp.Tracker.AutohomePrice
import AdxDsp.Lib.BlockCipher
import AdxDsp.Tracker.LetvPrice
import AdxDsp.Lib.ParentTrees
import AdxDsp.Tracker.Rbtree
import AdxDsp.Tracker.RbtreeDelete
import AdxDsp.Tracker.ListSort
import AdxDsp.Lib.Doubles
import AdxDsp.AutoCost.Calculate
import AdxDsp.Json.Bounds
import AdxDsp.Lib.Transducer
import AdxDsp.Bid.GdtImps
import AdxDsp.Bid.GoogleBilling
import AdxDsp.Bid.GoogleNative
import AdxDsp.Lib.Pointers
import AdxDsp.Module.BaiduAdapter
import AdxDsp.Module.PostHandlers
import AdxDsp.Module.LocalStrings
import AdxDsp.Lib.RunSort
import AdxDsp.Cache.Paths
import AdxDsp.Cache.ElementIndex
import AdxDsp.Cache.SpliceApart
import AdxDsp.Cache.CreativeDump
import AdxDsp.Module.NetworkBody
import AdxDsp.Lib.LinkedTrees
import AdxDsp.Bid.JsonTree
import AdxDsp.Bid.LetvResponse
import AdxDsp.Bid.ClickLanding
import AdxDsp.Lib.OwnedCells
import AdxDsp.Lib.LinkedLists
import AdxDsp.Lib.Mutex
import AdxDsp.Tracker.Queue
import AdxDsp.Tracker.LogQueue
import AdxDsp.Lib.UnknownValues
import AdxDsp.Bid.IflytekRequest
import AdxDsp.Lib.Varint
import AdxDsp.Module.Protobuf
import AdxDsp.Module.ProtobufLaws
import AdxDsp.Module.ComProto
import AdxDsp.Module.BaiduCom
