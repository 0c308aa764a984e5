import RgcFifa.Reconnect
import RgcFifa.SessionIds
import RgcFifa.RelayTransparency
import RgcFifa.FrameEmission
import RgcFifa.Lib.FreeList
import RgcFifa.MessageBus
import RgcFifa.BusInv
import RgcFifa.ExactlyOnce
import RgcFifa.PeerLookup
import RgcFifa.Handshake
import RgcFifa.ReplyRouting
import RgcFifa.GetMsg
import RgcFifa.Receiver
import RgcFifa.Delivery
import RgcFifa.Evbuffer
import RgcFifa.Serialize
import RgcFifa.SerializeSize
import RgcFifa.SerializeBounds
import RgcFifa.SerializeRoundTrip
import RgcFifa.ConduitIds
import RgcFifa.LinkedServers
import RgcFifa.Restart
import RgcFifa.TypedMessage
import RgcFifa.CloseConn
import RgcFifa.ClientAddressing
import RgcFifa.Lib.StopFlag
import RgcFifa.StopRequest
import RgcFifa.BlockLifetime
import RgcFifa.Descriptors
import RgcFifa.Lib.Probing
import RgcFifa.HashList
import RgcFifa.HashTable
import RgcFifa.BlockPool
import RgcFifa.SizeClass
import RgcFifa.AcceptBalance
import RgcFifa.Teardown
import RgcFifa.TypedDispatch
import RgcFifa.StreamFields
import RgcFifa.StringFields
import RgcFifa.StreamCursor
import RgcFifa.BinaryReader
import RgcFifa.VectorFields
import RgcFifa.ReaderEquiv
import RgcFifa.SerializeReencode
import RgcFifa.StringTokenizer
import RgcFifa.AdminAllow
import RgcFifa.HashCount
import RgcFifa.HashSafety
import RgcFifa.Enumerate
import RgcFifa.Runner
import RgcFifa.HashOutcome
import RgcFifa.TimerSafety
import RgcFifa.RunnerDestroy
import RgcFifa.Unzip
import RgcFifa.UnzipReturns
import RgcFifa.UnzipMeaning
import RgcFifa.UnzipComplete
import RgcFifa.HashNonneg
import RgcFifa.MCached
import RgcFifa.TimeUtil
import RgcFifa.DayKeys
import RgcFifa.MkTime
import RgcFifa.SharpTimes
import RgcFifa.Log
import RgcFifa.LogRotation
import RgcFifa.GracefulClose
import RgcFifa.Lib.Gregorian
import RgcFifa.Lib.LocalTime
import RgcFifa.Deflate
import RgcFifa.ZipRoundTrip
import RgcFifa.ConfigAssign
import RgcFifa.StreamPeeks
import RgcFifa.Lib.Positional
import RgcFifa.Lib.Reversal
import RgcFifa.Itoa
import RgcFifa.Lib.BlockHash
import RgcFifa.Lib.Fips180
import RgcFifa.SHA1Engine
import RgcFifa.Lib.CanonicalCode
import RgcFifa.Lib.LsbBits
import RgcFifa.Lib.DeflateFormat
import RgcFifa.TInf
import RgcFifa.TInfBits
import RgcFifa.TInfBlock
import RgcFifa.TInfStream
import RgcFifa.Lib.Adler
import RgcFifa.Lib.Capacity
import RgcFifa.TInfRoom
import RgcFifa.TInfZlib
import RgcFifa.Lib.Lagged
import RgcFifa.Random
import RgcFifa.AutoPtr
import RgcFifa.AutoPtrSafety
import RgcFifa.AutoPtrAssign
import RgcFifa.AutoPtrRuns
import RgcFifa.Lib.Lexical
import RgcFifa.Path
import RgcFifa.PathPlaces
import RgcFifa.PathParse
import RgcFifa.PathUnix
import RgcFifa.PathWindows
import RgcFifa.Directories
import RgcFifa.Lib.Monitor
import RgcFifa.Lib.Linearization
import RgcFifa.EventImpl
import RgcFifa.Lib.Simulation
import RgcFifa.Thread
import RgcFifa.WorldServer
