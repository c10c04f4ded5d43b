import Netatalk.AdLockTmplock
import Netatalk.ForkSetmodeSafe
import Netatalk.DirIndexRun
import Netatalk.DeferredPurge
import Netatalk.IdleWorker
import Netatalk.RforkAccount
import Netatalk.SpotlightRoundTrip
import Netatalk.CatsearchStack
import Netatalk.CatsearchExact
import Netatalk.CatsearchReply
import Netatalk.ReplayCache
import Netatalk.EnumeratePages
import Netatalk.EnumerateCurrent
import Netatalk.OforkTable
import Netatalk.EaMap
import Netatalk.AppleDoubleEa
import Netatalk.AppleDoubleV2
import Netatalk.HintRelay
import Netatalk.HintReader
import Netatalk.CnameReading
import Netatalk.AclRoundTrip
import Netatalk.AtpAnswers
import Netatalk.AtpResponse
import Netatalk.AspSessions
import Netatalk.RtmpRanges
import Netatalk.DirTab
import Netatalk.WriteFrames
import Netatalk.StableNames
import Netatalk.Dtfile
import Netatalk.ConfReload
import Netatalk.FceCoalesce
