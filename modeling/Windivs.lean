import Windivs.Se.ObjectTypes
import Windivs.Se.FastTraverse
import Windivs.Se.FilterExact
import Windivs.Se.FilterAccess
import Windivs.Se.AdjustExact
import Windivs.Se.GroupAdjust
import Windivs.Cm.CellData
import Windivs.Cm.CrashRecovery
import Windivs.Cm.LoadedHive
import Windivs.Fs.McbSplit
import Windivs.Fs.McbUpdate
import Windivs.Fs.NameMatch
import Windivs.Se.AclTransparent
import Windivs.Rtl.TableIndex
import Windivs.Rtl.BitmapRange
import Windivs.Rtl.ClearRuns
import Windivs.Rtl.ShortName
import Windivs.Rtl.AvlEnumerate
import Windivs.Rtl.BackwardRun
import Windivs.Rtl.Time
import Windivs.Rtl.Ipv6
import Windivs.Rtl.Utf8Decode
import Windivs.Rtl.Lznt1Contract
import Windivs.Fs.LockCheck
import Windivs.Fs.Tunnel
import Windivs.Rtl.RangeList
import Windivs.Se.TokenCompare
import Windivs.Se.LogonSession
