import Sjfs.Lib.Transition
import Sjfs.Lib.Potential
import Sjfs.Lib.Semaphore
import Sjfs.Lib.Counter
import Sjfs.Lib.CMemory
import Sjfs.Lib.Bitmap
import Sjfs.Lib.Printf
import Sjfs.Lib.LinkCount
import Sjfs.Lib.Hierarchy
import Sjfs.Lib.Strtol
import Sjfs.Blocks
import Sjfs.Request
import Sjfs.Socket
import Sjfs.SocketLock
import Sjfs.SocketProbe
import Sjfs.SocketReply
import Sjfs.SocketSeq
import Sjfs.SocketRest
import Sjfs.SocketCalls
import Sjfs.SocketSolo
import Sjfs.SocketLeftover
import Sjfs.SocketPeer
import Sjfs.Bitmap
import Sjfs.Scan
import Sjfs.DiskInode
import Sjfs.FillSuper
import Sjfs.BlockCopies
import Sjfs.FillSuperRuns
import Sjfs.LoadedBitmaps
import Sjfs.FailedMount
import Sjfs.RootNumber
import Sjfs.Format
import Sjfs.FormatResult
import Sjfs.Options
import Sjfs.Mount
import Sjfs.Modules
import Sjfs.Iops
import Sjfs.RootDir
import Sjfs.DirMemory
import Sjfs.Remount
import Sjfs.Create
import Sjfs.PlanA.Fops
import Sjfs.PlanA.Channel
import Sjfs.PlanA.Order
import Sjfs.PlanA.Reply
import Sjfs.PlanA.Owed
import Sjfs.PlanA.Live
import Sjfs.PlanA.System
import Sjfs.PlanA.Helper
import Sjfs.Instances
import Sjfs.PlanA.Delivered
import Sjfs.PlanA.DoWork
import Sjfs.PlanAB.Tree
import Sjfs.PlanAB.Links
import Sjfs.PlanAB.Change
import Sjfs.PlanAB.Names
import Sjfs.Ram
import Sjfs.SocketLive
