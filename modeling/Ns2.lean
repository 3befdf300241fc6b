import Ns2.Pgm.RcvHistory
import Ns2.Sched.CalendarCounters
import Ns2.Sched.HeapRefine
import Ns2.Sched.SplayRefine
import Ns2.Dtn.Defragment
import Ns2.Dtn.StatPull
import Ns2.Dtn.Session
import Ns2.Tcp.SackBlocks
import Ns2.Tcp.ScoreBoardAgree
import Ns2.Queue.DrrBooks
import Ns2.Queue.SfqWorks
import Ns2.Queue.AckFilterRuns
import Ns2.Queue.CbqRegistry
import Ns2.Routing.HierDelivery
import Ns2.Routing.LookupRange
import Ns2.Routing.DoubleRoutes
import Ns2.RouteAlgo.LookupsAgree
import Ns2.Diffusion.PerfectMatch
import Ns2.Nix.NixDelivery
import Ns2.Nix.LongVecRound
import Ns2.Dsdv.ProcessUpdate
import Ns2.Dsr.MobiCacheSound
import Ns2.Dsr.LinkRoutes
import Ns2.Dsr.CompressPath
import Ns2.Dsr.PathStore
import Ns2.Dsr.RequestTable
import Ns2.Sctp.DeliveryRun
import Ns2.Sctp.AdvertisedWindow
import Ns2.Sctp.SendLoops
import Ns2.Imep.ReliableBroadcast
import Ns2.Imep.InOrderDelivery
import Ns2.LinkState.Forwarding
import Ns2.Dtn.Arrange
import Ns2.Dtn.DelivredBundles
import Ns2.Dtn.ListDiff
import Ns2.Tcp.ReceiveNext
import Ns2.Tcp.ScoreBoard1Retran
import Ns2.Tcp.ScoreBoardRHRing
import Ns2.Tcp.TcpNeverStalls
import Ns2.Tora.ToraAcyclic
import Ns2.Mac.MacNeverWedges
import Ns2.Dtn.AckBlocks
import Ns2.Dtn.DropVictims
import Ns2.Dtn.LocalDelivery
import Ns2.Dtn.Neighbors
import Ns2.Dtn.StrRecords
import Ns2.Dtn.RetrieveSafety
import Ns2.Dtn.StatCacheRuns
import Ns2.Aodv.EntryInvariant
import Ns2.Dtn.Routes
import Ns2.Dtn.Registration
import Ns2.Rng.RngImplementation
import Ns2.Rng.RngPackage
import Ns2.Aodv.RqueueRuns
import Ns2.LinkState.Freshness
import Ns2.LinkState.Acknowledgements
import Ns2.Mac.MacDuplicates
import Ns2.Tcp.RttTimer
import Ns2.Tora.LinkBooks
