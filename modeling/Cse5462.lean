import Cse5462.Lib.Machine
import Cse5462.Tcpd.Server
import Cse5462.Tcpd.ReceiveWindow
import Cse5462.Tcpd.Reassembly
import Cse5462.Tcpd.AckSound
import Cse5462.Tcpd.AckErasure
import Cse5462.Tcpd.Cursors
import Cse5462.Tcpd.SendWindow
import Cse5462.Tcpd.LarScan
import Cse5462.Lib.DeltaList
import Cse5462.Lib.DoublyLinked
import Cse5462.Lib.Binary64
import Cse5462.Tcpd.Interval
import Cse5462.Tcpd.TimerInsert
import Cse5462.Tcpd.TimerLinks
import Cse5462.Tcpd.TimerOps
import Cse5462.Tcpd.TimerReach
import Cse5462.Tcpd.TimerMap
import Cse5462.Tcpd.TimerDrift
import Cse5462.Tcpd.TimerRefinement
import Cse5462.Tcpd.Command
import Cse5462.Tcpd.Estimator
import Cse5462.Tcpd.TimerProcess
import Cse5462.Tcpd.Client
import Cse5462.Tcpd.Tracking
import Cse5462.Tcpd.Turns
import Cse5462.Tcpd.Runaway
import Cse5462.Tcpd.Orphan
import Cse5462.Tcpd.Retransmit
import Cse5462.Tcpd.System
import Cse5462.Tcpd.EndToEnd
import Cse5462.Ftp.FileInformation
import Cse5462.Lib.Crc
import Cse5462.Tcpd.Checksum
import Cse5462.Tcpd.ErrorDetection
import Cse5462.Tcpd.ExactExpiry
import Cse5462.Tcpd.MemorySafety
import Cse5462.Tcpd.Oblivious
import Cse5462.Tcpd.Survival
import Cse5462.Tcpd.TimerDeadline
import Cse5462.Tcpd.TimerValid
import Cse5462.Timmer.Mended
import Cse5462.Timmer.Refinement
import Cse5462.Ftp.Receive
import Cse5462.Lab1.Count
import Cse5462.Lab1.Matches
import Cse5462.Lab1.Progress
import Cse5462.Lab2.Receive
import Cse5462.Lib.CrcPolynomial
import Cse5462.Proj2.GetSeq
import Cse5462.Tcpd.Division
import Cse5462.Tcpd.EstimatorBounds
import Cse5462.Tcpd.Pipe
import Cse5462.Tcpd.Sampling
import Cse5462.Tcpd.TimevalCarry
import Cse5462.Ftp.FileTransfer
import Cse5462.Lib.Framing
import Cse5462.Tcpd.PipeQueue
import Cse5462.Tcpd.Resend
import Cse5462.Tcpd.RoundTrip
import Cse5462.Tcpd.Stall
import Cse5462.Tcpd.TimerLedger
import Cse5462.Lab2.Transfer
import Cse5462.Proj2.Cwnd
import Cse5462.Tcpd.EstimatorHistory
import Cse5462.Tcpd.Wired
import Cse5462.Lab5.MyApp
import Cse5462.Proj2.Flow
import Cse5462.Tcpd.Lively
import Cse5462.Tcpd.Progress
