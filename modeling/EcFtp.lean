import EcFtp.Aes
import EcFtp.AesInverse
import EcFtp.ThreadPlan
import EcFtp.Batches
import EcFtp.Enc
import EcFtp.EncChunks
import EcFtp.EncFile
import EcFtp.DecFile
import EcFtp.EncRoundTrip
import EcFtp.Comp
import EcFtp.EcRecords
import EcFtp.CompChunks
import EcFtp.UncompFile
import EcFtp.UncompSafety
import EcFtp.CompFile
import EcFtp.CompRoundTrip
import EcFtp.Duplex
import EcFtp.DiffieHellman
import EcFtp.Prepare
import EcFtp.Transfer
import EcFtp.StoredRaw
import EcFtp.ContainerForm
import EcFtp.RecordDecoder
import EcFtp.SequentialEnc
import EcFtp.KeyAgreement
import EcFtp.ServerTransfer
import EcFtp.FtpMachine
import EcFtp.FtpPhases
import EcFtp.FtpRuns
import EcFtp.FtpSessions
import EcFtp.AesDeviation
import EcFtp.FirstRound
import EcFtp.CStrings
import EcFtp.PutLoop
import EcFtp.FailedTransfers
import EcFtp.ThreadJoin
import EcFtp.FreshNames
import EcFtp.TempNames
import EcFtp.PortCommand
import EcFtp.ControlMessages
import EcFtp.CommandLine
import EcFtp.Trim
import EcFtp.ThreadRanges
import EcFtp.Prompt
import EcFtp.MissingInput
import EcFtp.RandDraws
import EcFtp.EventLog
import EcFtp.StreamBalance
import EcFtp.FileStreams
import EcFtp.RecordScan
import EcFtp.DuplexOutcome
import EcFtp.TransferOutcome
import EcFtp.HostCopies
import EcFtp.FtpBounds
import EcFtp.FtpReplies
import EcFtp.Frame
import EcFtp.CutShort
import EcFtp.PartialOutput
import EcFtp.Conduit
import EcFtp.DataStream
import EcFtp.WrittenRecords
import EcFtp.CutInput
import EcFtp.Activities
import EcFtp.ParallelTransfers
import EcFtp.ServerChildren
import EcFtp.EveryMoment
import EcFtp.ReceivedPrefix
import EcFtp.FailingSessions
import EcFtp.CipherTexts
import EcFtp.Listing
import EcFtp.WireMessages
import EcFtp.SessionTraffic
