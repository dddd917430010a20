import P2pDriver.Library.Monitor
import P2pDriver.Driver
import P2pDriver.ShellSafety
import P2pDriver.StaleBytes
import P2pDriver.Refinement
import P2pDriver.CommandStream
import P2pDriver.Library.Ledger
import P2pDriver.SocketLedger
import P2pDriver.SessionProtocol
import P2pDriver.Library.Threads
import P2pDriver.Process
import P2pDriver.SessionMachine
import P2pDriver.StopRequest
import P2pDriver.HandleLifecycle
import P2pDriver.Surroundings
import P2pDriver.RecoveryStages
import P2pDriver.Recovery
import P2pDriver.LostPeer
import P2pDriver.MessageReaders
import P2pDriver.CommandGrammar
import P2pDriver.Attempt
import P2pDriver.HandshakeContract
import P2pDriver.ConnectionValidity
import P2pDriver.ReceiveBuffers
import P2pDriver.CommandEnd
import P2pDriver.Departure
import P2pDriver.Library.Linking
import P2pDriver.Library.LinkedThreads
import P2pDriver.CtrlIface
import P2pDriver.CtrlWorld
import P2pDriver.CtrlLedger
import P2pDriver.CtrlRequest
import P2pDriver.CtrlProcess
import P2pDriver.CtrlRefinement
import P2pDriver.CtrlSafety
import P2pDriver.Library.Quota
import P2pDriver.StopLatency
import P2pDriver.Library.Decimal
import P2pDriver.ConfirmMessage
import P2pDriver.CtrlTermination
import P2pDriver.CtrlClients
import P2pDriver.RequestDelivery
