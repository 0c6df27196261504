import ProxyBroker.Barrier
import ProxyBroker.BrockerModule
import ProxyBroker.ClientEndpoint
import ProxyBroker.ControlClient
import ProxyBroker.ControlStream
import ProxyBroker.DispatchPass
import ProxyBroker.Framing
import ProxyBroker.MajordomoCount
import ProxyBroker.MajordomoExpiry
import ProxyBroker.MajordomoQueue
import ProxyBroker.MajordomoReserved
import ProxyBroker.MajordomoTrip
import ProxyBroker.MajordomoWaiting
import ProxyBroker.MasterFds
import ProxyBroker.MasterWait
import ProxyBroker.NetworkMute
import ProxyBroker.NetworkSurvives
import ProxyBroker.ProxyRuns
import ProxyBroker.SctpFraming
import ProxyBroker.ServerEndpoint
import ProxyBroker.TesterFds
import ProxyBroker.WorkerFds
import ProxyBroker.ZmsgRelay
