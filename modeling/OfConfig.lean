import OfConfig.Comm.Agent
import OfConfig.Comm.AgentList
import OfConfig.Comm.Agents
import OfConfig.Comm.Dbus
import OfConfig.Comm.Protocol
import OfConfig.Comm.Socket
import OfConfig.Comm.Wire
import OfConfig.Datastore
import OfConfig.Edit.Engine
import OfConfig.Edit.Match
import OfConfig.Edit.Ops
import OfConfig.Edit.Running
import OfConfig.Edit.Text
import OfConfig.Lib.Address
import OfConfig.Lib.Linked
import OfConfig.Lib.Loop
import OfConfig.Lib.Markup
import OfConfig.Lib.Overlay
import OfConfig.Lib.Pattern
import OfConfig.Lib.Prog
import OfConfig.Lib.Rose
import OfConfig.Lib.Rpc
import OfConfig.Lib.Stream
import OfConfig.Lib.Table
import OfConfig.Lib.Unlink
import OfConfig.Netconf
import OfConfig.Ovs.Backend
import OfConfig.Ovs.Bytes
import OfConfig.Ovs.Cert
import OfConfig.Ovs.Db
import OfConfig.Ovs.Number
import OfConfig.Ovs.Port
import OfConfig.Ovs.Queue
import OfConfig.Ovs.Render
import OfConfig.Ovs.Switch
import OfConfig.Proofs.AddedInterface
import OfConfig.Proofs.Addresses
import OfConfig.Proofs.AdminState
import OfConfig.Proofs.AgentList
import OfConfig.Proofs.AgentRuns
import OfConfig.Proofs.AgentSessions
import OfConfig.Proofs.Apply
import OfConfig.Proofs.Atomicity
import OfConfig.Proofs.CalmDocs
import OfConfig.Proofs.CalmSteps
import OfConfig.Proofs.Certificates
import OfConfig.Proofs.Compaction
import OfConfig.Proofs.Consumed
import OfConfig.Proofs.Contents
import OfConfig.Proofs.Controllers
import OfConfig.Proofs.Datapath
import OfConfig.Proofs.EditCalls
import OfConfig.Proofs.EditPaths
import OfConfig.Proofs.EditRuns
import OfConfig.Proofs.Exchanges
import OfConfig.Proofs.Features
import OfConfig.Proofs.Finishes
import OfConfig.Proofs.FlowTables
import OfConfig.Proofs.Granted
import OfConfig.Proofs.HandOver
import OfConfig.Proofs.Identity
import OfConfig.Proofs.Instances
import OfConfig.Proofs.KillSession
import OfConfig.Proofs.KnownPorts
import OfConfig.Proofs.Lookup
import OfConfig.Proofs.MergePaths
import OfConfig.Proofs.Namespaces
import OfConfig.Proofs.OpAttributes
import OfConfig.Proofs.OpChecks
import OfConfig.Proofs.Ops
import OfConfig.Proofs.Paths
import OfConfig.Proofs.Phase
import OfConfig.Proofs.PollSlots
import OfConfig.Proofs.PrivateKey
import OfConfig.Proofs.QueueModel
import OfConfig.Proofs.QueueRuns
import OfConfig.Proofs.Queues
import OfConfig.Proofs.ReadBack
import OfConfig.Proofs.References
import OfConfig.Proofs.Removal
import OfConfig.Proofs.Repeats
import OfConfig.Proofs.Requested
import OfConfig.Proofs.Rollback
import OfConfig.Proofs.RootLoops
import OfConfig.Proofs.RunningAtomic
import OfConfig.Proofs.Siblings
import OfConfig.Proofs.Simulation
import OfConfig.Proofs.SocketSessions
import OfConfig.Proofs.SshDaemon
import OfConfig.Proofs.Stored
import OfConfig.Proofs.Targets
import OfConfig.Proofs.Termination
import OfConfig.Proofs.Transactions
import OfConfig.Proofs.Tunnels
import OfConfig.Proofs.WhiteSpace
import OfConfig.Proofs.Writes
import OfConfig.Proofs.XmlMode
import OfConfig.Sshd
import OfConfig.Xml.Namespace
import OfConfig.Xml.Node
import OfConfig.Xml.Text
import OfConfig.Yang
