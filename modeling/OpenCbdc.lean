import OpenCbdc.Common.Hex
import OpenCbdc.Serialization.Consumed
import OpenCbdc.LockingShard.ConfirmedTxs
import OpenCbdc.LockingShard.BatchEffect
import OpenCbdc.LockingShard.Client
import OpenCbdc.Coordinator.Batching
import OpenCbdc.Serialization.BackEnds
import OpenCbdc.Coordinator.LateRpc
import OpenCbdc.Coordinator.NoDoubleSpend
import OpenCbdc.Atomizer.SpentCache
import OpenCbdc.Atomizer.Notifications
import OpenCbdc.Atomizer.ShardReplica
import OpenCbdc.Atomizer.Snapshot
import OpenCbdc.Atomizer.ArrivalOrder
import OpenCbdc.Atomizer.CatchUp
import OpenCbdc.Atomizer.BlockHandler
import OpenCbdc.Atomizer.Supply
import OpenCbdc.Sentinel.Attestations
import OpenCbdc.Sentinel.Routing
import OpenCbdc.Wallet.Transfers
import OpenCbdc.Wallet.SaveLoad
import OpenCbdc.Seeding.ShardSeeder
import OpenCbdc.Client.Imports
import OpenCbdc.Client.Sync
import OpenCbdc.Address.Address
import OpenCbdc.Network.TcpSocket
import OpenCbdc.Network.Peer
import OpenCbdc.Raft.LogStores
import OpenCbdc.LockingShard.StateMachine
