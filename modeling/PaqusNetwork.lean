import PaqusNetwork.Network.Locator
import PaqusNetwork.Node.Mirrored
import PaqusNetwork.Network.Polling
import PaqusNetwork.Wallet.CoinFiles
import PaqusNetwork.Node.OutOfOrder
import PaqusNetwork.Node.Resubmitted
import PaqusNetwork.Storage.Restored
import PaqusNetwork.Node.Events
import PaqusNetwork.Network.Replies
import PaqusNetwork.Network.ParallelSync
import PaqusNetwork.Network.RateLimit
import PaqusNetwork.Rpc.EventDelivery
import PaqusNetwork.Rpc.AdminAuth
import PaqusNetwork.Wallet.PayoutOnce
import PaqusNetwork.Network.InboundServing
import PaqusNetwork.Network.Serving
import PaqusNetwork.Network.RequestMatching
import PaqusNetwork.Miner.OutsideLock
import PaqusNetwork.Miner.Maximal
import PaqusNetwork.Mempool.Capacity
import PaqusNetwork.Network.Missing
import PaqusNetwork.Node.Staged
import PaqusNetwork.Node.StoredBlocks
import PaqusNetwork.Wallet.Plans
import PaqusNetwork.Network.Relaying
import PaqusNetwork.Wallet.Loaders
import PaqusNetwork.Wallet.Responses
