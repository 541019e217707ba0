import ProofMarket.Registry.Binding
import ProofMarket.Registry.Windows
import ProofMarket.Registry.Serial
import ProofMarket.Registry.Replay
import ProofMarket.Coordinator.Queries
import ProofMarket.Coordinator.Restart
import ProofMarket.Coordinator.StartBlock
import ProofMarket.Coordinator.Disk
import ProofMarket.Coordinator.Durability
import ProofMarket.Worker.Replies
import ProofMarket.Worker.Lifecycle
import ProofMarket.Prover.Journal
import ProofMarket.Prover.Fibonacci
import ProofMarket.Gossip.Star
import ProofMarket.Gossip.Connections
import ProofMarket.Gossip.Coverage
import ProofMarket.Gossip.Hops
import ProofMarket.Gossip.Suppression
import ProofMarket.Gossip.Window
import ProofMarket.Gossip.Authenticity
import ProofMarket.Gossip.Ids
import ProofMarket.Gossip.Arrival
import ProofMarket.Gossip.Progress
import ProofMarket.Network.Waiting
import ProofMarket.Network.Payment
import ProofMarket.Network.Refinement
import ProofMarket.Network.Subscribers
import ProofMarket.Network.Proving
import ProofMarket.Network.Nonces
import ProofMarket.Network.Sale
import ProofMarket.Network.Marketplace
