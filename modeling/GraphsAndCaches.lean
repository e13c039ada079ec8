import GraphsAndCaches.Eviction.CachePlan
import GraphsAndCaches.Eviction.Recording
import GraphsAndCaches.Graph.Workspace
import GraphsAndCaches.Proofs.Eviction.Agreement
import GraphsAndCaches.Proofs.Eviction.ArrivalOrder
import GraphsAndCaches.Proofs.Eviction.BareStore
import GraphsAndCaches.Proofs.Eviction.Conservation
import GraphsAndCaches.Proofs.Eviction.Contract
import GraphsAndCaches.Proofs.Eviction.Footprint
import GraphsAndCaches.Proofs.Eviction.Inclusion
import GraphsAndCaches.Proofs.Eviction.Interplay
import GraphsAndCaches.Proofs.Eviction.Replay
import GraphsAndCaches.Proofs.Eviction.Retention
import GraphsAndCaches.Proofs.Eviction.UseOrder
import GraphsAndCaches.Proofs.Graph.Construction
import GraphsAndCaches.Proofs.Graph.Cyclicity
import GraphsAndCaches.Proofs.Graph.Extension
import GraphsAndCaches.Proofs.Graph.Invariant
import GraphsAndCaches.Proofs.Graph.Journal
import GraphsAndCaches.Proofs.Graph.Leftover
import GraphsAndCaches.Proofs.Graph.Redundancy
import GraphsAndCaches.Proofs.Graph.Relabelling
import GraphsAndCaches.Proofs.Resource.Ledger
import GraphsAndCaches.Proofs.Resource.Refinement
import GraphsAndCaches.Proofs.Resource.Reporting
import GraphsAndCaches.Proofs.Resource.Verdicts
import GraphsAndCaches.Proofs.Slots.Allocation
import GraphsAndCaches.Proofs.Slots.Sequence
