import EvolvingGraph.Session.Player
import EvolvingGraph.Proofs.Marking.Renaming
import EvolvingGraph.Proofs.Marking.StaleMarks
import EvolvingGraph.Proofs.Session.Arrival
import EvolvingGraph.Proofs.Session.Courses
import EvolvingGraph.Proofs.Session.Lockstep
import EvolvingGraph.Proofs.Generation.Interleaving
import EvolvingGraph.Proofs.Delivery.Refusal
import EvolvingGraph.Proofs.Import.Networks
import EvolvingGraph.Proofs.Import.Matrices
import EvolvingGraph.Proofs.Import.Tables
import EvolvingGraph.Proofs.Generation.Relaying
import EvolvingGraph.Proofs.Graph.LastWrites
import EvolvingGraph.Proofs.Delivery.Chronicle
import EvolvingGraph.Proofs.Session.Configurations
import EvolvingGraph.Proofs.Marking.Confinement
import EvolvingGraph.Proofs.Session.Removal
import EvolvingGraph.Proofs.Marking.WeightOrder
import EvolvingGraph.Proofs.Marking.BadWeights
import EvolvingGraph.Proofs.Marking.Trace
import EvolvingGraph.Proofs.Import.Names
import EvolvingGraph.Proofs.Table.Identity
import EvolvingGraph.Proofs.Binary64.Doubling
import EvolvingGraph.Proofs.Matrix.Drawing
import EvolvingGraph.Proofs.Matrix.Weights
import EvolvingGraph.Proofs.Marking.ReadingBack
import EvolvingGraph.Proofs.Session.Iterating
import EvolvingGraph.Proofs.Session.Broadcasts
import EvolvingGraph.Proofs.Graph.Search
import EvolvingGraph.Proofs.Marking.Connectedness
import EvolvingGraph.Proofs.Marking.Clearing
