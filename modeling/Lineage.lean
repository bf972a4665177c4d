import Lineage.Description
import Lineage.FileTree
import Lineage.Main
import Lineage.Proofs.Index
import Lineage.Proofs.Coherence
import Lineage.Proofs.Overlay
import Lineage.Proofs.Growth
import Lineage.Proofs.Writes
import Lineage.Proofs.Distances
import Lineage.Proofs.Searching
import Lineage.Proofs.Histories
import Lineage.Proofs.Expanding
import Lineage.Proofs.Ensuring
import Lineage.Proofs.Linking
import Lineage.Proofs.Folding
import Lineage.Proofs.Recording
import Lineage.Proofs.LastWriter
import Lineage.Proofs.Runs
import Lineage.Proofs.Replay
import Lineage.Proofs.SubProcesses
import Lineage.Proofs.Identity
import Lineage.Proofs.Roles
import Lineage.Proofs.Content
import Lineage.Proofs.Completeness
import Lineage.Proofs.OrderIndependence
import Lineage.Proofs.Loading
import Lineage.Proofs.Stored
import Lineage.Proofs.JsonText
import Lineage.Proofs.Reloading
import Lineage.Proofs.Canonical
import Lineage.Proofs.Calls
import Lineage.Proofs.FileTrees
import Lineage.Proofs.Saving
import Lineage.Proofs.Restarts
import Lineage.Proofs.Tasks
import Lineage.Proofs.Presence
import Lineage.Proofs.Coverage
import Lineage.Proofs.Accepted
import Lineage.Proofs.Effects
import Lineage.Proofs.Outcomes
import Lineage.Proofs.Reaching
import Lineage.Proofs.Closures
import Lineage.Proofs.Showing
import Lineage.Proofs.Directions
import Lineage.Proofs.Synonyms
import Lineage.Proofs.Conformance
import Lineage.Proofs.Hiding
import Lineage.Proofs.Glossary
import Lineage.Proofs.Scopes
import Lineage.Proofs.Drawing
import Lineage.Proofs.Filing
import Lineage.Proofs.EndToEnd
import Lineage.Proofs.Distinct
import Lineage.Proofs.Renumbering
import Lineage.Proofs.Mirroring
import Lineage.Proofs.Finishing
import Lineage.Proofs.Cycles
import Lineage.Proofs.Failures
import Lineage.Proofs.GlossaryAnswers
import Lineage.Proofs.SingleTerminals
import Lineage.Proofs.Containers
import Lineage.Proofs.Accounting
import Lineage.Proofs.ChainEvents
import Lineage.Proofs.Lines
import Lineage.Proofs.ChainGraph
import Lineage.Proofs.ChainAnswers
import Lineage.Proofs.ShortestWalks
import Lineage.Proofs.Structure
import Lineage.Proofs.Reserved
import Lineage.Proofs.StoreNames
import Lineage.Proofs.CallOrder
import Lineage.Proofs.WireValues
import Lineage.Proofs.Spellings
import Lineage.Proofs.Quoting
import Lineage.Proofs.TomlText
import Lineage.Proofs.SavedSettings
