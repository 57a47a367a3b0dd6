import StackScript.Main
import StackScript.Session.Files
import StackScript.Proofs.Soundness
import StackScript.Proofs.Convention
import StackScript.Proofs.Growing
import StackScript.Proofs.Settling
import StackScript.Proofs.Safety
import StackScript.Proofs.WellFormed
import StackScript.Proofs.BigStep
import StackScript.Proofs.Course
import StackScript.Proofs.Dropping
import StackScript.Proofs.Executing
import StackScript.Proofs.Rendering
import StackScript.Proofs.Running
import StackScript.Proofs.Limiting
import StackScript.Proofs.Staleness
import StackScript.Proofs.Reachability
import StackScript.Proofs.Finishing
import StackScript.Proofs.Persistence
import StackScript.Proofs.Completing
import StackScript.Proofs.Recalling
import StackScript.Proofs.Composing
import StackScript.Proofs.Nesting
import StackScript.Proofs.Simulating
import StackScript.Proofs.Launching
import StackScript.Proofs.Meaning
import StackScript.Proofs.Tiling
import StackScript.Proofs.Parsing
import StackScript.Proofs.Balancing
import StackScript.Proofs.Draining
import StackScript.Proofs.Wrapping
import StackScript.Proofs.Indexing
import StackScript.Proofs.Capturing
import StackScript.Proofs.Advancing
import StackScript.Proofs.Failing
import StackScript.Proofs.Keying
import StackScript.Proofs.Covering
import StackScript.Proofs.Unifying
import StackScript.Proofs.Decoding
import StackScript.Proofs.Slots
import StackScript.Proofs.Patching
import StackScript.Proofs.Addressing
import StackScript.Proofs.Collecting
import StackScript.Proofs.Echoing
import StackScript.Proofs.Contrasting
import StackScript.Proofs.Displaying
import StackScript.Proofs.Rereading
import StackScript.Proofs.Retelling
import StackScript.Proofs.Spanning
import StackScript.Proofs.Halting
import StackScript.Proofs.Interning
import StackScript.Proofs.Revisiting
import StackScript.Proofs.Requiring
