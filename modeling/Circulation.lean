import Circulation.Assignment.Relaxation
import Circulation.Assignment.Statistics
import Circulation.Demo.Regions
import Circulation.Demo.Shipping
import Circulation.Network.Address
import Circulation.Number
import Circulation.Proofs.Optimality
import Circulation.Proofs.Termination
import Circulation.Proofs.Certificate
import Circulation.Proofs.Requests
import Circulation.Proofs.Connecting
import Circulation.Proofs.Assignment.Layout
import Circulation.Proofs.Assignment.Routing
import Circulation.Proofs.Assignment.Reading
import Circulation.Proofs.Range
import Circulation.Proofs.Resuming
import Circulation.Proofs.Rerooting
import Circulation.Proofs.Renumbering
import Circulation.Proofs.Assignment.Saturation
import Circulation.Proofs.Assignment.Plans
import Circulation.Proofs.Effect
import Circulation.Proofs.Descent
import Circulation.Proofs.Proportion
import Circulation.Proofs.NetworkFile
import Circulation.Proofs.Moving
import Circulation.Proofs.Spanning
import Circulation.Proofs.SimplePath
import Circulation.Proofs.Greedy
import Circulation.Proofs.Choosing
import Circulation.Proofs.Verdicts
import Circulation.Proofs.Overwriting
import Circulation.Proofs.Switching
import Circulation.Proofs.Assignment.Splitting
import Circulation.Proofs.Assignment.Offsets
import Circulation.Proofs.Circuitless
import Circulation.Proofs.Remembering
import Circulation.Proofs.Assignment.Normalizing
import Circulation.Proofs.Assignment.Relaxing
import Circulation.Proofs.Merging
import Circulation.Proofs.Refusing
import Circulation.Proofs.Assignment.Sites
import Circulation.Proofs.Assignment.Ranking
import Circulation.Proofs.Bookkeeping
