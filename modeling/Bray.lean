import Bray.Admission.Limits
import Bray.Base.Graph
import Bray.Batch.Closure
import Bray.Channel.Order
import Bray.Collection.Deque
import Bray.Collection.HashMap
import Bray.Collection.OrderedMap
import Bray.Constant.Exact
import Bray.Container.Sound
import Bray.Execution.Fair
import Bray.Fact.Reuse
import Bray.Flow.Liveness
import Bray.Format.Integer
import Bray.Guarantee.Arrays
import Bray.Guarantee.Indexed
import Bray.Guarantee.Ranges
import Bray.Guarantee.Trusted
import Bray.Lexer.Comment
import Bray.Lexer.Policies
import Bray.Match.Reachable
import Bray.Mir.Sound
import Bray.Numeric.Karatsuba
import Bray.Overlap.Returns
import Bray.Overlap.Sound
import Bray.Partition.Units
import Bray.Pool.Exclusive
import Bray.Pool.Solvent
import Bray.Publication.History
import Bray.Scheduler.Fairness
import Bray.Scheduler.Structure
import Bray.Scheduler.Waiters
import Bray.Scheduler.Wakes
import Bray.Source.RoundTrip
import Bray.Sync.RwLock
import Bray.Text.Scalars
import Bray.Time.Core
