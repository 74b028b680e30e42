import Morphflow.Cluster.DeadEnds
import Morphflow.Cluster.OneStage
import Morphflow.Cluster.Provenance
import Morphflow.Cluster.Refinement
import Morphflow.Cluster.Traces
import Morphflow.Delivery.Progress
import Morphflow.Delivery.Recovery
import Morphflow.Outbox.Order
import Morphflow.Pipeline.Acknowledgement
import Morphflow.Pipeline.CompletionLog
import Morphflow.Pipeline.Counters
import Morphflow.Pipeline.DurableHandover
import Morphflow.Pipeline.Traceability
import Morphflow.Processing.Answers
import Morphflow.Requests.Duplicates
import Morphflow.Requests.Retry
import Morphflow.Requests.Validity
import Morphflow.Runner.Backoff
import Morphflow.Runner.OffsetSafety
import Morphflow.Runner.RetryChain
