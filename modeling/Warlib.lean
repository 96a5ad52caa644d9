import Warlib.Machine.Lts
import Warlib.Machine.Threads
import Warlib.Pipeline.Sequential
import Warlib.Pipeline.Shutdown
import Warlib.Pipeline.Closing
import Warlib.Machine.Sequencer
import Warlib.Pipeline.Order
import Warlib.Pipeline.Isolation
import Warlib.Pipeline.Synchronous
import Warlib.Pipeline.Promises
import Warlib.Logging.Filtering
import Warlib.Logging.Relevance
import Warlib.Logging.Exactness
import Warlib.Pipeline.Lifecycle
import Warlib.Pipeline.Rejection
import Warlib.CleanUp
import Warlib.Logging.Format
import Warlib.Logging.Timestamp
import Warlib.Logging.Records
import Warlib.Logging.Concurrent
import Warlib.Logging.Moves
import Warlib.Logging.Locking
import Warlib.Logging.Coherence
import Warlib.Logging.Order
import Warlib.Logging.Deliveries
import Warlib.Machine.Product
import Warlib.Machine.Rotation
import Warlib.Pipeline.Lifetime
import Warlib.Pipeline.Waiting
import Warlib.Threadpool.Joining
import Warlib.Threadpool.RoundRobin
import Warlib.Logging.Message
import Warlib.Machine.Compensation
import Warlib.Rollback
import Warlib.Machine.CpuSet
import Warlib.Threadpool.Construction
import Warlib.Threadpool.Unwinding
import Warlib.Threadpool.Pinning
import Warlib.Threadpool.Sizing
import Warlib.Pipeline.Inline
import Warlib.Pipeline.Tokens
import Warlib.Pipeline.Faults
import Warlib.Logging.Formatting
import Warlib.Logging.LevelNames
import Warlib.Logging.Times
import Warlib.Pipeline.Statistics
import Warlib.AssertOrThrow
import Warlib.Pipeline.Fates
import Warlib.Pipeline.Account
import Warlib.Pipeline.LocalPromise
import Warlib.Pipeline.Termination
import Warlib.Pipeline.Release
import Warlib.Pipeline.Aftermath
import Warlib.Threadpool.Closing
import Warlib.Threadpool.Deadlock
import Warlib.Threadpool.Release
import Warlib.Logging.Holding
import Warlib.Logging.Arrivals
import Warlib.Logging.Reading
import Warlib.Machine.Brackets
import Warlib.Logging.FunctionCalls
import Warlib.Logging.Timer
