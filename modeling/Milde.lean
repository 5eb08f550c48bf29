import Milde.EventSourcing.Rejection
import Milde.EventSourcing.Recording
import Milde.EventStore.Replay
import Milde.EventStore.SharedObject
import Milde.EventStore.PublishOrder
import Milde.EventStore.PagedRead
import Milde.EventStore.BatchPublish
import Milde.EventStore.EventConverter
import Milde.EventStore.EventHandlers
import Milde.AggregateCache.CrashRecovery
import Milde.AggregateCache.ConcurrentSaves
import Milde.Remoting.Calls
import Milde.Remoting.Validation
import Milde.Remoting.NoneLost
import Milde.Remoting.RoundTrip
import Milde.Remoting.Startup
import Milde.Remoting.NestedCalls
import Milde.Remoting.Outstanding
import Milde.Remoting.Namesakes
import Milde.Remoting.Completable
import Milde.AggregateCache.Durability
import Milde.EventStore.StaleObjects
import Milde.EventStore.RecordedStore
import Milde.EventStore.Announced
import Milde.UserManagement.SampleClient
import Milde.Remoting.Transparency
import Milde.UserManagement.RemoteDirectory
import Milde.AggregateCache.Restarts
