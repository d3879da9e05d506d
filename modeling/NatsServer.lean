import NatsServer.Delimited
import NatsServer.Runs
import NatsServer.Buckets
import NatsServer.Cyclic
import NatsServer.Checked
import NatsServer.Str
import NatsServer.Binary64
import NatsServer.JsonText
import NatsServer.Subjects
import NatsServer.Proto
import NatsServer.Segments
import NatsServer.Events
import NatsServer.Safety
import NatsServer.Registry
import NatsServer.Outbox
import NatsServer.Writer
import NatsServer.Frames
import NatsServer.Server
import NatsServer.Route
import NatsServer.Tasks
import NatsServer.Coherence
import NatsServer.Agreement
import NatsServer.Teardown
import NatsServer.AutoUnsub
import NatsServer.Ordering
import NatsServer.Sequential
import NatsServer.FanOut
import NatsServer.Info
import NatsServer.Decode
import NatsServer.Causes
import NatsServer.Integrity
import NatsServer.Encode
import NatsServer.Table
import NatsServer.Reader
import NatsServer.Silence
import NatsServer.Drain
import NatsServer.Sampling
import NatsServer.Groups
import NatsServer.Status
import NatsServer.Publish
import NatsServer.Asserts
import NatsServer.Sizes
import NatsServer.ConfigFile
import NatsServer.ConfigValues
import NatsServer.Durations
import NatsServer.Connect
import NatsServer.Stale
import NatsServer.Replies
import NatsServer.Atomic
import NatsServer.Accounting
import NatsServer.Stall
import NatsServer.PubSub
import NatsServer.Turns
import NatsServer.Broker
import NatsServer.Serving
import NatsServer.Parking
import NatsServer.Progress
import NatsServer.Mixing
import NatsServer.Random
import NatsServer.Bump
import NatsServer.Arena
import NatsServer.Admission
import NatsServer.Flags
import NatsServer.JsonPrefix
import NatsServer.PortsFile
import NatsServer.LockOrder
import NatsServer.Locks
import NatsServer.Views
import NatsServer.Batches
