import Hayakv.Aof.Torn
import Hayakv.Cluster.Election
import Hayakv.Cluster.Failure
import Hayakv.Cluster.KeySlot
import Hayakv.Cluster.Slots
import Hayakv.Cmd.Algebra
import Hayakv.Cmd.Cursor
import Hayakv.Cmd.Deadlines
import Hayakv.Cmd.Ranges
import Hayakv.Conn.AclRules
import Hayakv.Conn.Pool
import Hayakv.Conn.Tracking
import Hayakv.Core.Migration
import Hayakv.Dict.ConcurrentScan
import Hayakv.Dict.Locks
import Hayakv.Frame.Replica
import Hayakv.Hll.Sketch
import Hayakv.Keyspace.Evict
import Hayakv.Keyspace.Expiry
import Hayakv.Keyspace.Flush
import Hayakv.Net.Arguments
import Hayakv.Net.Output
import Hayakv.Net.Replies
import Hayakv.Net.Wakeups
import Hayakv.Object.Hash
import Hayakv.Object.Integers
import Hayakv.Object.ObjectList
import Hayakv.Raft.Snapshot
import Hayakv.Rdb.Dump
import Hayakv.Rdb.RoundTrip
import Hayakv.Repl.Psync
import Hayakv.Repl.Select
import Hayakv.Streams.Writing
import Hayakv.Txn.Watch
