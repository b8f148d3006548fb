import DataSpaces.Space.Termination
import DataSpaces.Cluster.Remove
import DataSpaces.Client.Transaction
import DataSpaces.Lock.Type3
import DataSpaces.Lock.Rounds
import DataSpaces.Lock.Named
import DataSpaces.Client.PutSync
import DataSpaces.Dart.Replies
import DataSpaces.Dart.Unregister
import DataSpaces.Cluster.Waiting
import DataSpaces.Dimes.Plans
import DataSpaces.Dimes.Locate
import DataSpaces.Shmem.Put
import DataSpaces.Shmem.Get
import DataSpaces.Shmem.Names
import DataSpaces.Client.Versions
import DataSpaces.Dimes.Restart
import DataSpaces.Dimes.StorageRestart
import DataSpaces.Dimes.Accounting
import DataSpaces.Lock.GrantFailure
import DataSpaces.Cluster.PutFailure
import DataSpaces.Cluster.ReplyBuffers
import DataSpaces.Cluster.FreshMemory
import DataSpaces.Space.Config
import DataSpaces.Cluster.TcpFraming
import DataSpaces.Dart.Credits
import DataSpaces.Dart.Barrier
import DataSpaces.Dart.SendQueue
import DataSpaces.Dart.ReadWindow
