import Parsec.Ertrie.Partial
import Parsec.Ns.Release
import Parsec.Slab.Delete
import Parsec.Slab.Queue
import Parsec.Nsptr.Retry
import Parsec.Pgalloc.Machine
import Parsec.PsList.Iter
import Parsec.Slab.Bounds
import Parsec.Slab.RoundRobin
import Parsec.Slab.Stats
import Parsec.Slab.RemoteStack
import Parsec.Smr.Progress
import Parsec.Parslab.Names
import Parsec.Ns.Locked
