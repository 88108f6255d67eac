import Radixox.Oxidart.Reference
import Radixox.Oxidart.EmptyKey
import Radixox.Oxidart.Containers
import Radixox.Oxidart.TypedReference
import Radixox.Server.Delivery
import Radixox.Server.Modes
import Radixox.Server.Flushes
import Radixox.Server.Atomicity
import Radixox.Server.Unlink
import Radixox.Server.Lifetimes
import Radixox.Oxidart.Capacity
import Radixox.Oxidart.Cuts
import Radixox.Oxidart.Walks
import Radixox.Oxidart.Enumerations
import Radixox.Oxidart.Parity
import Radixox.Server.Keys
import Radixox.Server.Wire
import Radixox.Server.Tokeniser
import Radixox.Server.ArenaRuns
import Radixox.Server.Replies
import Radixox.Server.Globs
import Radixox.Oxidart.Deadlines
import Radixox.Oxidart.Frames
import Radixox.Oxidart.Lapses
import Radixox.Server.Countdown
import Radixox.Oxidart.Counters
import Radixox.Server.Collections
import Radixox.Oxidart.Ranges
import Radixox.Oxidart.Histories
import Radixox.Server.Requests
import Radixox.Server.Overflows
import Radixox.Oxidart.Flushed
import Radixox.Server.Dispatch
import Radixox.Server.Confirmations
import Radixox.Server.EncodeLen
import Radixox.Oxidart.Children
import Radixox.Oxidart.Tenancy
import Radixox.Oxidart.Ensured
import Radixox.Oxidart.Marks
import Radixox.Server.Numerals
import Radixox.Oxidart.CompactStr
import Radixox.Server.Storages
import Radixox.Server.Iterators
import Radixox.Server.Handles
import Radixox.Oxidart.Owners
import Radixox.Server.MapServer
import Radixox.Server.RawServer
import Radixox.Oxidart.TimedReference
import Radixox.Oxidart.Images
import Radixox.Oxidart.RawCommands
import Radixox.Oxidart.Backing
import Radixox.Oxidart.RawRefinement
import Radixox.Oxidart.BackLinks
import Radixox.Lib.Bus
import Radixox.Server.Generations
import Radixox.Server.Mailboxes
import Radixox.Server.SessionMail
