import Isthmus.APFile
import Isthmus.Acknowledged
import Isthmus.Announced
import Isthmus.Apdata
import Isthmus.Approto.Admission
import Isthmus.Approto.Commands
import Isthmus.Approto.Connection
import Isthmus.Approto.Departed
import Isthmus.Approto.Schema
import Isthmus.Approto.Server
import Isthmus.Approto.Transport
import Isthmus.Batches
import Isthmus.Checks
import Isthmus.ClientLog
import Isthmus.Collected
import Isthmus.ComesBack
import Isthmus.Convert
import Isthmus.CreateSavefile
import Isthmus.DataStorage
import Isthmus.Deliveries
import Isthmus.Dispatched
import Isthmus.Duplicates
import Isthmus.Go.Numerals
import Isthmus.Go.Slices
import Isthmus.Go.Strings
import Isthmus.Go.Values
import Isthmus.Inapplicable
import Isthmus.Interrupted
import Isthmus.Lib.Accesses
import Isthmus.Lib.Acknowledge
import Isthmus.Lib.Channels
import Isthmus.Lib.Connection
import Isthmus.Lib.Cuts
import Isthmus.Lib.Gates
import Isthmus.Lib.Guarantee
import Isthmus.Lib.Loops
import Isthmus.Lib.Numbering
import Isthmus.Lib.Pipes
import Isthmus.Lib.Process
import Isthmus.Lib.Replica
import Isthmus.Lib.Runs
import Isthmus.Lib.Table
import Isthmus.Lib.Talks
import Isthmus.Lib.Triples
import Isthmus.Logged
import Isthmus.Missing
import Isthmus.Mwproto.Client
import Isthmus.Mwproto.Discriminators
import Isthmus.Mwproto.Fields
import Isthmus.Mwproto.Lengths
import Isthmus.Mwproto.Names
import Isthmus.Mwproto.Receive
import Isthmus.Mwproto.RoundTrip
import Isthmus.Mwproto.Schema
import Isthmus.Mwproto.Stream
import Isthmus.Mwproto.Transport
import Isthmus.Packages
import Isthmus.Panics
import Isthmus.Pickle.Alike
import Isthmus.Pickle.Bindable
import Isthmus.Pickle.Copies
import Isthmus.Pickle.Decoded
import Isthmus.Pickle.Encodings
import Isthmus.Pickle.Faithful
import Isthmus.Pickle.Faults
import Isthmus.Pickle.Finished
import Isthmus.Pickle.Heaps
import Isthmus.Pickle.Instructions
import Isthmus.Pickle.Interference
import Isthmus.Pickle.Json
import Isthmus.Pickle.Machine
import Isthmus.Pickle.Origins
import Isthmus.Pickle.Sharing
import Isthmus.Pickle.Stored
import Isthmus.Pickle.Truncated
import Isthmus.Pickle.Turns
import Isthmus.Pickle.Unshared
import Isthmus.Play
import Isthmus.Program
import Isthmus.Progress
import Isthmus.Proxy
import Isthmus.Received
import Isthmus.Refinement
import Isthmus.Reopened
import Isthmus.Reported
import Isthmus.Run
import Isthmus.Savable
import Isthmus.Savefile
import Isthmus.Sends
import Isthmus.Session
import Isthmus.Setup
import Isthmus.SetupMW
import Isthmus.Shifts
import Isthmus.Sides
import Isthmus.Spoken
import Isthmus.Sqlite.Statements
import Isthmus.Steps
import Isthmus.Traces
import Isthmus.Unique
import Isthmus.Watched
import Isthmus.Writes
