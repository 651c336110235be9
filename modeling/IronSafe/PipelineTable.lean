import IronSafe.HostTable
import IronSafe.PipelineAnswer

/-! The rows of the query in the B-tree of the host. The batches that the host has taken from its
ring are those that `consumerFunc` inserts, and with every insertion done the records lie in the
table under the rowids from one on. -/
namespace IronSafe.Pipeline
open Packet Record
open HostInsert hiding Mem Record

variable {cfg : Config} {q : Query} {s : State}

/-- The batches that the host has taken from its ring. -/
def State.taken (s : State) : List RecordBatch := s.pc.log.take s.pc.taken

end IronSafe.Pipeline
