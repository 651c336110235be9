import IronSafe.PacketCodec
import IronSafe.RecordMake
import IronSafe.Ring

/-! The threads that move the rows of an offloaded query to the host. On the storage server
the query thread pushes rows into the `mk_rec` ring, `mk_rec_thread` encodes them into the `pcs`
ring and `consumer_func` packs them into packets; on the host `producer_func` fills the `pc`
ring and `consumer_func` inserts the records. Each step of a thread makes at most one load,
store or fetch-and-add of a variable that another thread writes. A thread that finds a loop
condition unchanged stays where it is. -/
namespace IronSafe.Pipeline
open Bytes Packet Record

/-- `MK_REC_POOL_SIZE` and `REC_POOL_SIZE` are `2^20`, `BUF_POOL_SIZE` is `2^3`. -/
def mkRecPool : ℕ := 20

def recPool : ℕ := 20

def bufPool : ℕ := 3

/-- The subquery: the columns of its rows, the rows that it yields until it ends, and whether
it ends with an error. -/
structure Query where
  nCol : ℕ
  rows : List (List Mem)
  width : ∀ row ∈ rows, row.length = nCol
  failed : Bool

/-- What the allocations of the encoder yield. -/
structure Alloc where
  garbage : Garbage
  szMalloc : ℕ
  after : UInt8

instance : Inhabited Alloc := ⟨fun n => ⟨List.replicate n 0, List.length_replicate⟩, 0, 0⟩

/-- The encoding, and the packet of `consumer_func` before it is written first. -/
structure Config where
  fileFormat : ℕ
  toDouble : BitVec 64 → BitVec 64
  recPkt : RecordBatch
  sound : recPkt.Sound

def Config.record (cfg : Config) (a : Alloc) (nField : ℕ) (row : List Mem) : SsdRecord :=
  ⟨(makeSsdRecord cfg.fileFormat cfg.toDouble nField row a.garbage).written.buf, a.szMalloc,
    a.after⟩

inductive QueryPc
  | step | wait (row : List Mem) | store (row : List Mem) | publish (row : List Mem) | returned
  | finish | exited

structure QueryThread where
  pc : QueryPc
  todo : List (List Mem)
  callbackIsInit : Bool
  sqlError : Bool

/-- A row that has been encoded, with the number of fields and the record. -/
structure Made where
  row : List Mem
  nField : ℕ
  record : SsdRecord

inductive MakerPc
  | poll | pollDone | check | checkEmpty | take | read
  | advance (aMem : List Mem) | count (aMem : List Mem)
  | space (r : SsdRecord) | storeRecord (r : SsdRecord) | storeSize (r : SsdRecord)
  | publish (r : SsdRecord)
  | finish | exited

/-- `made` is the history of the rows that were encoded. -/
structure MakerThread where
  pc : MakerPc
  made : List Made

/-- A slot of the `pcs` ring. -/
structure PoolSlot where
  record : List UInt8
  size : ℕ

/-- The four tests at the head of the outer and of the inner loop are the same; `inner` tells
the loops apart. -/
inductive ConsumerPc
  | poll (inner : Bool) | pollDone (inner : Bool) | check (inner : Bool) | checkEmpty (inner : Bool)
  | take (inner : Bool) | size (inner : Bool) | copy (inner : Bool) (len : ℕ) | advance
  | send | finish | write (batchPkt : List UInt8) (nbuffer : ℕ) (last : Bool) | exited | crashed

/-- A packet that was sent and the frames in it. -/
structure Sent where
  batch : RecordBatch
  frames : List (List UInt8)

/-- `frames` and `packets` are the history of the current packet and of the packets before. -/
structure ConsumerThread where
  pc : ConsumerPc
  batching : Batching
  frames : List (List UInt8)
  packets : List Sent

inductive HostProducerPc
  | recv | space (b : RecordBatch) | store (b : RecordBatch) | publish (b : RecordBatch) | exited

structure HostProducer where
  pc : HostProducerPc
  tcpData : List UInt8

inductive HostConsumerPc
  | poll | read | advance (b : RecordBatch) | insert (records : List HostMem) | exited | crashed

structure HostConsumer where
  pc : HostConsumerPc
  table : List HostMem

/-- Both machines. `sent` is the history of the byte channel `wire`; `answer` is the table on
which the host ran the outer query. -/
structure State where
  query : QueryThread
  numRecFields : ℕ
  mkRec : Ring (List Mem)
  mkDone : Bool
  maker : MakerThread
  pcs : Ring PoolSlot
  pcsDone : Bool
  consumer : ConsumerThread
  sent : List UInt8
  wire : List UInt8
  hostProducer : HostProducer
  pc : Ring RecordBatch
  hostConsumer : HostConsumer
  answer : Option (List HostMem)

/-- The state in which the threads are started. The schema query, which has one column, has
set the number of fields. -/
def initial (cfg : Config) (q : Query) : State where
  query := ⟨.step, q.rows, false, false⟩
  numRecFields := 1
  mkRec := .create fun _ => []
  mkDone := false
  maker := ⟨.poll, []⟩
  pcs := .create fun _ => ⟨[],0⟩
  pcsDone := false
  consumer := ⟨.poll false, ⟨cfg.recPkt,0⟩, [], []⟩
  sent := []
  wire := []
  hostProducer := ⟨.recv, []⟩
  pc := .create fun _ => cfg.recPkt
  hostConsumer := ⟨.poll, []⟩
  answer := none

/-- The query thread: `sqlite3_step` yields a row, which `OP_ResultRow` pushes; the field count
is set when the step has returned. An error of the query is only printed. -/
def queryStep (q : Query) (s : State) : State :=
  match s.query.pc with
  | .step =>
    match s.query.todo with
    | [] => { s with query := { s.query with pc := .finish, sqlError := q.failed } }
    | row :: todo => { s with query := { s.query with pc := .wait row, todo := todo } }
  | .wait row =>
    if s.mkRec.isFull mkRecPool then s else { s with query := { s.query with pc := .store row } }
  | .store row =>
    { s with mkRec := s.mkRec.store mkRecPool row, query := { s.query with pc := .publish row } }
  | .publish _ =>
    { s with mkRec := s.mkRec.publish mkRecPool, query := { s.query with pc := .returned } }
  | .returned =>
    { s with numRecFields := if s.query.callbackIsInit then s.numRecFields else q.nCol,
             query := { s.query with pc := .step, callbackIsInit := true } }
  | .finish => { s with mkDone := true, query := { s.query with pc := .exited } }
  | .exited => s

/-- `mk_rec_thread`; from `take` to `publish` it is in `make_ssd_record`. -/
def makerStep (cfg : Config) (a : Alloc) (s : State) : State :=
  match s.maker.pc with
  | .poll =>
    { s with maker := { s.maker with pc := if s.mkRec.isEmpty then .pollDone else .check } }
  | .pollDone => { s with maker := { s.maker with pc := if s.mkDone then .check else .poll } }
  | .check => { s with maker := { s.maker with pc := if s.mkDone then .checkEmpty else .take } }
  | .checkEmpty =>
    { s with maker := { s.maker with pc := if s.mkRec.isEmpty then .finish else .take } }
  | .take => if s.mkRec.isEmpty then s else { s with maker := { s.maker with pc := .read } }
  | .read => { s with maker := { s.maker with pc := .advance (s.mkRec.front mkRecPool) } }
  | .advance aMem =>
    { s with mkRec := s.mkRec.consume, maker := { s.maker with pc := .count aMem } }
  | .count aMem =>
    let r := cfg.record a s.numRecFields aMem
    { s with maker := ⟨.space r, s.maker.made ++ [⟨aMem, s.numRecFields, r⟩]⟩ }
  | .space r =>
    if s.pcs.isFull recPool then s else { s with maker := { s.maker with pc := .storeRecord r } }
  | .storeRecord r =>
    { s with pcs := s.pcs.store recPool { s.pcs.back recPool with record := serialize r },
             maker := { s.maker with pc := .storeSize r } }
  | .storeSize r =>
    { s with pcs := s.pcs.store recPool { s.pcs.back recPool with size := (serialize r).length },
             maker := { s.maker with pc := .publish r } }
  | .publish _ => { s with pcs := s.pcs.publish recPool, maker := { s.maker with pc := .poll } }
  | .finish => { s with pcsDone := true, maker := { s.maker with pc := .exited } }
  | .exited => s

/-- The packet that a frame is copied into: the current one, or in the outer loop a new one
over the bytes of the last. -/
def ConsumerThread.target (t : ConsumerThread) (inner : Bool) : Batching :=
  if inner then t.batching else ⟨{ t.batching.batch with pktType := .recPkt, numRecords := 0 }, 0⟩

/-- `consumer_func`; `len` is how much `SSL_write` accepts. A frame longer than the payload is
copied past its end. -/
def consumerStep (len : ℕ) (s : State) : State :=
  match s.consumer.pc with
  | .poll inner =>
    { s with consumer := { s.consumer with
        pc := if s.pcs.isEmpty then .pollDone inner else .check inner } }
  | .pollDone inner =>
    { s with consumer := { s.consumer with pc := if s.pcsDone then .check inner else .poll inner } }
  | .check inner =>
    { s with consumer := { s.consumer with
        pc := if s.pcsDone then .checkEmpty inner else .take inner } }
  | .checkEmpty inner =>
    { s with consumer := { s.consumer with
        pc := if s.pcs.isEmpty then (if inner then .send else .finish) else .take inner } }
  | .take inner =>
    if s.pcs.isEmpty then s else { s with consumer := { s.consumer with pc := .size inner } }
  | .size inner =>
    let size := (s.pcs.front recPool).size
    if inner ∧ payloadSize < s.consumer.batching.sbytes + size then
      { s with consumer := { s.consumer with pc := .send } }
    else { s with consumer := { s.consumer with pc := .copy inner size } }
  | .copy inner size =>
    let frame := (s.pcs.front recPool).record.take size
    if payloadSize < (s.consumer.target inner).sbytes + size then
      { s with consumer := { s.consumer with pc := .crashed } }
    else
      { s with consumer := { s.consumer with
          pc := .advance, batching := (s.consumer.target inner).push frame
          frames := s.consumer.frames ++ [frame] } }
  | .advance => { s with pcs := s.pcs.consume, consumer := { s.consumer with pc := .poll true } }
  | .send =>
    let b := s.consumer.batching.batch
    { s with consumer := { s.consumer with
        pc := .write (serializeBeforeSend b) 0 false, frames := []
        packets := s.consumer.packets ++ [⟨b, s.consumer.frames⟩] } }
  | .finish =>
    let b := { s.consumer.batching.batch with pktType := .endPkt }
    { s with consumer := { s.consumer with
        pc := .write (serializeBeforeSend b) 0 true
        batching := { s.consumer.batching with batch := b }
        packets := s.consumer.packets ++ [⟨b,[]⟩] } }
  | .write batchPkt nbuffer last =>
    let chunk := slice nbuffer (min (len+1) (recvBufSize - nbuffer)) batchPkt
    let nbuffer := nbuffer + min (len+1) (recvBufSize - nbuffer)
    { s with sent := s.sent ++ chunk, wire := s.wire ++ chunk
             consumer := { s.consumer with
               pc := if nbuffer < recvBufSize then .write batchPkt nbuffer last
                 else if last then .exited else .poll false } }
  | .exited => s
  | .crashed => s

/-- `producer_func` of the host; `len` is how much `SSL_read` yields of what has arrived. -/
def hostProducerStep (len : ℕ) (s : State) : State :=
  match s.hostProducer.pc with
  | .recv =>
    let len := min (min (len+1) (recvBufSize - s.hostProducer.tcpData.length)) s.wire.length
    let tcpData := s.hostProducer.tcpData ++ s.wire.take len
    { s with wire := s.wire.drop len
             hostProducer := if tcpData.length < recvBufSize then ⟨.recv, tcpData⟩
               else ⟨.space (parseBatch tcpData), []⟩ }
  | .space b =>
    if s.pc.isFull bufPool then s
    else { s with hostProducer := { s.hostProducer with pc := .store b } }
  | .store b =>
    { s with pc := s.pc.store bufPool b, hostProducer := { s.hostProducer with pc := .publish b } }
  | .publish b =>
    { s with
        pc := s.pc.publish bufPool
        hostProducer := { s.hostProducer with
          pc := if b.pktType = .endPkt then .exited else .recv } }
  | .exited => s

/-- `consumer_func` of the host, which inserts the records of a batch one by one. -/
def hostConsumerStep (s : State) : State :=
  match s.hostConsumer.pc with
  | .poll =>
    if s.pc.isEmpty then s else { s with hostConsumer := { s.hostConsumer with pc := .read } }
  | .read => { s with hostConsumer := { s.hostConsumer with pc := .advance (s.pc.front bufPool) } }
  | .advance b =>
    { s with pc := s.pc.consume
             hostConsumer := { s.hostConsumer with
               pc := if b.pktType = .endPkt then .exited
                 else match batchDeserializeAdd b with
                  | none => .crashed
                  | some records => .insert records } }
  | .insert [] => { s with hostConsumer := { s.hostConsumer with pc := .poll } }
  | .insert (m :: records) =>
    { s with hostConsumer := ⟨.insert records, s.hostConsumer.table ++ [m]⟩ }
  | .exited => s
  | .crashed => s

/-- `main` of the host joins its two threads and runs the outer query. -/
def hostMainStep (s : State) : State :=
  match s.hostProducer.pc, s.hostConsumer.pc with
  | .exited, .exited => { s with answer := some s.hostConsumer.table }
  | _, _ => s

/-- Which thread makes the next step, with what the step finds outside the program. -/
inductive Action
  | query | maker (a : Alloc) | consumer (len : ℕ) | hostProducer (len : ℕ) | hostConsumer
  | hostMain

def step (cfg : Config) (q : Query) (s : State) : Action → State
  | .query => queryStep q s
  | .maker a => makerStep cfg a s
  | .consumer len => consumerStep len s
  | .hostProducer len => hostProducerStep len s
  | .hostConsumer => hostConsumerStep s
  | .hostMain => hostMainStep s

/-- The state after an interleaving of the threads. -/
def run (cfg : Config) (q : Query) (schedule : List Action) : State :=
  schedule.foldl (step cfg q) (initial cfg q)

/-- What the first state has and every step keeps holds after every interleaving. -/
lemma run_induction {cfg : Config} {q : Query} {P : State → Prop} (h0 : P (initial cfg q))
    (hstep : ∀ s action, P s → P (step cfg q s action)) (schedule : List Action) :
    P (run cfg q schedule) := by
  have hsteps : ∀ s, P s → P (schedule.foldl (step cfg q) s) := by
    induction schedule with
    | nil => exact fun _ h => h
    | cons action schedule ih => exact fun s h => ih _ (hstep s action h)
  exact hsteps _ h0

/-! A thread leaves the stages before its own as they are. -/

structure SameQuery (s s' : State) : Prop where
  query : s'.query = s.query
  numRecFields : s'.numRecFields = s.numRecFields

structure SameMaker (s s' : State) : Prop extends SameQuery s s' where
  mkRec : s'.mkRec = s.mkRec
  mkDone : s'.mkDone = s.mkDone
  maker : s'.maker = s.maker

structure SameConsumer (s s' : State) : Prop extends SameMaker s s' where
  pcs : s'.pcs = s.pcs
  pcsDone : s'.pcsDone = s.pcsDone
  consumer : s'.consumer = s.consumer

structure SameChannel (s s' : State) : Prop extends SameConsumer s s' where
  wire : s'.wire = s.wire
  hostProducer : s'.hostProducer = s.hostProducer

structure SameTable (s s' : State) : Prop extends SameChannel s s' where
  pc : s'.pc = s.pc
  hostConsumer : s'.hostConsumer = s.hostConsumer

lemma makerStep_same (cfg : Config) (a : Alloc) (s : State) : SameQuery s (makerStep cfg a s) := by
  unfold makerStep
  split <;> (try split_ifs) <;> exact ⟨rfl, rfl⟩

lemma consumerStep_same (len : ℕ) (s : State) : SameMaker s (consumerStep len s) := by
  unfold consumerStep
  split <;> (try dsimp only) <;> (try split_ifs) <;> exact ⟨⟨rfl, rfl⟩, rfl, rfl, rfl⟩

lemma hostProducerStep_same (len : ℕ) (s : State) : SameConsumer s (hostProducerStep len s) := by
  unfold hostProducerStep
  split <;> (try dsimp only) <;> (try split_ifs) <;>
    exact ⟨⟨⟨rfl, rfl⟩, rfl, rfl, rfl⟩, rfl, rfl, rfl⟩

lemma hostConsumerStep_same (s : State) : SameChannel s (hostConsumerStep s) := by
  unfold hostConsumerStep
  split <;> (try split_ifs) <;> exact ⟨⟨⟨⟨rfl, rfl⟩, rfl, rfl, rfl⟩, rfl, rfl, rfl⟩, rfl, rfl⟩

lemma hostMainStep_same (s : State) : SameTable s (hostMainStep s) := by
  unfold hostMainStep
  split <;> exact ⟨⟨⟨⟨⟨rfl, rfl⟩, rfl, rfl, rfl⟩, rfl, rfl, rfl⟩, rfl, rfl⟩, rfl, rfl⟩

end IronSafe.Pipeline
