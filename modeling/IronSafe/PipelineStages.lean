import IronSafe.Pipeline

/-! What holds between a thread and the rings at its two ends, phase by phase. Together these
say how the rows of the query are spread over the stages at any moment. -/
namespace IronSafe.Pipeline
open Bytes Packet Record

/-- The content of a published slot. -/
def slotOf (frame : List UInt8) : PoolSlot := ⟨frame, frame.length⟩

/-- The record that the host makes of a frame. -/
def hostMem (frame : List UInt8) : Option HostMem := (deserialize frame).map Prod.fst

def QueryPc.inHand : QueryPc → List (List Mem)
  | .wait row | .store row | .publish row => [row]
  | _ => []

def QueryPc.isExited : QueryPc → Bool
  | .exited => true
  | _ => false

def QueryAt (mkRec : Ring (List Mem)) (todo : List (List Mem)) : QueryPc → Prop
  | .store _ => mkRec.Room mkRecPool
  | .publish row => mkRec.Room mkRecPool ∧ mkRec.back mkRecPool = row
  | .finish | .exited => todo = []
  | _ => True

/-- The rows are in the ring or still to come. -/
structure QueryOk (q : Query) (t : QueryThread) (mkRec : Ring (List Mem)) (mkDone : Bool) :
    Prop where
  rows : q.rows = mkRec.log ++ t.pc.inHand ++ t.todo
  done : mkDone = t.pc.isExited
  phase : QueryAt mkRec t.todo t.pc

def MakerPc.inHand : MakerPc → List (List Mem)
  | .count row => [row]
  | _ => []

def MakerPc.unpublished : MakerPc → List PoolSlot
  | .space r | .storeRecord r | .storeSize r | .publish r => [slotOf (serialize r)]
  | _ => []

def MakerPc.isExited : MakerPc → Bool
  | .exited => true
  | _ => false

def MakerAt (mkRec : Ring (List Mem)) (mkDone : Bool) (pcs : Ring PoolSlot) : MakerPc → Prop
  | .check => mkRec.taken < mkRec.log.length ∨ mkDone = true
  | .checkEmpty => mkDone = true
  | .take | .read => mkRec.taken < mkRec.log.length
  | .advance row => mkRec.log[mkRec.taken]? = some row
  | .storeRecord _ => pcs.Room recPool
  | .storeSize r => pcs.Room recPool ∧ (pcs.back recPool).record = serialize r
  | .publish r => pcs.Room recPool ∧ pcs.back recPool = slotOf (serialize r)
  | .finish | .exited => mkDone = true ∧ mkRec.taken = mkRec.log.length
  | _ => True

/-- Every row taken from the first ring has been encoded once, and every record is in the
second ring, but for the one in hand. -/
structure MakerOk (mkRec : Ring (List Mem)) (mkDone : Bool) (t : MakerThread) (pcs : Ring PoolSlot)
    (pcsDone : Bool) : Prop where
  rows : t.made.map Made.row ++ t.pc.inHand = mkRec.log.take mkRec.taken
  slots : pcs.log ++ t.pc.unpublished = t.made.map fun m => slotOf (serialize m.record)
  done : pcsDone = t.pc.isExited
  phase : MakerAt mkRec mkDone pcs t.pc

/-- A packet under construction that holds the given frames. -/
def Filled (b : Batching) (frames : List (List UInt8)) : Prop :=
  ∃ (rs : List SsdRecord) (stale : List UInt8), frames = rs.map serialize ∧
    framedSize rs ≤ payloadSize ∧
    stale.length = payloadSize ∧ b = frames.foldl Batching.push ⟨⟨.recPkt,0,stale⟩,0⟩

/-- A packet as the host finds it: an end packet or the records of its frames. -/
structure SentOk (p : Sent) : Prop where
  sound : p.batch.Sound
  fits : ∀ frame ∈ p.frames, frame.length ≤ payloadSize
  content : p.batch.pktType = .endPkt ∧ p.frames = [] ∨
    p.batch.pktType = .recPkt ∧ ∃ records, batchDeserializeAdd p.batch = some records ∧
      records.map some = p.frames.map hostMem

/-- The last packet is on its way. -/
def ConsumerPc.isLast : ConsumerPc → Bool
  | .write _ _ last => last
  | .exited => true
  | _ => false

/-- Bytes of the current packet that are not yet in the channel. -/
def ConsumerPc.unsent : ConsumerPc → List UInt8
  | .write batchPkt nbuffer _ => batchPkt.drop nbuffer
  | _ => []

/-- The frame of the current slot has been copied already. -/
def ConsumerPc.ahead : ConsumerPc → ℕ
  | .advance => 1
  | _ => 0

def ConsumerPc.inner : ConsumerPc → Bool
  | .poll i | .pollDone i | .check i | .checkEmpty i | .take i | .size i | .copy i _ => i
  | .advance | .send => true
  | _ => false

def ConsumerAt (pcs : Ring PoolSlot) (pcsDone : Bool) (t : ConsumerThread) : ConsumerPc → Prop
  | .check _ => pcs.taken < pcs.log.length ∨ pcsDone = true
  | .checkEmpty _ => pcsDone = true
  | .take _ | .size _ | .advance => pcs.taken < pcs.log.length
  | .copy i len => ∃ x, pcs.log[pcs.taken]? = some x ∧ len = x.size ∧
      (i = true → t.batching.sbytes + len ≤ payloadSize)
  | .finish | .exited => pcsDone = true ∧ pcs.taken = pcs.log.length
  | .write batchPkt nbuffer last => nbuffer ≤ recvBufSize ∧
      (∃ ps p, t.packets = ps ++ [p] ∧ batchPkt = serializeBeforeSend p.batch) ∧
      (last = true → pcsDone = true ∧ pcs.taken = pcs.log.length)
  | .crashed => ∃ x ∈ pcs.log, payloadSize < x.size
  | _ => True

/-- Every frame taken from the ring has been packed once and in order; the end packet is the
last one, and it is made when no record is left. -/
structure ConsumerOk (pcs : Ring PoolSlot) (pcsDone : Bool) (t : ConsumerThread) : Prop where
  frames : (t.packets.flatMap Sent.frames ++ t.frames).map slotOf =
    pcs.log.take (pcs.taken + t.pc.ahead)
  sent : ∀ p ∈ t.packets, SentOk p
  filling : if t.pc.inner then Filled t.batching t.frames else t.frames = [] ∧
    t.batching.batch.Sound
  notLast : t.pc.isLast = false → ∀ p ∈ t.packets, p.batch.pktType ≠ .endPkt
  last : t.pc.isLast = true → ∃ ps p, t.packets = ps ++ [p] ∧ p.batch.pktType = .endPkt ∧
    ∀ p ∈ ps, p.batch.pktType ≠ .endPkt
  phase : ConsumerAt pcs pcsDone t t.pc

def HostProducerPc.inHand : HostProducerPc → List RecordBatch
  | .space b | .store b | .publish b => [b]
  | _ => []

def HostProducerPc.isExited : HostProducerPc → Bool
  | .exited => true
  | _ => false

/-- An end packet is among the batches. -/
def Ended (batches : List RecordBatch) : Prop := ∃ b ∈ batches, b.pktType = .endPkt

def HostProducerAt (pc : Ring RecordBatch) : HostProducerPc → Prop
  | .store _ => pc.Room bufPool
  | .publish b => pc.Room bufPool ∧ pc.back bufPool = b
  | _ => True

/-- The packets before `rest` have reached the host's ring; the bytes of the others are in the
host's buffer, in the channel or still to be sent. -/
structure WireOk (packets : List Sent) (unsent wire : List UInt8) (t : HostProducer)
    (pc : Ring RecordBatch) : Prop where
  packets : ∃ arrived rest, packets = arrived ++ rest ∧
    arrived.map Sent.batch = pc.log ++ t.pc.inHand ∧
    t.tcpData ++ wire ++ unsent = (rest.map fun p => serializeBeforeSend p.batch).flatten
  tcpData : t.tcpData.length < recvBufSize
  ended : t.pc.isExited = true ↔ Ended pc.log
  phase : HostProducerAt pc t.pc

def HostConsumerPc.inHand : HostConsumerPc → List HostMem
  | .insert records => records
  | _ => []

def HostConsumerPc.isExited : HostConsumerPc → Bool
  | .exited => true
  | _ => false

def HostConsumerAt (pc : Ring RecordBatch) : HostConsumerPc → Prop
  | .read => pc.taken < pc.log.length
  | .advance b => pc.log[pc.taken]? = some b
  | .crashed => False
  | _ => True

/-- The table holds the records of the packets taken from the host's ring, but for those still
to be inserted. -/
structure HostConsumerOk (packets : List Sent) (pc : Ring RecordBatch) (t : HostConsumer) :
    Prop where
  table : (t.table ++ t.pc.inHand).map some =
    ((packets.take pc.taken).flatMap Sent.frames).map hostMem
  ended : t.pc.isExited = true ↔ Ended (pc.log.take pc.taken)
  phase : HostConsumerAt pc t.pc

structure Inv (q : Query) (s : State) : Prop where
  query : QueryOk q s.query s.mkRec s.mkDone
  mkRec : s.mkRec.Wf mkRecPool
  maker : MakerOk s.mkRec s.mkDone s.maker s.pcs s.pcsDone
  pcs : s.pcs.Wf recPool
  consumer : ConsumerOk s.pcs s.pcsDone s.consumer
  wire : WireOk s.consumer.packets s.consumer.pc.unsent s.wire s.hostProducer s.pc
  pc : s.pc.Wf bufPool
  hostConsumer : HostConsumerOk s.consumer.packets s.pc s.hostConsumer
  answer : ∀ table, s.answer = some table → s.hostConsumer.pc.isExited = true ∧
    table = s.hostConsumer.table

end IronSafe.Pipeline
