import IronSafe.Bytes

/-! Packets between the storage and the host server. The storage side frames each record as
`n`, `szMalloc`, the `n` record bytes and one more byte, and packs frames into a payload of
fixed size; the host splits the packet and walks the frames. -/
namespace IronSafe.Packet
open Bytes

def recvBufSize : ℕ := 1024*1024*1

/-- `RECV_BUF_SIZE - sizeof(packet_type) - sizeof(int)`. -/
def payloadSize : ℕ := recvBufSize - 4 - 4

inductive PacketType
  | recPkt | tabPkt | endPkt
  deriving DecidableEq, Repr

def PacketType.toWord : PacketType → ℕ
  | .recPkt => 0
  | .tabPkt => 1
  | .endPkt => 2

/-- The host only tells the end packet from the others. -/
def PacketType.ofWord (w : ℕ) : PacketType :=
  if w = 2 then .endPkt else if w = 1 then .tabPkt else .recPkt

@[simp] lemma PacketType.ofWord_toWord (t : PacketType) : ofWord t.toWord = t := by cases t <;> rfl

/-- The fields of a record that are framed. The byte `after` is the one that follows the
record bytes in memory; it is copied with them. -/
structure SsdRecord where
  z : List UInt8
  szMalloc : ℕ
  after : UInt8
  deriving DecidableEq

def SsdRecord.n (r : SsdRecord) : ℕ := r.z.length

/-- `serialize` of the storage side. -/
def serialize (r : SsdRecord) : List UInt8 := le32 r.n ++ le32 r.szMalloc ++ r.z ++ [r.after]

structure RecordBatch where
  pktType : PacketType
  numRecords : ℕ
  serialData : List UInt8

/-- The packet under construction and the number of payload bytes in use. -/
structure Batching where
  batch : RecordBatch
  sbytes : ℕ

/-- Copy one more frame behind the frames of the batch. -/
def Batching.push (b : Batching) (frame : List UInt8) : Batching :=
  ⟨{ b.batch with
      numRecords := b.batch.numRecords + 1
      serialData := overwrite b.batch.serialData b.sbytes frame }, b.sbytes + frame.length⟩

/-- A record packet of the given frames, built over the bytes of earlier packets. -/
def buildBatch (stale : List UInt8) (frames : List (List UInt8)) : RecordBatch :=
  (frames.foldl Batching.push ⟨⟨.recPkt,0,stale⟩,0⟩).batch

def serializeBeforeSend (b : RecordBatch) : List UInt8 :=
  le32 b.pktType.toWord ++ le32 b.numRecords ++ b.serialData.take payloadSize

/-- The batch that the host's `producer_func` makes of a received packet. -/
def parseBatch (tcpData : List UInt8) : RecordBatch :=
  ⟨.ofWord (readLe32 tcpData), readLe32 (tcpData.drop 4), slice 8 payloadSize tcpData⟩

/-- A record on the host: `z` holds the `n` record bytes and the byte after them. -/
structure HostMem where
  n : ℕ
  szMalloc : ℕ
  z : List UInt8
  deriving DecidableEq

/-- The record bytes that are inserted into the table. -/
def HostMem.bytes (m : HostMem) : List UInt8 := m.z.take m.n

/-- `deserialize` of the host: the record at the start of the buffer and its stride. The
data announced by `szMalloc` is not sent. Reading past the buffer gives `none`. -/
def deserialize (record : List UInt8) : Option (HostMem × ℕ) :=
  if record.length < 8 then none
  else
    let n := readLe32 record
    let szMalloc := readLe32 (record.drop 4)
    if record.length < 8 + (n+1) then none
    else some (⟨n, szMalloc, slice 8 (n+1) record⟩, 8 + (n+1))

/-- The loop of `batch_deserialize_add`, from offset `temp` on. -/
def batchWalk (data : List UInt8) : ℕ → ℕ → Option (List HostMem)
  | 0, _ => some []
  | left+1, temp =>
    match deserialize (data.drop temp) with
    | none => none
    | some (record,step) =>
      match batchWalk data left (temp+step) with
      | none => none
      | some records => some (record :: records)

/-- The count is an `int`: a word that is negative as such gives no iteration. -/
def batchDeserializeAdd (b : RecordBatch) : Option (List HostMem) :=
  batchWalk b.serialData (if b.numRecords < 2^31 then b.numRecords else 0) 0

/-- What the host makes of a record. -/
def SsdRecord.received (r : SsdRecord) : HostMem := ⟨r.n, r.szMalloc % 2^32, r.z ++ [r.after]⟩

@[simp] lemma received_bytes (r : SsdRecord) : r.received.bytes = r.z := by
  simp [SsdRecord.received, HostMem.bytes, SsdRecord.n]

@[simp] lemma serialize_length (r : SsdRecord) : (serialize r).length = 9 + r.n := by
  simp only [serialize, List.length_append, le32_length, List.length_singleton, SsdRecord.n]
  omega

lemma deserialize_serialize (r : SsdRecord) (rest : List UInt8) (hn : r.n < 2^32) :
    deserialize (serialize r ++ rest) = some (r.received, 9 + r.n) := by
  have hlen : (serialize r ++ rest).length = 9 + r.n + rest.length := by simp
  have h0 : readLe32 (serialize r ++ rest) = r.n := by
    simp only [serialize, List.append_assoc, readLe32_le32_append, Nat.mod_eq_of_lt hn]
  have h4 : readLe32 ((serialize r ++ rest).drop 4) = r.szMalloc % 2^32 := by
    simp only [serialize, List.append_assoc]
    rw [List.drop_left' (le32_length _), readLe32_le32_append]
  have h8 : slice 8 (r.n+1) (serialize r ++ rest) = r.z ++ [r.after] := by
    simp only [serialize, List.append_assoc, slice]
    rw [← List.append_assoc (le32 r.n), List.drop_left' (by simp), ← List.append_assoc]
    exact List.take_left' (by simp [SsdRecord.n])
  simp only [deserialize, h0, h4, h8, hlen]
  rw [if_neg (by omega), if_neg (by omega), SsdRecord.received]
  congr 2
  omega

/-- The frames of a batch lie one after the other at the front of the payload. -/
lemma push_foldl (frames : List (List UInt8)) (b : Batching)
    (hfit : b.sbytes + (frames.map List.length).sum ≤ b.batch.serialData.length) :
    let e := frames.foldl Batching.push b
    e.batch.pktType = b.batch.pktType ∧ e.batch.numRecords = b.batch.numRecords + frames.length ∧
      e.sbytes = b.sbytes + (frames.map List.length).sum ∧
      e.batch.serialData = overwrite b.batch.serialData b.sbytes frames.flatten := by
  induction frames generalizing b with
  | nil => simp [overwrite]
  | cons f fs ih =>
    simp only [List.map_cons, List.sum_cons] at hfit
    have hl : (b.push f).batch.serialData.length = b.batch.serialData.length :=
      overwrite_length _ _ (by omega)
    obtain ⟨h1, h2, h3, h4⟩ := ih (b.push f) (by rw [hl]; simp only [Batching.push]; omega)
    simp only [List.foldl_cons, List.map_cons, List.sum_cons, List.length_cons, List.flatten_cons]
    simp only [Batching.push] at h1 h2 h3 h4 ⊢
    refine ⟨h1, by omega, by omega, ?_⟩
    rw [h4]
    exact overwrite_overwrite_append _ _ _ (by omega)

/-- The walk over frames that follow one another yields their records. -/
lemma batchWalk_frames (rs : List SsdRecord) (hn : ∀ r ∈ rs, r.n < 2^32)
    (before rest : List UInt8) :
    batchWalk (before ++ (rs.map serialize).flatten ++ rest) rs.length before.length =
      some (rs.map SsdRecord.received) := by
  induction rs generalizing before with
  | nil => rfl
  | cons r rs ih =>
    have hsplit : before ++ ((r :: rs).map serialize).flatten ++ rest =
        before ++ serialize r ++ (rs.map serialize).flatten ++ rest := by simp [List.append_assoc]
    have hdrop : (before ++ serialize r ++ (rs.map serialize).flatten ++ rest).drop before.length =
        serialize r ++ ((rs.map serialize).flatten ++ rest) := by simp [List.append_assoc]
    have hnext := ih (fun x hx => hn x (by simp [hx])) (before ++ serialize r)
    rw [List.length_append, serialize_length] at hnext
    rw [hsplit]
    simp only [List.length_cons, batchWalk, hdrop, deserialize_serialize r _ (hn r (by simp)),
      List.map_cons, hnext]

/-- Number of payload bytes that records take. -/
def framedSize (rs : List SsdRecord) : ℕ := (rs.map fun r => 9 + r.n).sum

lemma frames_length_sum (rs : List SsdRecord) :
    ((rs.map serialize).map List.length).sum = framedSize rs := by
  simp [framedSize, Function.comp_def]

lemma length_le_framedSize (rs : List SsdRecord) : 9*rs.length ≤ framedSize rs := by
  induction rs with
  | nil => simp [framedSize]
  | cons r rs ih =>
    simp only [framedSize, List.map_cons, List.sum_cons, List.length_cons] at *
    omega

lemma frame_le_framedSize {rs : List SsdRecord} {r : SsdRecord} (hr : r ∈ rs) :
    (serialize r).length ≤ framedSize rs := by
  rw [serialize_length]
  have := List.single_le_sum (l := rs.map fun r => 9 + r.n) (by simp) (9 + r.n)
    (List.mem_map_of_mem (f := fun r => 9 + r.n) hr)
  unfold framedSize
  omega

/-- The batch of records that fit the payload: their frames, then what was there before. -/
lemma buildBatch_eq {rs : List SsdRecord} (hfit : framedSize rs ≤ payloadSize) {stale : List UInt8}
    (hs : stale.length = payloadSize) :
    buildBatch stale (rs.map serialize) =
      ⟨.recPkt, rs.length, (rs.map serialize).flatten ++ stale.drop (framedSize rs)⟩ := by
  have hsum := frames_length_sum rs
  obtain ⟨h1, h2, -, h4⟩ :=
    push_foldl (rs.map serialize) ⟨⟨.recPkt,0,stale⟩,0⟩ (by simp only; omega)
  have hl : (rs.map serialize).flatten.length = framedSize rs := by rw [List.length_flatten, hsum]
  unfold buildBatch
  rcases he : (rs.map serialize).foldl Batching.push ⟨⟨.recPkt,0,stale⟩,0⟩ with ⟨⟨t, k, d⟩, m⟩
  rw [he] at h1 h2 h4
  simp only [List.length_map, Nat.zero_add] at h1 h2 h4
  subst h1 h2 h4
  simp [overwrite, hl]

/-- A batch that is ready to be sent. -/
structure RecordBatch.Sound (b : RecordBatch) : Prop where
  serialData : b.serialData.length = payloadSize
  numRecords : b.numRecords < 2^32

/-- The host reads back the packet that was framed. -/
lemma parseBatch_send {b : RecordBatch} (h : b.Sound) : parseBatch (serializeBeforeSend b) = b := by
  have h4 : (serializeBeforeSend b).drop 4 = le32 b.numRecords ++
      b.serialData.take payloadSize := by
    rw [serializeBeforeSend, List.append_assoc, List.drop_left' (le32_length _)]
  have h8 : slice 8 payloadSize (serializeBeforeSend b) = b.serialData := by
    rw [slice, serializeBeforeSend, List.drop_left' (by simp), ← h.serialData, List.take_length,
      List.take_length]
  have h0 : readLe32 (serializeBeforeSend b) = b.pktType.toWord := by
    rw [serializeBeforeSend, List.append_assoc, readLe32_le32_append]
    cases b.pktType <;> rfl
  rw [parseBatch, h0, h4, h8, readLe32_le32_append, Nat.mod_eq_of_lt h.numRecords,
    PacketType.ofWord_toWord]

lemma serializeBeforeSend_length {b : RecordBatch} (h : b.Sound) :
    (serializeBeforeSend b).length = recvBufSize := by
  simp only [serializeBeforeSend, List.length_append, le32_length, List.length_take, h.serialData,
    payloadSize, recvBufSize]
  omega

lemma buildBatch_sound {rs : List SsdRecord} (hfit : framedSize rs ≤ payloadSize)
    {stale : List UInt8} (hs : stale.length = payloadSize) :
    (buildBatch stale (rs.map serialize)).Sound := by
  have hp : payloadSize < 2^31 := by decide
  have hcount := length_le_framedSize rs
  have hl : (rs.map serialize).flatten.length = framedSize rs := by
    rw [List.length_flatten, frames_length_sum]
  rw [buildBatch_eq hfit hs]
  refine ⟨?_, by dsimp only; omega⟩
  rw [List.length_append, List.length_drop, hl, hs]
  omega

/-- What the host makes of a batch of records that fit the payload. -/
lemma batchDeserializeAdd_build {rs : List SsdRecord} (hfit : framedSize rs ≤ payloadSize)
    {stale : List UInt8} (hs : stale.length = payloadSize) :
    batchDeserializeAdd (buildBatch stale (rs.map serialize)) =
      some (rs.map SsdRecord.received) := by
  have hp : payloadSize < 2^31 := by decide
  have hcount := length_le_framedSize rs
  have hwalk := batchWalk_frames rs (fun r hr => by
    have hr := frame_le_framedSize hr
    rw [serialize_length] at hr
    omega) []
    (stale.drop (framedSize rs))
  rw [buildBatch_eq hfit hs, batchDeserializeAdd, if_pos (by dsimp only; omega)]
  exact hwalk

/-- Records whose frames fit the payload arrive on the host as they were, whatever bytes
earlier packets left in the buffer. -/
theorem packet_roundtrip {rs : List SsdRecord} (hfit : framedSize rs ≤ payloadSize)
    {stale : List UInt8} (hs : stale.length = payloadSize) :
    let packet := serializeBeforeSend (buildBatch stale (rs.map serialize))
    packet.length = recvBufSize ∧ (parseBatch packet).pktType = .recPkt ∧
      ∃ records, batchDeserializeAdd (parseBatch packet) = some records ∧
        records.map HostMem.bytes = rs.map SsdRecord.z := by
  have hsound := buildBatch_sound hfit hs
  intro packet
  have hparse : parseBatch packet = buildBatch stale (rs.map serialize) :=
    parseBatch_send hsound
  refine ⟨serializeBeforeSend_length hsound, ?_, rs.map SsdRecord.received, ?_,
    by simp [Function.comp_def]⟩
  · rw [hparse, buildBatch_eq hfit hs]
  · rw [hparse, batchDeserializeAdd_build hfit hs]

theorem packet_roundtrip_two : ∃ records,
    batchDeserializeAdd (parseBatch (serializeBeforeSend (buildBatch (List.replicate payloadSize 9)
      ([⟨[1,2],32,7⟩,⟨[],0,8⟩].map serialize)))) = some records ∧
    records.map HostMem.bytes = [[1,2],[]] := by
  obtain ⟨-, -, h⟩ := @packet_roundtrip [⟨[1,2],32,7⟩,⟨[],0,8⟩] (by decide)
    (List.replicate payloadSize 9) List.length_replicate
  exact h

end IronSafe.Packet
