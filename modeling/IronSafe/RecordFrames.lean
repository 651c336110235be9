import IronSafe.Frames
import IronSafe.PacketCodec

/-! The record serializers of the two SQLite copies. The storage side sends no `zMalloc` bytes but
its own reader skips them; the host side sends them but its own reader does not skip them. -/
namespace IronSafe.Packet
open Bytes Frames

/-- The value of a word as an `int`, if it is positive, and zero otherwise. -/
def positive (w : ℕ) : ℕ := if w % 2^32 < 2^31 then w % 2^32 else 0

/-- A record together with the `szMalloc` bytes at `zMalloc`. -/
structure MemRecord extends SsdRecord where
  zMalloc : List UInt8
  zMalloc_length : zMalloc.length = positive szMalloc
  n_lt : z.length < 2^31

/-- A record that was read on the storage side, with the copy that is made for `zMalloc`. -/
structure SsdMem extends HostMem where
  zMalloc : List UInt8

inductive Side
  | storage | host
  deriving DecidableEq

/-- `serialize` of the host side. -/
def hostSerialize (r : MemRecord) : List UInt8 :=
  le32 r.n ++ le32 r.szMalloc ++ r.z ++ [r.after] ++ if 0 < positive r.szMalloc then r.zMalloc
    else []

/-- `deserialize` of the storage side, which reads the fields as the host does. -/
def ssdDeserialize (record : List UInt8) : Option (SsdMem × ℕ) :=
  match deserialize record with
  | none => none
  | some (m,nbytes) =>
    if 0 < positive m.szMalloc then
      if record.length < nbytes + positive m.szMalloc then none
      else some (⟨m, slice nbytes (positive m.szMalloc) record⟩, nbytes + positive m.szMalloc)
    else some (⟨m,[]⟩, nbytes)

/-- The bytes that `serialize` of a side writes. -/
def Side.frame : Side → MemRecord → List UInt8
  | .storage, r => serialize r.toSsdRecord
  | .host, r => hostSerialize r

/-- The buffer is allocated by its length as an `int`; a length that is none gives no buffer. -/
def Side.serialize (side : Side) (r : MemRecord) : Option (List UInt8) :=
  if (side.frame r).length < 2^31 then some (side.frame r) else none

def Side.deserialize : Side → List UInt8 → Option (HostMem × ℕ)
  | .storage, record => (ssdDeserialize record).map fun p => (p.1.toHostMem, p.2)
  | .host, record => Packet.deserialize record

/-- The reader of a side gets back what its serializer wrote, and goes on behind it. -/
def Side.Agrees (side : Side) (r : MemRecord) (rest : List UInt8) : Prop :=
  ∃ frame m step, side.serialize r = some frame ∧ side.deserialize (frame ++ rest) = some (m,step) ∧
    m.n = r.n ∧ m.bytes = r.z ∧ step = frame.length

/-- The loop of `batch_deserialize_add` reads all records and stands behind each of them in turn. -/
def Side.KeepsPlace (side : Side) (rs : List MemRecord) (rest : List UInt8) : Prop :=
  ∃ frames records, rs.mapM side.serialize = some frames ∧
    walk side.deserialize (frames.flatten ++ rest) rs.length 0 = some records ∧
    records.map Prod.snd = ends 0 frames ∧
    records.map (fun p => (p.1.n, p.1.bytes)) = rs.map fun r => (r.n, r.z)

/-- No `zMalloc` bytes, and a length that is an `int`. -/
def MemRecord.Bare (r : MemRecord) : Prop := positive r.szMalloc = 0 ∧ 9 + r.n < 2^31

section Sides

variable {side : Side} {r : MemRecord}

lemma positive_mod (w : ℕ) : positive (w % 2^32) = positive w := by simp [positive]

/-- What a side writes behind the fields. -/
lemma frame_eq (side : Side) (r : MemRecord) :
    side.frame r = serialize r.toSsdRecord ++ if side = .host then r.zMalloc else [] := by
  cases side with
  | storage => simp [Side.frame]
  | host =>
    rw [Side.frame, hostSerialize, Packet.serialize, if_pos rfl]
    split_ifs with h
    · rfl
    · have hnil : r.zMalloc = [] := List.length_eq_zero_iff.mp (by rw [r.zMalloc_length]; omega)
      rw [hnil]

lemma frame_length (side : Side) (r : MemRecord) :
    (side.frame r).length = 9 + r.n + if side = .host then positive r.szMalloc else 0 := by
  rw [frame_eq, List.length_append, serialize_length]
  split_ifs <;> simp [r.zMalloc_length]

lemma deserialize_record (r : MemRecord) (rest : List UInt8) :
    Packet.deserialize (serialize r.toSsdRecord ++ rest) = some (r.received, 9 + r.n) :=
  deserialize_serialize r.toSsdRecord rest (by have := r.n_lt; unfold SsdRecord.n; omega)

/-- The reader of the storage side skips bytes that were not written. -/
lemma ssdDeserialize_record (r : MemRecord) (rest : List UInt8) {m : SsdMem} {step : ℕ}
    (h : ssdDeserialize (serialize r.toSsdRecord ++ rest) = some (m,step)) :
    m.toHostMem = r.received ∧ step = 9 + r.n + positive r.szMalloc := by
  have hp : positive r.received.szMalloc = positive r.szMalloc := positive_mod r.szMalloc
  simp only [ssdDeserialize, deserialize_record, hp] at h
  split_ifs at h with hpos hshort
  · cases h
    exact ⟨rfl, rfl⟩
  · cases h
    exact ⟨rfl, by omega⟩

lemma ssdDeserialize_bare (r : MemRecord) (hr : positive r.szMalloc = 0) (rest : List UInt8) :
    ssdDeserialize (serialize r.toSsdRecord ++ rest) = some (⟨r.received,[]⟩, 9 + r.n) := by
  have hp : positive r.received.szMalloc = positive r.szMalloc := positive_mod r.szMalloc
  simp only [ssdDeserialize, deserialize_record, hp, hr, lt_irrefl, if_false]

/-- On both sides the stride is right if and only if there are no `zMalloc` bytes. -/
lemma strides (side : Side) : Strides side.frame side.deserialize (fun r => r.received)
    fun r => positive r.szMalloc = 0 where
  read r tail hr := by
    rw [frame_length, hr]
    cases side with
    | storage => simp [Side.deserialize, Side.frame, ssdDeserialize_bare r hr]
    | host =>
      have hnil : r.zMalloc = [] := List.length_eq_zero_iff.mp (by rw [r.zMalloc_length, hr])
      simp [Side.deserialize, frame_eq, hnil, deserialize_record]
  lost r tail m hr h := by
    rw [frame_length] at h
    cases side with
    | storage =>
      simp only [Side.deserialize, Side.frame, Option.map_eq_some_iff] at h
      obtain ⟨⟨m', step⟩, hread, heq⟩ := h
      have hstep := (ssdDeserialize_record r tail hread).2
      simp only [Prod.mk.injEq] at heq
      simp at heq
      omega
    | host =>
      simp only [Side.deserialize, frame_eq, if_pos, List.append_assoc, deserialize_record,
        Option.some.injEq, Prod.mk.injEq] at h
      omega

lemma serialize_eq_some {frame : List UInt8} :
    side.serialize r = some frame ↔ frame = side.frame r ∧ (side.frame r).length < 2^31 := by
  rw [Side.serialize]
  split_ifs with h
  · simp only [Option.some.injEq, h, and_true, eq_comm]
  · simp only [h, and_false]

lemma mapM_serialize_eq_some {rs : List MemRecord} {frames : List (List UInt8)} :
    rs.mapM side.serialize = some frames ↔
      frames = rs.map side.frame ∧ ∀ r ∈ rs, (side.frame r).length < 2^31 := by
  induction rs generalizing frames with
  | nil => simp [eq_comm]
  | cons r rs ih =>
    simp only [List.mapM_cons, Option.bind_eq_bind, Option.bind_eq_some_iff, serialize_eq_some, ih,
      Option.pure_def, Option.some.injEq, List.map_cons, List.forall_mem_cons]
    constructor
    · rintro ⟨_, ⟨rfl, hr⟩, _, ⟨rfl, hrs⟩, rfl⟩
      exact ⟨rfl, hr, hrs⟩
    · rintro ⟨rfl, hr, hrs⟩
      exact ⟨_, ⟨rfl, hr⟩, _, ⟨rfl, hrs⟩, rfl⟩

lemma bare_iff (side : Side) : r.Bare ↔ positive r.szMalloc = 0 ∧ (side.frame r).length < 2^31 := by
  rw [MemRecord.Bare, frame_length]
  constructor
  · rintro ⟨hpos, hlen⟩
    exact ⟨hpos, by rw [hpos]; split_ifs <;> exact hlen⟩
  · rintro ⟨hpos, hlen⟩
    exact ⟨hpos, by omega⟩

lemma agrees_iff (rest : List UInt8) : side.Agrees r rest ↔ r.Bare := by
  rw [bare_iff side]
  constructor
  · rintro ⟨frame, m, step, hser, hread, -, -, rfl⟩
    obtain ⟨rfl, hlen⟩ := serialize_eq_some.mp hser
    refine ⟨?_, hlen⟩
    by_contra hpos
    exact (strides side).lost r rest m hpos hread
  · rintro ⟨hpos, hlen⟩
    exact ⟨_, _, _, serialize_eq_some.mpr ⟨rfl, hlen⟩, (strides side).read r rest hpos, rfl,
      received_bytes _, rfl⟩

lemma keepsPlace_iff (rs : List MemRecord) (rest : List UInt8) :
    side.KeepsPlace rs rest ↔ ∀ r ∈ rs, r.Bare := by
  constructor
  · rintro ⟨frames, records, hser, hwalk, hends, -⟩
    obtain ⟨rfl, hlen⟩ := mapM_serialize_eq_some.mp hser
    have hgood := ((strides side).walk_keeps_place_iff rs [] rest).mp ⟨records, hwalk, hends⟩
    exact fun r hr => (bare_iff side).mpr ⟨hgood r hr, hlen r hr⟩
  · intro hbare
    have hwalk := (strides side).walk_eq rs (fun r hr => (hbare r hr).1) [] rest
    refine ⟨_, _, mapM_serialize_eq_some.mpr ⟨rfl, fun r hr => ((bare_iff side).mp (hbare r hr)).2⟩,
      hwalk, ?_, ?_⟩
    · exact List.map_snd_zip (by simp)
    · have hfst : ((rs.map fun r => r.received).zip (ends 0 (rs.map side.frame))).map Prod.fst =
          rs.map fun r => r.received := List.map_fst_zip (by simp)
      have hmap := congrArg (List.map fun m : HostMem => (m.n, m.bytes)) hfst
      rw [List.map_map, List.map_map] at hmap
      simpa [Function.comp_def, SsdRecord.received, HostMem.bytes, SsdRecord.n] using hmap

end Sides

/-- On both sides a record is read back with the right stride if and only if it has no `zMalloc`
bytes, and a batch is read to its end if and only if no record in it has any. -/
theorem serializers_agree_iff (side : Side) (rest : List UInt8) :
    (∀ r, side.Agrees r rest ↔ r.Bare) ∧ ∀ rs, side.KeepsPlace rs rest ↔ ∀ r ∈ rs, r.Bare :=
  ⟨fun _ => agrees_iff rest, fun rs => keepsPlace_iff rs rest⟩

lemma one_lt_int : [7].length < 2^31 := by decide

/-- A record of one byte with one `zMalloc` byte. -/
def oneByte : MemRecord := ⟨⟨[7],1,0⟩, [9], rfl, one_lt_int⟩

/-- The storage side writes 10 bytes and reads 11, the host side writes 11 bytes and reads 10. -/
theorem strides_disagree :
    (∃ frame m, Side.storage.serialize oneByte = some frame ∧ frame.length = 10 ∧
        Side.storage.deserialize (frame ++ frame) = some (m,11)) ∧
      (∃ frame m, Side.host.serialize oneByte = some frame ∧ frame.length = 11 ∧
        Side.host.deserialize (frame ++ frame) = some (m,10)) ∧
      ∀ side : Side, ¬ side.Agrees oneByte [] ∧ ¬ side.KeepsPlace [oneByte, oneByte] [] := by
  have hbare : ¬ oneByte.Bare := fun h => absurd h.1 (by decide)
  refine ⟨⟨_, _, rfl, rfl, rfl⟩, ⟨_, _, rfl, rfl, rfl⟩, fun side => ⟨?_, ?_⟩⟩
  · rw [agrees_iff]
    exact hbare
  · rw [keepsPlace_iff]
    exact fun h => hbare (h oneByte (by simp))

end IronSafe.Packet
