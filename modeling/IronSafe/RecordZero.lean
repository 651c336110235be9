import IronSafe.PacketCodec
import IronSafe.RecordRoundtrip

/-! Rows with zero-filled tails on their way to the host. The header of the record announces
the tails, but no zero byte is written for them: a tail at the end of the record is left to the
`nZero` of the record, which is not sent, and for any other tail bytes are reserved and the
cells behind it are written too early. -/
namespace IronSafe.Record
open Bytes Packet

variable {fileFormat : ℕ} {toDouble : BitVec 64 → BitVec 64}

/-- Sum of the payload sizes that the header announces from position `idx` on. -/
def declaredLoop (aKey : List UInt8) (szHdr : ℕ) : ℕ → ℕ → ℕ
  | 0, _ => 0
  | left+1, idx =>
    if idx < szHdr then
      let t := getVarint32 (aKey.drop idx)
      sqlite3VdbeSerialTypeLen t.2 + declaredLoop aKey szHdr left (idx + t.1)
    else 0

/-- The length that the header of a record declares. -/
def declaredLength (aKey : List UInt8) : ℕ :=
  let h := getVarint32 aKey
  h.2 + declaredLoop aKey h.2 aKey.length h.1

/-- The host's records after a packet with the one record. -/
def hostRecords (r : MadeRecord) (szMalloc : ℕ) (after : UInt8) (stale : List UInt8) :
    Option (List HostMem) :=
  batchDeserializeAdd (parseBatch (serializeBeforeSend
    (buildBatch stale [serialize ⟨r.written.buf, szMalloc, after⟩])))

/-- The record of the host has the length that it declares and holds the row. -/
structure Arrived (row : List Mem) (nField : ℕ) (m : HostMem) : Prop where
  length : m.bytes.length = declaredLength m.bytes
  values : sqlite3VdbeRecordUnpack nField m.bytes = row.map Mem.value

/-- The row reaches the host, whatever the allocations and earlier packets held. -/
def Survives (fileFormat : ℕ) (toDouble : BitVec 64 → BitVec 64) (row : List Mem) : Prop :=
  ∀ (garbage : Garbage) (szMalloc : ℕ) (after : UInt8) (stale : List UInt8) (nField : ℕ),
    stale.length = payloadSize → row.length ≤ nField →
    ∃ m, hostRecords (makeSsdRecord fileFormat toDouble row.length row garbage) szMalloc after
      stale = some [m] ∧ Arrived row nField m

lemma hostRecords_eq {r : MadeRecord} (hfit : 9 + r.written.buf.length ≤ payloadSize) (szMalloc : ℕ)
    (after : UInt8) {stale : List UInt8} (hs : stale.length = payloadSize) :
    ∃ m, hostRecords r szMalloc after stale = some [m] ∧ m.bytes = r.written.buf := by
  let rec1 : SsdRecord := ⟨r.written.buf, szMalloc, after⟩
  have hfit1 : framedSize [rec1] ≤ payloadSize := by
    simpa [framedSize, rec1, SsdRecord.n] using hfit
  refine ⟨rec1.received, ?_, received_bytes rec1⟩
  have hbuild := batchDeserializeAdd_build hfit1 hs
  rw [← parseBatch_send (buildBatch_sound hfit1 hs)] at hbuild
  exact hbuild

/-- A batch that is longer than the payload is cut when it is sent. -/
lemma parseBatch_send_cut {b : RecordBatch} (hlen : payloadSize ≤ b.serialData.length)
    (hcount : b.numRecords < 2^32) :
    parseBatch (serializeBeforeSend b) =
      { b with serialData := b.serialData.take payloadSize } := by
  have hsend : serializeBeforeSend b =
      serializeBeforeSend { b with serialData := b.serialData.take payloadSize } := by
    rw [serializeBeforeSend, serializeBeforeSend, List.take_take, min_self]
  rw [hsend]
  exact parseBatch_send ⟨by rw [List.length_take]; omega, hcount⟩

/-- The host reads past the packet of a record that does not fit. -/
lemma hostRecords_too_long {r : MadeRecord} (hlong : payloadSize < 9 + r.written.buf.length)
    (hlt : r.written.buf.length < 2^32) (szMalloc : ℕ) (after : UInt8) {stale : List UInt8}
    (hs : stale.length = payloadSize) : hostRecords r szMalloc after stale = none := by
  set rec1 : SsdRecord := ⟨r.written.buf, szMalloc, after⟩
  have hlen : (serialize rec1).length = 9 + r.written.buf.length := serialize_length rec1
  have hbuild : buildBatch stale [serialize rec1] = ⟨.recPkt, 1, serialize rec1⟩ := by
    simp only [buildBatch, List.foldl_cons, List.foldl_nil, Batching.push, overwrite,
      List.take_zero, List.nil_append, Nat.zero_add, RecordBatch.mk.injEq, true_and]
    rw [List.drop_of_length_le (by omega), List.append_nil]
  have hcount : readLe32 ((serialize rec1).take payloadSize) = r.written.buf.length := by
    have hsplit : (serialize rec1).take payloadSize =
        le32 rec1.n ++ (le32 rec1.szMalloc ++ rec1.z ++ [rec1.after]).take (payloadSize - 4) := by
      rw [serialize, List.append_assoc, List.append_assoc, ← List.append_assoc (le32 rec1.szMalloc),
        List.take_append, le32_length, List.take_of_length_le (by rw [le32_length]; decide)]
    rw [hsplit, readLe32_le32_append]
    exact Nat.mod_eq_of_lt hlt
  have htake : ((serialize rec1).take payloadSize).length = payloadSize := by
    rw [List.length_take]
    omega
  have hparse : parseBatch (serializeBeforeSend ⟨.recPkt, 1, serialize rec1⟩) =
      ⟨.recPkt, 1, (serialize rec1).take payloadSize⟩ :=
    parseBatch_send_cut (by dsimp only; omega) (Nat.one_lt_two_pow' 31)
  rw [hostRecords, hbuild, hparse, batchDeserializeAdd, if_pos (Nat.one_lt_two_pow' 30), batchWalk,
    List.drop_zero]
  simp only [deserialize, htake, hcount]
  rw [if_neg (by decide), if_pos (by omega)]

lemma declaredLoop_eq {types : List ℕ} (htypes : ∀ t ∈ types, t < 2^32)
    {before rest aKey : List UInt8}
    (hkey : aKey = before ++ (types.map putVarint32).flatten ++ rest) {szHdr left : ℕ}
    (hhdr : szHdr = before.length + (types.map putVarint32).flatten.length)
    (hleft : types.length < left) :
    declaredLoop aKey szHdr left before.length = (types.map sqlite3VdbeSerialTypeLen).sum := by
  induction types generalizing before left with
  | nil =>
    obtain ⟨left, rfl⟩ := Nat.exists_eq_add_of_lt hleft
    rw [List.length_nil, declaredLoop, if_neg (by simp [hhdr])]
    rfl
  | cons t types ih =>
    obtain ⟨left, rfl⟩ := Nat.exists_eq_add_of_lt hleft
    have ht := htypes t List.mem_cons_self
    have hpos := putVarint32_pos ht
    have hget := header_next ht hkey
    simp only [List.map_cons, List.flatten_cons, List.length_append, List.sum_cons,
      List.length_cons] at *
    have hsplit : aKey = before ++ putVarint32 t ++ (types.map putVarint32).flatten ++ rest := by
      simp [hkey]
    have hnext :=
      ih (fun x hx => htypes x (by simp [hx])) hsplit (by rw [List.length_append]; omega)
      (show types.length < types.length + 1 + left by omega)
    rw [List.length_append] at hnext
    rw [declaredLoop, if_pos (by omega), hget]
    simp only [hnext]

lemma declaredLength_headerOf {row : List Mem} (hst : ∀ m ∈ row, serialTypeOf fileFormat m < 2^32)
    {nHdr : ℕ} (hlt : nHdr < 2^31) (hhdr : (headerOf fileFormat row nHdr).length = nHdr)
    (rest : List UInt8) : declaredLength (headerOf fileFormat row nHdr ++ rest) =
      nHdr + ((row.map (serialTypeOf fileFormat)).map sqlite3VdbeSerialTypeLen).sum := by
  have htypes : ∀ t ∈ row.map (serialTypeOf fileFormat), t < 2^32 := by simpa using hst
  rw [headerOf_eq, List.length_append] at hhdr
  rw [headerOf_eq]
  set types := row.map (serialTypeOf fileFormat)
  set aKey := putVarint32 nHdr ++ (types.map putVarint32).flatten ++ rest with hkey
  obtain ⟨hget, hcount⟩ := header_read htypes (by omega) hkey
  rw [declaredLength, hget, declaredLoop_eq htypes hkey hhdr.symm hcount]

/-- A serial type announces the content of the cell and its tail. -/
lemma serialTypeLen_eq {m : Mem} (hm : m.Plain) :
    sqlite3VdbeSerialTypeLen (serialTypeOf fileFormat m) =
      (contentOf fileFormat m).length + m.tail := by
  cases hb : m.isBytes with
  | false => rw [tail_of_not_bytes hb, Nat.add_zero, content_length hm (tail_of_not_bytes hb)]
  | true =>
    rw [content_bytes hb, serialTypeOf_bytes hb, serialTypeLen_bytes (by omega)]
    split_ifs <;> omega

lemma declared_sum {row : List Mem} (hrow : ∀ m ∈ row, m.Plain) :
    ((row.map (serialTypeOf fileFormat)).map sqlite3VdbeSerialTypeLen).sum =
      (payloadOf fileFormat row).length + (row.map Mem.tail).sum := by
  rw [payloadOf, length_flatten_map, ← List.sum_map_add, List.map_map]
  congr 1
  exact List.map_congr_left fun m hm => serialTypeLen_eq (hrow m hm)

lemma value_of_real_type {m : Mem} (h : serialTypeOf fileFormat m = 7) : m.value = .real m.u := by
  unfold serialTypeOf at h
  split_ifs at h with h1 h2 h3 h4
  · omega
  · rcases intType_cases fileFormat m with ⟨ht, -⟩ | ⟨t, -, h6, ht, -⟩ <;> rw [ht] at h <;>
      dsimp only at h <;>
      omega
  · simp [Mem.value, h1, h3, h4]
  all_goals omega

/-- At most one payload of the announced size holds the cells of a row. -/
lemma payload_unique {row : List Mem} {p q : List UInt8}
    (hp : p.length = ((row.map (serialTypeOf fileFormat)).map sqlite3VdbeSerialTypeLen).sum)
    (hq : q.length = ((row.map (serialTypeOf fileFormat)).map sqlite3VdbeSerialTypeLen).sum)
    (hpv : payloadCells (row.map (serialTypeOf fileFormat)) p = row.map Mem.value)
    (hqv : payloadCells (row.map (serialTypeOf fileFormat)) q = row.map Mem.value) : p = q := by
  induction row generalizing p q with
  | nil =>
    simp only [List.map_nil, List.sum_nil, List.length_eq_zero_iff] at hp hq
    rw [hp, hq]
  | cons m row ih =>
    simp only [List.map_cons, List.sum_cons, payloadCells, List.cons.injEq] at hp hq hpv hqv
    set t := serialTypeOf fileFormat m
    have htail := ih (by rw [List.length_drop]; omega) (by rw [List.length_drop]; omega) hpv.2 hqv.2
    have hhead : p.take (sqlite3VdbeSerialTypeLen t) = q.take (sqlite3VdbeSerialTypeLen t) := by
      have hpt : (p.take (sqlite3VdbeSerialTypeLen t)).length = sqlite3VdbeSerialTypeLen t := by
        rw [List.length_take]
        omega
      have hqt : (q.take (sqlite3VdbeSerialTypeLen t)).length = sqlite3VdbeSerialTypeLen t := by
        rw [List.length_take]
        omega
      refine @serialGet_injective t _ _ hpt hqt (p.drop (sqlite3VdbeSerialTypeLen t))
        (q.drop (sqlite3VdbeSerialTypeLen t)) ?_ ?_
      · rw [List.take_append_drop, List.take_append_drop, hpv.1, hqv.1]
      · intro h7
        rw [List.take_append_drop, hpv.1, value_of_real_type h7]
        simp
    rw [← List.take_append_drop (sqlite3VdbeSerialTypeLen t) p, hhead, htail, List.take_append_drop]

/-- A row of plain cells whose record stays below `2^31` bytes, with its tails: sizes are `int`. -/
structure Makeable (fileFormat : ℕ) (row : List Mem) : Prop where
  plain : ∀ m ∈ row, m.Plain
  size : declaredSize fileFormat row < 2^31

/-- Moreover the record that is made of the row fits a packet. -/
structure Sendable (fileFormat : ℕ) (toDouble : BitVec 64 → BitVec 64) (row : List Mem) : Prop
    extends Makeable fileFormat row where
  fits : ∀ garbage,
    9 + (makeSsdRecord fileFormat toDouble row.length row garbage).nByte ≤ payloadSize

variable {row : List Mem}

lemma Makeable.types (h : Makeable fileFormat row) : ∀ m ∈ row, serialTypeOf fileFormat m < 2^32 :=
  fun _ hm => serialTypeOf_lt h.size hm

lemma Makeable.intReal (h : Makeable fileFormat row) : ∀ m ∈ row, m.intReal = false :=
  fun m hm => (h.plain m hm).intReal

lemma Makeable.nHdr_lt (h : Makeable fileFormat row) (garbage : Garbage) :
    (makeSsdRecord fileFormat toDouble row.length row garbage).nHdr < 2^31 :=
  (makeSsdRecord_sizes h.intReal h.size garbage).2.1

lemma Makeable.made (h : Makeable fileFormat row) (garbage : Garbage) :
    Made fileFormat row garbage (makeSsdRecord fileFormat toDouble row.length row garbage) :=
  makeSsdRecord_made h.intReal h.types garbage (h.nHdr_lt garbage)

/-- Without tails the record has the size of its parts. -/
lemma Makeable.nByte_eq (h : Makeable fileFormat row) (htail : ∀ m ∈ row, m.tail = 0)
    (garbage : Garbage) :
    (makeSsdRecord fileFormat toDouble row.length row garbage).nByte =
      encodedSize fileFormat row := by
  have made :
      Made fileFormat row garbage (makeSsdRecord fileFormat toDouble row.length row garbage) :=
    h.made garbage
  obtain ⟨hbyte, -⟩ := made.complete htail
  rw [hbyte, (makeSsdRecord_sizes h.intReal h.size garbage).1, encodedSize, payloadOf,
    length_flatten_map]

/-- A row that survives has a record that fits. -/
lemma Makeable.sendable (h : Makeable fileFormat row) (hsurv : Survives fileFormat toDouble row) :
    Sendable fileFormat toDouble row := by
  refine ⟨h, fun garbage => ?_⟩
  by_contra hlong
  have made :
      Made fileFormat row garbage (makeSsdRecord fileFormat toDouble row.length row garbage) :=
    h.made garbage
  obtain ⟨-, -, hbyte⟩ := @makeSsdRecord_sizes fileFormat toDouble row h.intReal h.size garbage
  have hlen := made.length
  have hsize := h.size
  obtain ⟨m, hm, -⟩ :=
    hsurv garbage 0 0 (List.replicate payloadSize 0) row.length List.length_replicate le_rfl
  rw [hostRecords_too_long (by omega) (by omega) 0 0 List.length_replicate] at hm
  cases hm

/-- The record bytes on the host are the bytes that were made. -/
lemma Sendable.arrives (h : Sendable fileFormat toDouble row) (garbage : Garbage) (szMalloc : ℕ)
    (after : UInt8) {stale : List UInt8} (hs : stale.length = payloadSize) :
    let r := makeSsdRecord fileFormat toDouble row.length row garbage
    ∃ m, hostRecords r szMalloc after stale = some [m] ∧ m.bytes = r.written.buf ∧
      m.bytes.length = r.nByte := by
  intro r
  have made : Made fileFormat row garbage r := h.made garbage
  have hlen := made.length
  have hfit : 9 + r.written.buf.length ≤ payloadSize := by
    rw [hlen]
    exact h.fits garbage
  obtain ⟨m, hm, hbytes⟩ := hostRecords_eq hfit szMalloc after hs
  exact ⟨m, hm, hbytes, hbytes ▸ hlen⟩

lemma Sendable.survives (h : Sendable fileFormat toDouble row) (htail : ∀ m ∈ row, m.tail = 0) :
    Survives fileFormat toDouble row := by
  intro garbage szMalloc after stale nField hs hn
  obtain ⟨m, hm, hbytes, hlen⟩ := h.arrives garbage szMalloc after hs
  refine ⟨m, hm, ?_, ?_⟩
  · obtain ⟨hbyte, hbuf⟩ := (h.made garbage).complete htail
    rw [hlen, hbytes, hbuf,
      declaredLength_headerOf h.types (h.nHdr_lt garbage) (h.made garbage).nHdr, hbyte,
      payloadOf_length h.plain htail]
  · obtain ⟨-, hbuf⟩ := (h.made garbage).complete htail
    rw [hbytes, hbuf, unpack_headerOf h.types (h.nHdr_lt garbage) (h.made garbage).nHdr
      (payloadOf_length h.plain htail) hn, payloadCells_payloadOf h.plain htail]

/-- What arrives when the row survives: the bytes that were reserved for the tails have the
announced number, and together with the contents they are read as the row. -/
lemma Sendable.garbage_read (h : Sendable fileFormat toDouble row)
    (hsurv : Survives fileFormat toDouble row) (garbage : Garbage) :
    let r := makeSsdRecord fileFormat toDouble row.length row garbage
    let rest := (garbage r.nByte).val.drop (r.nHdr + (payloadOf fileFormat row).length)
    rest.length = (row.map Mem.tail).sum ∧
      payloadCells (row.map (serialTypeOf fileFormat)) (payloadOf fileFormat row ++ rest) =
      row.map Mem.value := by
  intro r rest
  have made : Made fileFormat row garbage r := h.made garbage
  obtain ⟨m, hm, hlength, hvalues⟩ := hsurv garbage 0 0 (List.replicate payloadSize 0) row.length
    List.length_replicate le_rfl
  obtain ⟨m', hm', hbytes, hlen⟩ :=
    h.arrives garbage 0 0 (List.length_replicate (n := payloadSize) (a := 0))
  obtain rfl : m = m' := by simpa using hm.symm.trans hm'
  have hbuf : m.bytes = headerOf fileFormat row r.nHdr ++ (payloadOf fileFormat row ++ rest) := by
    rw [hbytes, made.buf, List.append_assoc]
  have hdeclared :
      r.nByte = r.nHdr + ((payloadOf fileFormat row).length + (row.map Mem.tail).sum) := by
    rw [← hlen, hlength, hbuf, declaredLength_headerOf h.types (h.nHdr_lt garbage) made.nHdr,
      declared_sum h.plain]
  have hrest : rest.length = (row.map Mem.tail).sum := by
    rw [List.length_drop, (garbage r.nByte).2]
    omega
  refine ⟨hrest, ?_⟩
  rw [hbuf, unpack_headerOf h.types (h.nHdr_lt garbage) made.nHdr
    (by rw [List.length_append, hrest, declared_sum h.plain]) le_rfl] at hvalues
  exact hvalues

/-- A row that is sent whole and survives has no zero-filled tail: the bytes reserved for tails keep
what the allocation held, and only one content can be right. -/
lemma Sendable.tails_empty (h : Sendable fileFormat toDouble row)
    (hsurv : Survives fileFormat toDouble row) : ∀ m ∈ row, m.tail = 0 := by
  obtain ⟨hlen0, hread0⟩ := h.garbage_read hsurv fun n => ⟨List.replicate n 0, by simp⟩
  obtain ⟨hlen1, hread1⟩ := h.garbage_read hsurv fun n => ⟨List.replicate n 1, by simp⟩
  have hsame := payload_unique
    (by rw [List.length_append, hlen0, declared_sum h.plain])
    (by rw [List.length_append, hlen1, declared_sum h.plain]) hread0 hread1
  rw [List.append_cancel_left_eq, List.drop_replicate, List.drop_replicate,
    List.replicate_inj] at hsame
  simp only [List.drop_replicate, List.length_replicate] at hlen0
  have hsum : (row.map Mem.tail).sum = 0 := by
    rcases hsame.2 with h0 | h0
    · omega
    · simp at h0
  rw [List.sum_eq_zero_iff] at hsum
  simpa using hsum

/-- Exactly the rows without a nonempty zero-filled tail whose record fits a packet survive. -/
theorem zero_rows_survive_iff (h : Makeable fileFormat row) :
    Survives fileFormat toDouble row ↔
      (∀ m ∈ row, m.tail = 0) ∧ 9 + encodedSize fileFormat row ≤ payloadSize := by
  constructor
  · intro hsurv
    have hsend := h.sendable hsurv
    have htail := hsend.tails_empty hsurv
    refine ⟨htail, ?_⟩
    rw [← h.nByte_eq htail fun n => ⟨List.replicate n 0, by simp⟩]
    exact hsend.fits _
  · rintro ⟨htail, hfit⟩
    have hsend : Sendable fileFormat toDouble row := ⟨h, fun garbage => by rwa [h.nByte_eq htail]⟩
    exact hsend.survives htail

/-- The cell of `zeroblob(k)` behind the bytes `z`. -/
def zeroBlob (z : List UInt8) (k : ℕ) (h : z.length + k < 2^31) : Mem :=
  ⟨false, false, false, false, true, false, true, 0, k, z, h⟩

lemma zeroBlob_plain {z : List UInt8} {k : ℕ} (h : z.length + k < 2^31) : (zeroBlob z k h).Plain :=
  ⟨rfl, fun hr => by cases hr⟩

lemma sizes_zeroBlob : declaredSize 4 [zeroBlob [] 4 (by decide)] < 2^31 ∧
    declaredSize 4 (zeroBlob [1,2] 0 (by decide) :: sampleRow) < 2^31 := by decide

/-- A row of one blob that consists of a tail of four bytes: the record declares six bytes, and two
reach the host. -/
theorem zeroblob_truncated :
    Makeable 4 [zeroBlob [] 4 (by decide)] ∧ ¬ Survives 4 id [zeroBlob [] 4 (by decide)] := by
  have h : Makeable 4 [zeroBlob [] 4 (by decide)] :=
    ⟨by simpa using zeroBlob_plain _, sizes_zeroBlob.1⟩
  refine ⟨h, fun hsurv => ?_⟩
  let garbage : Garbage := fun n => ⟨List.replicate n 0, by simp⟩
  obtain ⟨m, hm, hlength, -⟩ :=
    hsurv garbage 0 0 (List.replicate payloadSize 0) 1 List.length_replicate le_rfl
  obtain ⟨m', hm', hbytes, -⟩ := (h.sendable hsurv).arrives garbage 0 0
    (List.length_replicate (n := payloadSize) (a := 0))
  obtain rfl : m = m' := by simpa using hm.symm.trans hm'
  have hmade : m.bytes = [2,20] := hbytes.trans (by decide)
  rw [hmade] at hlength
  exact absurd hlength (by decide)

/-- A blob whose tail is empty is transferred, with a null, an integer, a real number and a text
behind it. -/
theorem zero_rows_survive_empty_tail :
    Survives 4 id (zeroBlob [1,2] 0 (by decide) :: sampleRow) := by
  have h : Makeable 4 (zeroBlob [1,2] 0 (by decide) :: sampleRow) :=
    ⟨List.forall_mem_cons.mpr ⟨zeroBlob_plain _, sampleRow_plain⟩, sizes_zeroBlob.2⟩
  exact (zero_rows_survive_iff h).mpr ⟨by decide, by decide⟩

end IronSafe.Record
