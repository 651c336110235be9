import IronSafe.RecordDecode

/-! A record made of a row without zero-filled tails is read back as the row. -/
namespace IronSafe.Record
open Bytes BigEndian

variable {fileFormat : ℕ} {toDouble : BitVec 64 → BitVec 64}

/-- A cell that the sizing pass leaves in its form and whose real is not a NaN. -/
structure Mem.Plain (m : Mem) : Prop where
  intReal : m.intReal = false
  notNaN : m.real = true → isNaN m.u = false

lemma content_length {m : Mem} (hm : m.Plain) (htail : m.tail = 0) :
    (contentOf fileFormat m).length = sqlite3VdbeSerialTypeLen (serialTypeOf fileFormat m) := by
  rw [← serialGet_len (contentOf fileFormat m ++ []), serialGet_content hm.notNaN htail]

/-- The payload of a row without tails is read back. -/
lemma payloadCells_payloadOf {row : List Mem} (hrow : ∀ m ∈ row, m.Plain)
    (htail : ∀ m ∈ row, m.tail = 0) :
    payloadCells (row.map (serialTypeOf fileFormat)) (payloadOf fileFormat row) =
      row.map Mem.value := by
  induction row with
  | nil => rfl
  | cons m row ih =>
    have hm := hrow m (by simp)
    have ht := htail m (by simp)
    have hrest := ih (fun x hx => hrow x (by simp [hx])) (fun x hx => htail x (by simp [hx]))
    have hsplit : payloadOf fileFormat (m :: row) = contentOf fileFormat m ++
        payloadOf fileFormat row := by
      simp [payloadOf]
    rw [List.map_cons, hsplit, payloadCells, serialGet_content hm.notNaN ht,
      List.drop_left' (content_length hm ht), hrest, List.map_cons]

lemma payloadOf_length {row : List Mem} (hrow : ∀ m ∈ row, m.Plain)
    (htail : ∀ m ∈ row, m.tail = 0) : (payloadOf fileFormat row).length =
      ((row.map (serialTypeOf fileFormat)).map sqlite3VdbeSerialTypeLen).sum := by
  rw [payloadOf, length_flatten_map, List.map_map]
  congr 1
  exact List.map_congr_left fun m hm => content_length (hrow m hm) (htail m hm)

lemma headerOf_eq (row : List Mem) (nHdr : ℕ) :
    headerOf fileFormat row nHdr =
      putVarint32 nHdr ++ ((row.map (serialTypeOf fileFormat)).map putVarint32).flatten := by
  rw [headerOf, List.map_map]
  rfl

/-- Without tails the record is header and payload, with no byte left over. -/
lemma Made.complete {row : List Mem} {garbage : Garbage} {r : MadeRecord}
    (h : Made fileFormat row garbage r) (htail : ∀ m ∈ row, m.tail = 0) :
    r.nByte = r.nHdr + (payloadOf fileFormat row).length ∧
      r.written.buf = headerOf fileFormat row r.nHdr ++ payloadOf fileFormat row := by
  have hsum : (row.map Mem.tail).sum = 0 := by
    rw [List.sum_eq_zero_iff]
    simpa using htail
  have hbytes := h.nByte
  have hfits := h.fits
  have hn : r.nByte = r.nHdr + (payloadOf fileFormat row).length := by omega
  refine ⟨hn, ?_⟩
  rw [h.buf, List.drop_of_length_le (by rw [(garbage r.nByte).2, hn]), List.append_nil]

/-- A record with the header of a row is unpacked into the cells of its payload. -/
lemma unpack_headerOf {row : List Mem} (hst : ∀ m ∈ row, serialTypeOf fileFormat m < 2^32)
    {nHdr : ℕ} (hlt : nHdr < 2^31) (hhdr : (headerOf fileFormat row nHdr).length = nHdr)
    {payload : List UInt8}
    (hpay : payload.length = ((row.map (serialTypeOf fileFormat)).map sqlite3VdbeSerialTypeLen).sum)
    {nField : ℕ} (hn : row.length ≤ nField) :
    sqlite3VdbeRecordUnpack nField (headerOf fileFormat row nHdr ++ payload) =
      payloadCells (row.map (serialTypeOf fileFormat)) payload := by
  rw [headerOf_eq] at hhdr ⊢
  exact recordUnpack_eq (by simpa using hst) (by omega) hhdr hpay (by simpa using hn)

/-- Size of a row's record, from the sizes of its parts. -/
def encodedSize (fileFormat : ℕ) (row : List Mem) : ℕ :=
  headerSize (row.map fun m => sqlite3VarintLen (serialTypeOf fileFormat m)).sum +
    (row.map fun m => (contentOf fileFormat m).length).sum

/-- Size of the record that the header of a row announces: the zero-filled tails count. -/
def declaredSize (fileFormat : ℕ) (row : List Mem) : ℕ :=
  encodedSize fileFormat row + (row.map Mem.tail).sum

/-- A record below the size limit has no serial type that overflows its word. -/
lemma serialTypeOf_lt {row : List Mem} (hsize : declaredSize fileFormat row < 2^31) {m : Mem}
    (hm : m ∈ row) : serialTypeOf fileFormat m < 2^32 := by
  cases hb : m.isBytes with
  | false =>
    exact (serialTypeOf_small hb).trans_lt (by omega)
  | true =>
    have hlen := m.size_int
    have htail := tail_le m
    have ht := @serialTypeOf_bytes fileFormat m hb
    have hstr : (if m.str then 1 else 0) ≤ 1 := by split_ifs <;> omega
    have hvar := varintLen_cases (v := serialTypeOf fileFormat m) (by omega)
    have hh := lt_headerSize (row.map fun m => sqlite3VarintLen (serialTypeOf fileFormat m)).sum
    have h1 : sqlite3VarintLen (serialTypeOf fileFormat m) ≤
        (row.map fun m => sqlite3VarintLen (serialTypeOf fileFormat m)).sum :=
      List.single_le_sum (by simp) _ (List.mem_map_of_mem hm)
    have h2 :
        (contentOf fileFormat m).length ≤ (row.map fun m => (contentOf fileFormat m).length).sum :=
      List.single_le_sum (by simp) _ (List.mem_map_of_mem hm)
    have h3 : m.tail ≤ (row.map Mem.tail).sum :=
      List.single_le_sum (by simp) _ (List.mem_map_of_mem hm)
    rw [content_bytes hb] at h2
    unfold declaredSize encodedSize at hsize
    omega

lemma declaredSize_eq {row : List Mem} (htail : ∀ m ∈ row, m.tail = 0) :
    declaredSize fileFormat row = encodedSize fileFormat row := by
  have hsum : (row.map Mem.tail).sum = 0 := by
    rw [List.sum_eq_zero_iff]
    simpa using htail
  rw [declaredSize, hsum, Nat.add_zero]

/-- The sizes that the sizing pass announces for a row: header and record without the tail of the
record. -/
lemma makeSsdRecord_sizes {row : List Mem} (hreal : ∀ m ∈ row, m.intReal = false)
    (hsize : declaredSize fileFormat row < 2^31) (garbage : Garbage) :
    let r := makeSsdRecord fileFormat toDouble row.length row garbage
    r.nHdr = headerSize (row.map fun m => sqlite3VarintLen (serialTypeOf fileFormat m)).sum ∧
      r.nHdr < 2^31 ∧ r.nByte + r.nZero = declaredSize fileFormat row := by
  intro r
  have hs : SizedBy fileFormat row (sizingPass fileFormat toDouble row) :=
    sizingPass_sized hreal fun m hm => serialTypeOf_lt hsize hm
  have hnHdr :
      r.nHdr = headerSize (row.map fun m => sqlite3VarintLen (serialTypeOf fileFormat m)).sum := by
    simp only [r, makeSsdRecord, List.take_length, hs.nHdr]
  have hdata := hs.nData
  rw [List.sum_map_add] at hdata
  have hnByte : r.nByte + r.nZero = r.nHdr + (sizingPass fileFormat toDouble row).nData +
      (sizingPass fileFormat toDouble row).nZero := by
    simp only [r, makeSsdRecord, List.take_length]
  have hall : r.nByte + r.nZero = declaredSize fileFormat row := by
    rw [hnByte, hnHdr, declaredSize, encodedSize]
    omega
  refine ⟨hnHdr, ?_, hall⟩
  rw [hnHdr]
  unfold declaredSize encodedSize at hsize
  omega

/-- Rows of NULLs, integers, reals, texts and blobs: header and record have exactly the sizes
that the sizing pass announced, and the record is read back as the row. -/
theorem record_roundtrip {row : List Mem} (hrow : ∀ m ∈ row, m.Plain)
    (hzero : ∀ m ∈ row, m.zero = false) (hsize : encodedSize fileFormat row < 2^31)
    (garbage : Garbage) {nField : ℕ} (hn : row.length ≤ nField) :
    let r := makeSsdRecord fileFormat toDouble row.length row garbage
    r.nByte = encodedSize fileFormat row ∧ r.written.zHdr = r.nHdr ∧ r.written.zPayload = r.nByte ∧
      r.written.buf.length = r.nByte ∧
      sqlite3VdbeRecordUnpack nField r.written.buf = row.map Mem.value := by
  have htail : ∀ m ∈ row, m.tail = 0 := fun m hm => by simp [Mem.tail, hzero m hm]
  have hreal : ∀ m ∈ row, m.intReal = false := fun m hm => (hrow m hm).intReal
  rw [← declaredSize_eq htail] at hsize
  have hst : ∀ m ∈ row, serialTypeOf fileFormat m < 2^32 := fun m hm => serialTypeOf_lt hsize hm
  intro r
  obtain ⟨hnHdr, hlt, -⟩ := makeSsdRecord_sizes hreal hsize garbage
  have made : Made fileFormat row garbage r := makeSsdRecord_made hreal hst garbage hlt
  obtain ⟨hbyte, hbuf⟩ := made.complete htail
  refine ⟨?_, made.zHdr, made.zPayload.trans hbyte.symm, ?_, ?_⟩
  · rw [hbyte, hnHdr, encodedSize, payloadOf, length_flatten_map]
  · rw [hbuf, List.length_append, made.nHdr, hbyte]
  · rw [hbuf]
    rw [unpack_headerOf hst hlt made.nHdr (payloadOf_length hrow htail) hn,
      payloadCells_payloadOf hrow htail]

def sampleRow : List Mem :=
  [⟨true, false, false, false, false, false, false, 0, 0, [], by decide⟩,
   ⟨false, false, true, false, false, false, false, -129, 0, [], by decide⟩,
   ⟨false, false, false, true, false, false, false, 0x3ff0000000000000, 0, [], by decide⟩,
   ⟨false, true, false, false, false, false, false, 0, 0, [97,98], by decide⟩]

lemma sampleRow_plain : ∀ m ∈ sampleRow, m.Plain := by
  simp only [sampleRow, List.forall_mem_cons, List.not_mem_nil, false_imp_iff, implies_true,
    and_true]
  exact ⟨⟨rfl, by decide⟩, ⟨rfl, by decide⟩, ⟨rfl, by decide⟩, ⟨rfl, by decide⟩⟩

theorem record_roundtrip_sample : encodedSize 4 sampleRow < 2^31 ∧
    sqlite3VdbeRecordUnpack 4
      (makeSsdRecord 4 id 4 sampleRow fun n => ⟨List.replicate n 0, by simp⟩).written.buf =
      [.null false, .int (-129), .real 0x3ff0000000000000, .text [97,98]] := by
  have hsize : encodedSize 4 sampleRow < 2^31 := by decide
  obtain ⟨-, -, -, -, h⟩ := @record_roundtrip 4 id sampleRow sampleRow_plain (by decide) hsize
    (fun n => ⟨List.replicate n 0, by simp⟩) 4 le_rfl
  exact ⟨hsize, h⟩

end IronSafe.Record
