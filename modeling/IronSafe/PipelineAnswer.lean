import IronSafe.PipelineProgress
import IronSafe.RecordRoundtrip

/-! What the host answers with. In every interleaving the records arrive once and in order. From every
state of a run the threads can be scheduled to an answer, and the records of an answer are read back
as the rows of the query, where only the first row can have lost fields. -/
namespace IronSafe.Pipeline
open Packet Record

variable {cfg : Config} {q : Query} {s : State}

/-- Rows that records can carry, one by one in a packet. -/
structure Transferable (cfg : Config) (q : Query) : Prop where
  plain : ∀ row ∈ q.rows, ∀ m ∈ row, m.Plain
  whole : ∀ row ∈ q.rows, ∀ m ∈ row, m.zero = false
  fits : ∀ row ∈ q.rows, ∀ nField ∈ [1, q.nCol],
    9 + encodedSize cfg.fileFormat (row.take nField) ≤ payloadSize

lemma makeSsdRecord_take (fileFormat : ℕ) (toDouble : BitVec 64 → BitVec 64) (nField : ℕ)
    (row : List Mem) (garbage : Garbage) : makeSsdRecord fileFormat toDouble nField row garbage =
      makeSsdRecord fileFormat toDouble (row.take nField).length (row.take nField) garbage := by
  rw [makeSsdRecord, makeSsdRecord, List.take_length]

/-- A record below the size limit is the header and the payload of its row. -/
lemma record_buf {row : List Mem} (hrow : ∀ m ∈ row, m.Plain) (htail : ∀ m ∈ row, m.tail = 0)
    (hsize : declaredSize cfg.fileFormat row < 2^31) (garbage : Garbage) :
    ∃ nHdr < 2^31, (headerOf cfg.fileFormat row nHdr).length = nHdr ∧
      nHdr + (payloadOf cfg.fileFormat row).length = encodedSize cfg.fileFormat row ∧
      (makeSsdRecord cfg.fileFormat cfg.toDouble row.length row garbage).written.buf =
        headerOf cfg.fileFormat row nHdr ++ payloadOf cfg.fileFormat row := by
  have hreal : ∀ m ∈ row, m.intReal = false := fun m hm => (hrow m hm).intReal
  obtain ⟨hnHdr, hlt, -⟩ := makeSsdRecord_sizes hreal hsize garbage
  have made : Record.Made cfg.fileFormat row garbage
      (makeSsdRecord cfg.fileFormat cfg.toDouble row.length row garbage) :=
    makeSsdRecord_made hreal (fun m hm => serialTypeOf_lt hsize hm) garbage hlt
  obtain ⟨-, hbuf⟩ := made.complete htail
  refine ⟨_, hlt, made.nHdr, ?_, hbuf⟩
  rw [hnHdr, encodedSize, payloadOf, length_flatten_map]

section Transferable

variable (h : Transferable cfg q)
include h

/-- The record of a row, made with either number of fields, fits a packet and is read back. -/
lemma Transferable.record {row : List Mem} (hrow : row ∈ q.rows) {nField : ℕ}
    (hn : nField ∈ [1, q.nCol]) (a : Alloc) :
    (serialize (cfg.record a nField row)).length ≤ payloadSize ∧ ∀ k, q.nCol ≤ k →
      sqlite3VdbeRecordUnpack k (cfg.record a nField row).z = (row.take nField).map Mem.value := by
  have hfit := h.fits row hrow nField hn
  have hplain : ∀ m ∈ row.take nField, m.Plain :=
    fun m hm => h.plain row hrow m (List.mem_of_mem_take hm)
  have htail : ∀ m ∈ row.take nField, m.tail = 0 := fun m hm => by
    simp [Mem.tail, h.whole row hrow m (List.mem_of_mem_take hm)]
  have hsize : declaredSize cfg.fileFormat (row.take nField) < 2^31 := by
    rw [declaredSize_eq htail]
    simp only [payloadSize, recvBufSize] at hfit
    omega
  have hst : ∀ m ∈ row.take nField, serialTypeOf cfg.fileFormat m < 2^32 :=
    fun m hm => serialTypeOf_lt hsize hm
  obtain ⟨nHdr, hlt, hhdr, hsum, hbuf⟩ := record_buf hplain htail hsize a.garbage
  have hz : (cfg.record a nField row).z =
      headerOf cfg.fileFormat (row.take nField) nHdr ++
      payloadOf cfg.fileFormat (row.take nField) := by
    rw [← hbuf, ← makeSsdRecord_take]
    rfl
  refine ⟨?_, fun k hk => ?_⟩
  · rw [serialize_length, SsdRecord.n, hz, List.length_append, hhdr, hsum]
    exact hfit
  · have hwidth : (row.take nField).length ≤ k := by
      have hcol := q.width row hrow
      rw [List.length_take]
      omega
    rw [hz, unpack_headerOf hst hlt hhdr (payloadOf_length hplain htail) hwidth,
      payloadCells_payloadOf hplain htail]

lemma Transferable.fitting : Fits cfg q := fun _ hrow a _ hn => (h.record hrow hn a).1

/-- Every state of a run can still go on. -/
lemma Transferable.ready (schedule : List Action) : Ready cfg q (run cfg q schedule) where
  inv := inv_run cfg q schedule
  fields := fieldsOk_run cfg q schedule
  made := (fieldsOk_run cfg q schedule).fits (inv_run cfg q schedule) h.fitting
  rest row hrow := ⟨default, h.fitting row (List.mem_of_mem_drop hrow) default q.nCol (by simp)⟩

end Transferable

lemma nullCell_size : ([] : List UInt8).length + 0 < 2^31 := by decide

def nullCell : Mem := ⟨true, false, false, false, false, false, false, 0, 0, [], nullCell_size⟩

/-- Rows of two columns: an integer, a null and a text, each with a text or an integer. -/
def threeRows : Query where
  nCol := 2
  rows := [[intCell, textCell], [nullCell, textCell], [textCell, intCell]]
  width := by simp
  failed := false

lemma threeRows_cells :
    ∀ row ∈ threeRows.rows, ∀ m ∈ row, m = intCell ∨ m = textCell ∨ m = nullCell := by
  simp [threeRows]

lemma transferable_threeRows : Transferable plainConfig threeRows where
  plain row hrow m hm := by
    rcases threeRows_cells row hrow m hm with rfl | rfl | rfl <;>
      exact ⟨rfl, by simp [intCell, textCell, nullCell]⟩
  whole row hrow m hm := by
    rcases threeRows_cells row hrow m hm with rfl | rfl | rfl <;> rfl
  fits := by decide

/-- Some interleaving ends with an answer. -/
lemma threeRows_answers : ∃ schedule, (run plainConfig threeRows schedule).answer.isSome :=
  (transferable_threeRows.ready []).answers

/-- In every interleaving the records arrive once and in order. No value is overwritten in a
ring before it is read, and no packet overflows. -/
theorem delivered_once_in_order {cfg : Config} {q : Query} (hfits : Fits cfg q)
    (schedule : List Action) :
    let s := run cfg q schedule
    s.mkRec.Wf mkRecPool ∧ s.pcs.Wf recPool ∧ s.pc.Wf bufPool ∧
    s.consumer.pc ≠ .crashed ∧ s.hostConsumer.pc ≠ .crashed ∧
    s.maker.made.map Made.row <+: q.rows ∧
    (∀ m ∈ s.maker.made, ∃ a, m.record = cfg.record a m.nField m.row) ∧
    s.hostConsumer.table.map HostMem.bytes <+: (s.maker.made.map fun m => m.record.z) ∧
    (s.hostConsumer.pc = .exited →
      s.hostConsumer.table.map HostMem.bytes = (s.maker.made.map fun m => m.record.z) ∧
      s.maker.made.map Made.row = q.rows) := by
  intro s
  have h : Inv q s := inv_run cfg q schedule
  have hfields : FieldsOk cfg q s := fieldsOk_run cfg q schedule
  refine ⟨h.mkRec, h.pcs, h.pc, h.not_crashed (hfields.fits h hfits), ?_, h.made_rows, ?_,
    h.inserted_prefix, fun hexit => h.inserted_all (by rw [hexit]; rfl)⟩
  · intro hpc
    have hphase := h.hostConsumer.phase
    rw [hpc] at hphase
    exact hphase
  · intro m hm
    obtain ⟨i, hi⟩ := List.mem_iff_getElem?.mp hm
    exact (hfields.made i m hi).2

/-- In an interleaving that ends with an answer, all three rows have been encoded and their records
lie in the table of the host. -/
theorem delivered_threeRows : ∃ schedule, (run plainConfig threeRows schedule).answer.isSome ∧
    (run plainConfig threeRows schedule).hostConsumer.table.length = 3 ∧
    (run plainConfig threeRows schedule).hostConsumer.table.map HostMem.bytes =
      ((run plainConfig threeRows schedule).maker.made.map fun m => m.record.z) := by
  obtain ⟨schedule, hsome⟩ := threeRows_answers
  obtain ⟨table, htable⟩ := Option.isSome_iff_exists.mp hsome
  obtain ⟨hexit, -⟩ := (inv_run plainConfig threeRows schedule).answer table htable
  obtain ⟨-, -, -, -, -, -, -, -, hall⟩ :=
    delivered_once_in_order transferable_threeRows.fitting schedule
  obtain ⟨hbytes, hrows⟩ := hall (HostConsumerPc.eq_exited hexit)
  have hlen := (congrArg List.length hbytes).trans (List.length_map _)
  rw [List.length_map, ← List.length_map (f := Made.row), hrows] at hlen
  exact ⟨schedule, hsome, hlen, hbytes⟩

end IronSafe.Pipeline
