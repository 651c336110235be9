import IronSafe.HostInsert
import IronSafe.PacketCodec

/-! The in-memory table of the host over a whole run of `consumer_func`: a packet at a time, with a
new cursor for each packet and the return codes of the insertions dropped. -/
namespace IronSafe.HostInsert
open Packet

/-- The flags of a deserialized record are those of a blob without a zero tail. -/
def memOf (m : HostMem) : Mem := ⟨m.z, m.n, false, 0⟩

/-- The database between two insertions and the number of insertions so far. The program keeps no
account of the codes that the insertions return: `added` lists the records for which the code was
zero. -/
structure Inserting where
  db : HostDb
  count : ℕ
  added : List HostMem

section Consumer

-- the B-tree as each insertion finds it
variable (calls : ℕ → Btree)

def Inserting.add (s : Inserting) (m : HostMem) : Inserting :=
  let (rc, db) := addRawRecord (calls s.count) s.db (memOf m)
  ⟨db, s.count+1, if rc = 0 then s.added ++ [m] else s.added⟩

/-- `pC = NULL` at the head of the loop. -/
def Inserting.newCursor (s : Inserting) : Inserting := { s with db := { s.db with cursor := none } }

/-- `consumer_func` over the batches it takes from the ring. A batch that is read past its end gives
`none`. -/
def consumerFunc (s : Inserting) : List RecordBatch → Option Inserting
  | [] => some s
  | b :: batches =>
    if b.pktType = .endPkt then some s
    else match batchDeserializeAdd b with
      | none => none
      | some records => consumerFunc (records.foldl (Inserting.add calls) s.newCursor) batches

end Consumer

/-- The records of all batches before the end packet. -/
def received : List RecordBatch → Option (List HostMem)
  | [] => some []
  | b :: batches =>
    if b.pktType = .endPkt then some []
    else do
      let records ← batchDeserializeAdd b
      let rest ← received batches
      pure (records ++ rest)

def emptyTable : Inserting := ⟨⟨∅, none⟩, 0, []⟩

/-- The rows of the table are the records, numbered from one. -/
def Numbered (table : Table) (records : List Record) : Prop :=
  ∀ v : Rowid, table.lookup v = if 0 < v.val then records[(v.val-1).toNat]? else none

/-- No call into the B-tree that decides about the record fails. -/
def Btree.Succeeds (env : Btree) : Prop := env.beginTrans = 0 ∧ env.cursor = 0 ∧ env.insert = 0

section Numbered

variable {table : Table} {records : List Record}

lemma numbered_nil : Numbered ∅ [] := by
  intro v
  simp

lemma Numbered.mem_iff (h : Numbered table records) (v : Rowid) :
    v ∈ table ↔ 0 < v.val ∧ v.val ≤ records.length := by
  rw [← Finmap.lookup_isSome, h v]
  split_ifs with hpos
  · rw [Option.isSome_iff_ne_none, ne_eq, List.getElem?_eq_none_iff]
    omega
  · simp [hpos]

lemma succ_range {n : ℕ} (h : (n : ℤ) < maxRowid) :
    -2^63 ≤ (n + 1 : ℤ) ∧ (n + 1 : ℤ) ≤ maxRowid := by
  omega

/-- The rowid behind `n` rows. -/
def nextRowid (n : ℕ) (h : (n : ℤ) < maxRowid) : Rowid := ⟨n + 1, succ_range h⟩

/-- The greatest rowid is the number of rows. -/
lemma Numbered.max_eq (h : Numbered table records) (hroom : (records.length : ℤ) < maxRowid)
    {v : Rowid} (hmax : table.keys.max = some v) : v.val = records.length := by
  have hin := (h.mem_iff v).mp (Finmap.mem_keys.mp (Finset.mem_of_max hmax))
  have hlast : (⟨records.length, by omega⟩ : Rowid) ∈ table :=
    (h.mem_iff _).mpr ⟨by dsimp only; omega, le_rfl⟩
  have hle : ⟨records.length, by omega⟩ ≤ v := Finset.le_max_of_eq (Finmap.mem_keys.mpr hlast) hmax
  have hval : (records.length : ℤ) ≤ v.val := hle
  omega

/-- The rows are numbered on, without a random rowid. -/
lemma Numbered.newRowid {env : Btree} (h : Numbered table records) (hlast : env.last = 0)
    (hroom : (records.length : ℤ) < maxRowid) :
    getNewRowid env table false = (nextRowid records.length hroom, false) := by
  simp only [getNewRowid, Bool.false_eq_true, if_false, hlast, ne_eq, not_true_eq_false]
  split
  · rename_i hmax
    have hnil : records.length = 0 := by
      by_contra hne
      have hone : rowidOne ∈ table :=
        (h.mem_iff rowidOne).mpr ⟨by simp [rowidOne], by simp only [rowidOne]; omega⟩
      rw [← Finmap.mem_keys, Finset.max_eq_bot.mp hmax] at hone
      exact Finset.notMem_empty _ hone
    simp [rowidOne, nextRowid, hnil]
  · rename_i v hmax
    have hv := h.max_eq hroom hmax
    rw [dif_pos (by omega)]
    simp [nextRowid, hv]

lemma Numbered.insert (h : Numbered table records) (hroom : (records.length : ℤ) < maxRowid)
    (record : Record) :
    Numbered (table.insert (nextRowid records.length hroom) record) (records ++ [record]) := by
  intro v
  by_cases hv : v = nextRowid records.length hroom
  · subst hv
    rw [Finmap.lookup_insert, if_pos (by simp only [nextRowid]; omega)]
    simp [nextRowid]
  · have hne : v.val ≠ records.length + 1 := fun he => hv (Subtype.ext he)
    rw [Finmap.lookup_insert_of_ne _ hv, h v]
    split_ifs with hpos
    · rcases Nat.lt_or_ge (v.val-1).toNat records.length with hlt | hge
      · rw [List.getElem?_append_left hlt]
      · have hbehind : (records ++ [record]).length ≤ (v.val-1).toNat := by
          rw [List.length_append, List.length_singleton]
          omega
        rw [List.getElem?_eq_none hge, List.getElem?_eq_none hbehind]
    · rfl

/-- The record was appended with code zero, or refused with another code and no change. The cursor
does not turn to random rowids. -/
def AppendedOrRefused (env : Btree) (table : Table) (records : List Record) (record : Record)
    (result : ℤ × HostDb) : Prop :=
  result.2.cursor ≠ some true ∧ ((result.1 = 0 ∧ Numbered result.2.table (records ++ [record])) ∨
    (result.1 ≠ 0 ∧ result.2.table = table ∧ ¬ env.Succeeds))

lemma Numbered.addAtCursor {env : Btree} (h : Numbered table records) (hlast : env.last = 0)
    (hroom : (records.length : ℤ) < maxRowid) (pData : Mem) :
    AppendedOrRefused env table records pData.record (addAtCursor env table false pData) := by
  simp only [HostInsert.addAtCursor, h.newRowid hlast hroom, insertRecord]
  split_ifs with hins
  · exact ⟨by simp, .inr ⟨hins, rfl, fun hs => hins hs.2.2⟩⟩
  · exact ⟨by simp, .inl ⟨rfl, h.insert hroom _⟩⟩

lemma Numbered.addRawRecord {env : Btree} {cursor : Option Bool} (h : Numbered table records)
    (hcursor : cursor ≠ some true) (hlast : env.last = 0) (hroom : (records.length : ℤ) < maxRowid)
    (pData : Mem) :
    AppendedOrRefused env table records pData.record (addRawRecord env ⟨table, cursor⟩ pData) := by
  have hopen := h.addAtCursor hlast hroom pData
  cases cursor with
  | some useRandomRowid =>
    cases useRandomRowid with
    | true => exact absurd rfl hcursor
    | false => exact hopen
  | none =>
    simp only [HostInsert.addRawRecord]
    split_ifs with hbegin hcur
    · exact ⟨hcursor, .inr ⟨by norm_num, rfl, fun hs => hbegin hs.1⟩⟩
    · exact ⟨hcursor, .inr ⟨by norm_num, rfl, fun hs => hcur hs.2.1⟩⟩
    · exact hopen

end Numbered

section Runs

variable {calls : ℕ → Btree} {s : Inserting} {records : List HostMem}

/-- After the insertions of `records`: the rows are the records that were added. -/
structure Inserted (calls : ℕ → Btree) (s : Inserting) (records : List HostMem) : Prop where
  rows : Numbered s.db.table (s.added.map HostMem.bytes)
  cursor : s.db.cursor ≠ some true
  added : s.added.Sublist records
  all : (∀ i, (calls i).Succeeds) → s.added = records

lemma memOf_record (m : HostMem) : (memOf m).record = m.bytes := by
  simp [memOf, Mem.record, HostMem.bytes]

lemma inserted_emptyTable : Inserted calls emptyTable [] where
  rows := numbered_nil
  cursor := (Option.some_ne_none true).symm
  added := .slnil
  all _ := rfl

lemma Inserted.newCursor (h : Inserted calls s records) : Inserted calls s.newCursor records where
  rows := h.rows
  cursor := (Option.some_ne_none true).symm
  added := h.added
  all := h.all

lemma Inserted.add (h : Inserted calls s records) (hlast : ∀ i, (calls i).last = 0)
    (hroom : (records.length : ℤ) < maxRowid) (m : HostMem) :
    Inserted calls (s.add calls m) (records ++ [m]) := by
  have hlen := h.added.length_le
  have hrows : ((s.added.map HostMem.bytes).length : ℤ) < maxRowid := by
    rw [List.length_map]
    omega
  obtain ⟨hcursor, hadd⟩ := h.rows.addRawRecord h.cursor (hlast s.count) hrows (memOf m)
  rw [memOf_record] at hadd
  rcases hadd with ⟨hrc, hnum⟩ | ⟨hrc, htable, hfail⟩
  · have hs : (s.add calls m).added = s.added ++ [m] := by simp [Inserting.add, hrc]
    refine ⟨?_, hcursor, hs ▸ h.added.append_right [m], fun hall => by rw [hs, h.all hall]⟩
    rw [hs, List.map_append]
    exact hnum
  · have hs : (s.add calls m).added = s.added := by simp [Inserting.add, hrc]
    refine ⟨?_, hcursor, hs ▸ h.added.trans (List.sublist_append_left _ _),
      fun hall => absurd (hall _) hfail⟩
    rw [hs]
    exact htable.symm ▸ h.rows

/-- The records of one batch. -/
lemma Inserted.foldl (h : Inserted calls s records) (hlast : ∀ i, (calls i).last = 0)
    (batch : List HostMem) (hroom : ((records ++ batch).length : ℤ) ≤ maxRowid) :
    Inserted calls (batch.foldl (Inserting.add calls) s) (records ++ batch) := by
  induction batch generalizing s records with
  | nil => simpa using h
  | cons m batch ih =>
    rw [List.append_cons] at hroom ⊢
    refine ih (h.add hlast ?_ m) hroom
    simp only [List.length_append, List.length_singleton] at hroom
    omega

lemma Inserted.consumerFunc (h : Inserted calls s records) (hlast : ∀ i, (calls i).last = 0)
    {batches : List RecordBatch} {rest : List HostMem} (hrest : received batches = some rest)
    (hroom : ((records ++ rest).length : ℤ) ≤ maxRowid) :
    ∃ s', consumerFunc calls s batches = some s' ∧ Inserted calls s' (records ++ rest) := by
  induction batches generalizing s records rest with
  | nil =>
    cases hrest
    exact ⟨s, rfl, by simpa using h⟩
  | cons b batches ih =>
    simp only [received] at hrest
    simp only [HostInsert.consumerFunc]
    split_ifs at hrest ⊢ with hend
    · cases hrest
      exact ⟨s, rfl, by simpa using h⟩
    · obtain ⟨batch, hbatch, hrest⟩ := Option.bind_eq_some_iff.mp hrest
      obtain ⟨more, hmore, hrest⟩ := Option.bind_eq_some_iff.mp hrest
      cases hrest
      rw [hbatch]
      rw [← List.append_assoc] at hroom ⊢
      refine ih (h.newCursor.foldl hlast batch ?_) hmore hroom
      rw [List.length_append] at hroom
      omega

end Runs

/-- As long as `sqlite3BtreeLast` does not fail and the rowids last, the run over the batches ends,
and its table holds exactly the records whose insertion returned zero, in the order of arrival and
under the rowids from one on without a gap, across all packets. If no call fails, the rows are all
the records received. -/
theorem consumer_rows_numbered (calls : ℕ → Btree) (hlast : ∀ i, (calls i).last = 0)
    (batches : List RecordBatch) (records : List HostMem)
    (hreceived : received batches = some records) (hroom : (records.length : ℤ) ≤ maxRowid) :
    ∃ s, consumerFunc calls emptyTable batches = some s ∧
      Numbered s.db.table (s.added.map HostMem.bytes) ∧
      s.added.Sublist records ∧ ((∀ i, (calls i).Succeeds) → s.added = records) := by
  have hstart : Inserted calls emptyTable [] := inserted_emptyTable
  obtain ⟨s, hs, hins⟩ := hstart.consumerFunc hlast hreceived hroom
  exact ⟨s, hs, hins.rows, hins.added, hins.all⟩

/-- Two packets of one record each and the end packet. -/
def twoPackets : List RecordBatch :=
  [⟨.recPkt, 1, [1,0,0,0,0,0,0,0,7,0]⟩, ⟨.recPkt, 1, [1,0,0,0,0,0,0,0,8,0]⟩, ⟨.endPkt, 0, []⟩]

lemma one_lt_maxRowid : ((1 : ℕ) : ℤ) < maxRowid := by norm_num [maxRowid]

/-- The record of the second packet has the rowid behind that of the first. -/
theorem consumer_rows_numbered_two :
    ∃ s, consumerFunc (fun _ => zeroRandom) emptyTable twoPackets = some s ∧
    s.db.table.lookup rowidOne = some [7] ∧
      s.db.table.lookup (nextRowid 1 one_lt_maxRowid) = some [8] := by
  obtain ⟨s, hs, hrows, -, hall⟩ :=
    consumer_rows_numbered (fun _ => zeroRandom) (fun _ => rfl) twoPackets
    [⟨1,0,[7,0]⟩, ⟨1,0,[8,0]⟩] (by decide) (by norm_num [maxRowid])
  rw [hall fun _ => ⟨rfl, rfl, rfl⟩] at hrows
  exact ⟨s, hs, hrows _, hrows _⟩

end IronSafe.HostInsert
