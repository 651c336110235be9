import Mathlib

/-! Insertion of a received record into the in-memory table of the host. A table is a finite map
from rowid to record; the calls into the B-tree may each fail, and the random numbers are given. -/
namespace IronSafe.HostInsert

def maxRowid : ℤ := 2^63-1

/-- A signed number of 64 bits. -/
abbrev Rowid := {v : ℤ // -2^63 ≤ v ∧ v ≤ maxRowid}

abbrev Record := List UInt8

abbrev Table := Finmap fun _ : Rowid => Record

/-- The fields of a `Mem` that are inserted; `memZero` is the flag that says whether `nZero`
counts. -/
structure Mem where
  z : List UInt8
  n : ℕ
  memZero : Bool
  nZero : ℕ

/-- The record that an insertion of the value stores. -/
def Mem.record (pData : Mem) : Record :=
  pData.z.take pData.n ++ List.replicate (if pData.memZero then pData.nZero else 0) 0

/-- The result codes of the calls into the B-tree, one for each search, and the numbers that
`sqlite3_randomness` gives. -/
structure Btree where
  beginTrans : ℤ
  cursor : ℤ
  last : ℤ
  movetoUnpacked : ℕ → ℤ
  insert : ℤ
  randomness : ℕ → UInt64

lemma rowidOne_range : -2^63 ≤ (1 : ℤ) ∧ 1 ≤ maxRowid := by norm_num [maxRowid]

lemma rowidError_range : -2^63 ≤ (-1 : ℤ) ∧ -1 ≤ maxRowid := by norm_num [maxRowid]

lemma candidate_range (r : ℕ) :
    -2^63 ≤ ((r % 2^62 : ℕ) + 1 : ℤ) ∧ ((r % 2^62 : ℕ) + 1 : ℤ) ≤ maxRowid := by
  have := Nat.mod_lt r (Nat.two_pow_pos 62)
  simp only [maxRowid]
  omega

lemma Rowid.succ_range (v : Rowid) (h : v.val < maxRowid) :
    -2^63 ≤ v.val + 1 ∧ v.val + 1 ≤ maxRowid := by
  have := v.2
  omega

def rowidOne : Rowid := ⟨1, rowidOne_range⟩

/-- What `GetNewRowid` returns for an error. -/
def rowidError : Rowid := ⟨-1, rowidError_range⟩

/-- `v &= (MAX_ROWID>>1); v++`. -/
def candidate (r : UInt64) : Rowid := ⟨(r.toNat % 2^62 : ℕ) + 1, candidate_range r.toNat⟩

variable (env : Btree)

/-- The loop over random candidates with `left` tries left. -/
def probe (table : Table) : ℕ → ℕ → Rowid
  | 0, _ => rowidError
  | left+1, cnt =>
    if env.movetoUnpacked cnt ≠ 0 then rowidError
    else if candidate (env.randomness cnt) ∈ table then probe table left (cnt+1)
    else candidate (env.randomness cnt)

/-- The new rowid and the flag `useRandomRowid` of the cursor. -/
def getNewRowid (table : Table) (useRandomRowid : Bool) : Rowid × Bool :=
  if useRandomRowid then (probe env table 100 0, true)
  else if env.last ≠ 0 then (rowidError, false)
  else match table.keys.max with
    | none => (rowidOne, false)
    | some v =>
      if h : v.val < maxRowid then (⟨v.val+1, Rowid.succ_range v h⟩, false)
      else (probe env table 100 0, true)

def insertRecord (table : Table) (v : Rowid) (pData : Mem) : ℤ × Table :=
  if env.insert ≠ 0 then (env.insert, table) else (0, table.insert v pData.record)

/-- The table and the flag of the write cursor, if it is open. -/
structure HostDb where
  table : Table
  cursor : Option Bool

def addAtCursor (table : Table) (useRandomRowid : Bool) (pData : Mem) : ℤ × HostDb :=
  let (v, useRandomRowid) := getNewRowid env table useRandomRowid
  let (rc, table) := insertRecord env table v pData
  (rc, ⟨table, some useRandomRowid⟩)

def addRawRecord (db : HostDb) (pData : Mem) : ℤ × HostDb :=
  match db.cursor with
  | some useRandomRowid => addAtCursor env db.table useRandomRowid pData
  | none =>
    if env.beginTrans ≠ 0 then (1, db)
    else if env.cursor ≠ 0 then (-1, db)
    else addAtCursor env db.table false pData

/-- The record is added under a new positive rowid and no other row changes. -/
def AddsRow (table table' : Table) (record : Record) : Prop :=
  ∃ v : Rowid, 0 < v.val ∧ v ∉ table ∧ table'.lookup v = some record ∧
    ∀ w, w ≠ v → table'.lookup w = table.lookup w

/-- One new row, or an error code and no change. -/
def AddsOneOrNone (db : HostDb) (pData : Mem) : Prop :=
  AddsRow db.table (addRawRecord env db pData).2.table pData.record ∨
    ((addRawRecord env db pData).1 ≠ 0 ∧ (addRawRecord env db pData).2.table = db.table)

/-- The greatest rowid leaves room for a positive one behind it. -/
def Appends (table : Table) : Prop :=
  env.last = 0 ∧ ∀ v : Rowid, table.keys.max = some v → 0 ≤ v.val ∧ v.val < maxRowid

/-- The table is full at its end. -/
def AtEnd (table : Table) : Prop :=
  env.last = 0 ∧ ∃ v : Rowid, table.keys.max = some v ∧ v.val = maxRowid

/-- One of the next `left` candidates is free, and no search up to it fails. -/
def Probes (table : Table) (left cnt : ℕ) : Prop :=
  ∃ k < left, (∀ i ≤ k, env.movetoUnpacked (cnt+i) = 0) ∧
    (∀ i < k, candidate (env.randomness (cnt+i)) ∈ table) ∧
    candidate (env.randomness (cnt+k)) ∉ table

/-- A positive rowid that is not in the table is found. -/
def Finds (table : Table) (useRandomRowid : Bool) : Prop :=
  if useRandomRowid then Probes env table 100 0 else Appends env table ∨
    (AtEnd env table ∧ Probes env table 100 0)

section Rowids

variable {env} {table : Table} {useRandomRowid : Bool}

lemma candidate_pos (r : UInt64) : 0 < (candidate r).val := by
  simp only [candidate]
  omega

lemma probes_succ {left cnt : ℕ} : Probes env table (left+1) cnt ↔ env.movetoUnpacked cnt = 0 ∧
    (candidate (env.randomness cnt) ∈ table → Probes env table left (cnt+1)) := by
  constructor
  · rintro ⟨k, hk, hmove, htaken, hfree⟩
    refine ⟨hmove 0 (by omega), fun hin => ?_⟩
    cases k with
    | zero => exact absurd hin hfree
    | succ k =>
      have hshift : ∀ i, cnt+1+i = cnt+(i+1) := fun i => by omega
      refine ⟨k, by omega, fun i hi => ?_, fun i hi => ?_, ?_⟩
      · rw [hshift]
        exact hmove (i+1) (by omega)
      · rw [hshift]
        exact htaken (i+1) (by omega)
      · rw [hshift]
        exact hfree
  · rintro ⟨hmove, hnext⟩
    by_cases hin : candidate (env.randomness cnt) ∈ table
    · obtain ⟨k, hk, hmoves, htaken, hfree⟩ := hnext hin
      have hshift : ∀ i, cnt+(i+1) = cnt+1+i := fun i => by omega
      refine ⟨k+1, by omega, fun i hi => ?_, fun i hi => ?_, by rwa [hshift]⟩
      · cases i with
        | zero => exact hmove
        | succ i =>
          rw [hshift]
          exact hmoves i (by omega)
      · cases i with
        | zero => exact hin
        | succ i =>
          rw [hshift]
          exact htaken i (by omega)
    · exact ⟨0, by omega, fun i hi => by rwa [Nat.le_zero.mp hi], fun i hi => by omega, hin⟩

lemma probe_found {left cnt : ℕ} (h : Probes env table left cnt) :
    0 < (probe env table left cnt).val ∧ probe env table left cnt ∉ table := by
  induction left generalizing cnt with
  | zero =>
    obtain ⟨k, hk, -⟩ := h
    omega
  | succ left ih =>
    obtain ⟨hmove, hnext⟩ := probes_succ.mp h
    rw [probe, if_neg (not_not.mpr hmove)]
    split_ifs with hin
    · exact ih (hnext hin)
    · exact ⟨candidate_pos _, hin⟩

lemma probe_error {left cnt : ℕ} (h : ¬ Probes env table left cnt) :
    probe env table left cnt = rowidError := by
  induction left generalizing cnt with
  | zero => rfl
  | succ left ih =>
    rw [probes_succ] at h
    rw [probe]
    split_ifs with hmove hin
    · rfl
    · exact ih fun hnext => h ⟨not_not.mp hmove, fun _ => hnext⟩
    · exact absurd ⟨not_not.mp hmove, fun hc => absurd hc hin⟩ h

lemma getNewRowid_found (h : Finds env table useRandomRowid) :
    0 < (getNewRowid env table useRandomRowid).1.val ∧
      (getNewRowid env table useRandomRowid).1 ∉ table := by
  cases useRandomRowid with
  | true => exact probe_found h
  | false =>
    have hlast : env.last = 0 := by
      rcases h with h | h
      · exact h.1
      · exact h.1.1
    simp only [getNewRowid, Bool.false_eq_true, if_false, hlast, ne_eq, not_true_eq_false]
    split
    · rename_i hmax
      refine ⟨Int.one_pos, ?_⟩
      rw [← Finmap.mem_keys, Finset.max_eq_bot.mp hmax]
      exact Finset.notMem_empty _
    · rename_i v hmax
      split_ifs with hlt
      · refine ⟨?_, fun hin => ?_⟩
        · rcases h with h | ⟨⟨-, w, hw, hwmax⟩, -⟩
          · have := (h.2 v hmax).1
            dsimp only
            omega
          · rw [hmax] at hw
            cases hw
            omega
        · have hle : ⟨v.val+1, Rowid.succ_range v hlt⟩ ≤ v :=
            Finset.le_max_of_eq (Finmap.mem_keys.mpr hin) hmax
          exact absurd (Subtype.coe_le_coe.mpr hle) (by simp)
      · rcases h with h | ⟨-, h⟩
        · exact absurd (h.2 v hmax).2 hlt
        · exact probe_found h

lemma getNewRowid_error (h : ¬ Finds env table useRandomRowid) :
    (getNewRowid env table useRandomRowid).1.val ≤ 0 := by
  have herror : rowidError.val ≤ 0 := by simp [rowidError]
  cases useRandomRowid with
  | true =>
    have hprobe : ¬ Probes env table 100 0 := h
    simpa [getNewRowid, probe_error hprobe] using herror
  | false =>
    have hcases : ¬ (Appends env table ∨ (AtEnd env table ∧ Probes env table 100 0)) := h
    simp only [getNewRowid, Bool.false_eq_true, if_false]
    split_ifs with hlast
    · exact herror
    · have hlast0 : env.last = 0 := not_not.mp hlast
      split
      · rename_i hmax
        exact absurd (.inl ⟨hlast0, fun v hv => by rw [hmax] at hv; cases hv⟩) hcases
      · rename_i v hmax
        have hunique : ∀ w : Rowid, table.keys.max = some w → w = v := fun w hw => by
          rw [hmax] at hw
          exact (Option.some.inj hw).symm
        split_ifs with hlt
        · by_contra hpos
          refine hcases (.inl ⟨hlast0, fun w hw => ?_⟩)
          rw [hunique w hw]
          dsimp only at hpos
          exact ⟨by omega, hlt⟩
        · have hend : AtEnd env table := ⟨hlast0, v, hmax, le_antisymm v.2.2 (not_lt.mp hlt)⟩
          rw [probe_error fun hprobe => hcases (.inr ⟨hend, hprobe⟩)]
          exact herror

/-- A row inserted into the table is a new row if its rowid is. -/
lemma addsRow_insert_iff {v : Rowid} {record : Record} :
    AddsRow table (table.insert v record) record ↔ 0 < v.val ∧ v ∉ table := by
  constructor
  · rintro ⟨w, hpos, hnew, hlookup, -⟩
    by_cases hwv : w = v
    · subst hwv
      exact ⟨hpos, hnew⟩
    · rw [Finmap.lookup_insert_of_ne table hwv, Finmap.lookup_eq_none.mpr hnew] at hlookup
      cases hlookup
  · rintro ⟨hpos, hnew⟩
    exact ⟨v, hpos, hnew, Finmap.lookup_insert table,
      fun w hw => Finmap.lookup_insert_of_ne table hw⟩

/-- An insertion at an open cursor. -/
lemma addAtCursor_iff (env : Btree) (table : Table) (useRandomRowid : Bool) (pData : Mem) :
    (AddsRow table (addAtCursor env table useRandomRowid pData).2.table pData.record ∨
      ((addAtCursor env table useRandomRowid pData).1 ≠ 0 ∧
        (addAtCursor env table useRandomRowid pData).2.table = table)) ↔
      env.insert ≠ 0 ∨ Finds env table useRandomRowid := by
  simp only [addAtCursor, insertRecord]
  by_cases hins : env.insert ≠ 0
  · simp [hins]
  · simp only [if_neg hins, addsRow_insert_iff]
    constructor
    · rintro (⟨hpos, -⟩ | ⟨hne, -⟩)
      · refine .inr ?_
        by_contra hfinds
        have := getNewRowid_error hfinds
        omega
      · exact absurd rfl hne
    · rintro (h | h)
      · exact absurd h hins
      · exact .inl (getNewRowid_found h)

end Rowids

/-- An insertion adds one new row or returns an error without a change if and only if the cursor
cannot be opened, the B-tree refuses the row, or a new positive rowid is found. Otherwise the row
goes under a rowid that is not positive. -/
theorem addRawRecord_adds_iff (env : Btree) (db : HostDb) (pData : Mem) :
    AddsOneOrNone env db pData ↔
    (db.cursor = none ∧ (env.beginTrans ≠ 0 ∨ env.cursor ≠ 0)) ∨ env.insert ≠ 0 ∨
      Finds env db.table (db.cursor.getD false) := by
  obtain ⟨table, cursor⟩ := db
  cases cursor with
  | some useRandomRowid =>
    simpa [AddsOneOrNone, addRawRecord] using addAtCursor_iff env table useRandomRowid pData
  | none =>
    simp only [AddsOneOrNone, addRawRecord]
    split_ifs with hbegin hcursor
    · simp [hbegin]
    · simp [hcursor]
    · rw [addAtCursor_iff]
      simp [hbegin, hcursor]

/-- All calls succeed except `sqlite3BtreeLast`. -/
def lastFails : Btree := ⟨0, 0, 1, fun _ => 0, 0, fun _ => 0⟩

/-- All calls succeed, and every random number is zero. -/
def zeroRandom : Btree := ⟨0, 0, 0, fun _ => 0, 0, fun _ => 0⟩

def sampleMem : Mem := ⟨[1,2,3], 2, false, 0⟩

lemma rowidMax_range : -2^63 ≤ maxRowid ∧ maxRowid ≤ maxRowid := by norm_num [maxRowid]

def rowidMax : Rowid := ⟨maxRowid, rowidMax_range⟩

/-- The greatest rowid is in use, and so is the first candidate. -/
def fullTable : Table := (Finmap.singleton rowidMax []).insert (candidate 0) []

lemma rowidMax_mem_fullTable : rowidMax ∈ fullTable := by simp [fullTable, Finmap.mem_insert]

lemma not_probes_fullTable : ¬ Probes zeroRandom fullTable 100 0 := by
  rintro ⟨k, -, -, -, hfree⟩
  exact hfree (by simp [fullTable, Finmap.mem_insert, zeroRandom])

lemma not_appends_fullTable : ¬ Appends zeroRandom fullTable := by
  rintro ⟨-, h⟩
  obtain ⟨v, hv⟩ := Finset.max_of_mem (Finmap.mem_keys.mpr rowidMax_mem_fullTable)
  have hle : rowidMax ≤ v := Finset.le_max_of_eq (Finmap.mem_keys.mpr rowidMax_mem_fullTable) hv
  exact absurd (h v hv).2 (not_lt.mpr hle)

/-- After an error of `sqlite3BtreeLast` the row goes under rowid -1 and the call returns zero. The
same happens in a table that is full at its end when all hundred candidates are taken. -/
theorem row_under_minus_one :
    (addRawRecord lastFails ⟨∅, some false⟩ sampleMem).1 = 0 ∧
      (addRawRecord lastFails ⟨∅, some false⟩ sampleMem).2.table.lookup rowidError = some [1,2] ∧
      ¬ AddsOneOrNone lastFails ⟨∅, some false⟩ sampleMem ∧
      ¬ AddsOneOrNone zeroRandom ⟨fullTable, some false⟩ sampleMem := by
  refine ⟨rfl, ?_, fun h => ?_, fun h => ?_⟩
  · exact Finmap.lookup_insert ∅
  · rcases (addAtCursor_iff lastFails ∅ false sampleMem).mp h with h | h | h
    · exact h rfl
    · exact absurd h.1 one_ne_zero
    · exact absurd h.1.1 one_ne_zero
  · rcases (addAtCursor_iff zeroRandom fullTable false sampleMem).mp h with h | h | h
    · exact h rfl
    · exact not_appends_fullTable h
    · exact not_probes_fullTable h.2

end IronSafe.HostInsert
