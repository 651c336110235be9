import IronSafe.BigEndian
import IronSafe.RecordVarint

/-! `make_ssd_record`: a row of cells becomes a record, that is a header (its own size and one
serial type per cell) followed by the payloads. A sizing pass walks the cells backwards, a
writing pass fills the allocated buffer forwards; bytes that it does not write keep what the
allocation held. -/
namespace IronSafe.Record
open Bytes BigEndian

/-- A cell of a result row: its type flags, the value in the union (an integer or the bits
of a real in `u`, the length of a zero-filled tail in `nZero`) and the bytes at `z`. The
size of a text or blob with its tail is an `int`. -/
structure Mem where
  null : Bool
  str : Bool
  int : Bool
  real : Bool
  blob : Bool
  intReal : Bool
  zero : Bool
  u : BitVec 64
  nZero : ℕ
  z : List UInt8
  size_int : z.length + nZero < 2^31

/-- `~i` for negative `i`, else `i`. -/
def Mem.magnitude (m : Mem) : ℕ := if m.u.toInt < 0 then (~~~m.u).toNat else m.u.toNat

/-- State of the sizing pass; `cells` holds the cells seen so far with their `uTemp`. -/
structure Sizing where
  nHdr : ℕ
  nData : ℕ
  nZero : ℕ
  cells : List (Mem × ℕ)

/-- Serial type and size of an integer. -/
def intType (fileFormat : ℕ) (m : Mem) : ℕ × ℕ :=
  if m.magnitude ≤ 127 then
    if m.u &&& 1 = m.u ∧ 4 ≤ fileFormat then (8 + m.magnitude, 0) else (1,1)
  else if m.magnitude ≤ 32767 then (2,2)
  else if m.magnitude ≤ 8388607 then (3,3)
  else if m.magnitude ≤ 2147483647 then (4,4)
  else if m.magnitude ≤ 140737488355327 then (5,6)
  else (6,8)

/-- The sizing of a text or blob. -/
def sizeBytes (m : Mem) (s : Sizing) : Sizing :=
  let len := m.z.length
  let serialType := (len*2 + 12 + (if m.str then 1 else 0)) % 2^32
  if m.zero then
    let serialType := (serialType + m.nZero*2) % 2^32
    let nHdr := s.nHdr + sqlite3VarintLen serialType
    if s.nData ≠ 0 then
      ⟨nHdr, s.nData + (len + m.nZero) % 2^32, s.nZero, (m,serialType) :: s.cells⟩
    else ⟨nHdr, s.nData + len, s.nZero + m.nZero, (m,serialType) :: s.cells⟩
  else
    ⟨s.nHdr + sqlite3VarintLen serialType, s.nData + len, s.nZero, (m,serialType) :: s.cells⟩

/-- One iteration of the sizing pass. An integer-valued real that needs eight bytes becomes
a real. -/
def sizeCell (fileFormat : ℕ) (toDouble : BitVec 64 → BitVec 64) (m : Mem) (s : Sizing) : Sizing :=
  if m.null then
    { s with nHdr := s.nHdr + 1, cells := (m, if m.zero then 10 else 0) :: s.cells }
  else if m.int || m.intReal then
    let t := intType fileFormat m
    let c := if t.1 = 6 && m.intReal then
        ({ m with u := toDouble m.u, intReal := false, real := true }, 7)
      else (m,t.1)
    { s with nHdr := s.nHdr + 1, nData := s.nData + t.2, cells := c :: s.cells }
  else if m.real then
    { s with nHdr := s.nHdr + 1, nData := s.nData + 8, cells := (m,7) :: s.cells }
  else sizeBytes m s

/-- The backward pass over the cells. -/
def sizingPass (fileFormat : ℕ) (toDouble : BitVec 64 → BitVec 64) (cells : List Mem) : Sizing :=
  cells.foldr (sizeCell fileFormat toDouble) ⟨0,0,0,[]⟩

/-- The header size, which counts its own varint. -/
def headerSize (nHdr : ℕ) : ℕ :=
  if nHdr ≤ 126 then nHdr + 1
  else
    let nVarint := sqlite3VarintLen nHdr
    if nVarint < sqlite3VarintLen (nHdr + nVarint) then nHdr + nVarint + 1 else nHdr + nVarint

def smallTypeSizes : ℕ → ℕ
  | 1 => 1
  | 2 => 2
  | 3 => 3
  | 4 => 4
  | 5 => 6
  | 6 => 8
  | 7 => 8
  | t => (t-12)/2

def sqlite3VdbeSerialTypeLen (serialType : ℕ) : ℕ :=
  if 128 ≤ serialType then (serialType-12)/2 else smallTypeSizes serialType

/-- The bytes that `sqlite3VdbeSerialPut` writes. A zero-filled tail is not written. -/
def sqlite3VdbeSerialPut (m : Mem) (serialType : ℕ) : List UInt8 :=
  if serialType ≤ 7 ∧ 0 < serialType then bigEndian (smallTypeSizes serialType) m.u.toNat
  else if 12 ≤ serialType then m.z
  else []

/-- State of the writing pass: the buffer and the two write positions. -/
structure Writing where
  buf : List UInt8
  zHdr : ℕ
  zPayload : ℕ

def writeCell (w : Writing) (c : Mem × ℕ) : Writing :=
  let header := putVarint32 c.2
  let content := sqlite3VdbeSerialPut c.1 c.2
  ⟨overwrite (overwrite w.buf w.zHdr header) w.zPayload content, w.zHdr + header.length,
    w.zPayload + content.length⟩

def writingPass (nHdr : ℕ) (buf : List UInt8) (cells : List (Mem × ℕ)) : Writing :=
  let header := putVarint32 nHdr
  cells.foldl writeCell ⟨overwrite buf 0 header, header.length, nHdr⟩

/-- The bytes that an allocation of each size holds before they are written. -/
abbrev Garbage := (n : ℕ) → {bs : List UInt8 // bs.length = n}

/-- The record made of a row, with the sizes that the final assertions compare. -/
structure MadeRecord where
  nHdr : ℕ
  nByte : ℕ
  nZero : ℕ
  written : Writing

def makeSsdRecord (fileFormat : ℕ) (toDouble : BitVec 64 → BitVec 64) (nField : ℕ) (aMem : List Mem)
    (garbage : Garbage) : MadeRecord :=
  let s := sizingPass fileFormat toDouble (aMem.take nField)
  let nHdr := headerSize s.nHdr
  let nByte := nHdr + s.nData
  ⟨nHdr, nByte, s.nZero, writingPass nHdr (garbage nByte).val s.cells⟩

section Spec

variable {fileFormat : ℕ} {toDouble : BitVec 64 → BitVec 64}

/-- A text or blob, after the type tests of the sizing pass. -/
def Mem.isBytes (m : Mem) : Bool := !m.null && !(m.int || m.intReal) && !m.real

/-- Length of the zero-filled tail of a text or blob. -/
def Mem.tail (m : Mem) : ℕ := if m.isBytes && m.zero then m.nZero else 0

/-- The serial type under which a cell is recorded. -/
def serialTypeOf (fileFormat : ℕ) (m : Mem) : ℕ :=
  if m.null then (if m.zero then 10 else 0)
  else if m.int || m.intReal then (intType fileFormat m).1
  else if m.real then 7
  else m.z.length*2 + 12 + (if m.str then 1 else 0) + m.tail*2

/-- The bytes that a cell puts into the payload. -/
def contentOf (fileFormat : ℕ) (m : Mem) : List UInt8 :=
  sqlite3VdbeSerialPut m (serialTypeOf fileFormat m)

lemma tail_le (m : Mem) : m.tail ≤ m.nZero := by
  unfold Mem.tail
  split_ifs <;> omega

lemma intType_cases (fileFormat : ℕ) (m : Mem) :
    (intType fileFormat m = (8 + m.u.toNat, 0) ∧ m.u.toNat ≤ 1) ∨
    (∃ t, 1 ≤ t ∧ t ≤ 6 ∧ intType fileFormat m = (t, smallTypeSizes t) ∧
      (t = 6 ∨ m.magnitude < 2^(8*smallTypeSizes t - 1))) := by
  unfold intType
  split_ifs with h1 h2 h3 h4 h5 h6
  · left
    have hle : (m.u &&& 1).toNat ≤ 1 := by
      rw [BitVec.toNat_and]
      exact Nat.and_le_right
    rw [h2.1] at hle
    have hpos : ¬ m.u.toInt < 0 := by
      rw [BitVec.toInt_eq_toNat_of_lt (by omega)]
      omega
    rw [Mem.magnitude, if_neg hpos]
    exact ⟨rfl, hle⟩
  · exact .inr ⟨1, by omega, by omega, rfl, .inr (by simp only [smallTypeSizes]; omega)⟩
  · exact .inr ⟨2, by omega, by omega, rfl, .inr (by simp only [smallTypeSizes]; omega)⟩
  · exact .inr ⟨3, by omega, by omega, rfl, .inr (by simp only [smallTypeSizes]; omega)⟩
  · exact .inr ⟨4, by omega, by omega, rfl, .inr (by simp only [smallTypeSizes]; omega)⟩
  · exact .inr ⟨5, by omega, by omega, rfl, .inr (by simp only [smallTypeSizes]; omega)⟩
  · exact .inr ⟨6, by omega, by omega, rfl, .inl rfl⟩

lemma serialTypeOf_bytes {m : Mem} (h : m.isBytes = true) :
    serialTypeOf fileFormat m = m.z.length*2 + 12 + (if m.str then 1 else 0) + m.tail*2 := by
  simp only [Mem.isBytes, Bool.and_eq_true, Bool.not_eq_true'] at h
  simp [serialTypeOf, h.1.1, h.1.2, h.2]

lemma serialTypeOf_small {m : Mem} (h : m.isBytes = false) : serialTypeOf fileFormat m ≤ 10 := by
  unfold serialTypeOf
  split_ifs with h1 h2 h3 h4
  · omega
  · omega
  · rcases intType_cases fileFormat m with ⟨ht, hm⟩ | ⟨t, -, ht6, ht, -⟩
    · rw [ht]
      simp only
      omega
    · rw [ht]
      simp only
      omega
  · omega
  all_goals simp_all [Mem.isBytes]

lemma varintLen_small {v : ℕ} (hv : v < 128) : sqlite3VarintLen v = 1 := by
  rw [sqlite3VarintLen_eq (by omega), if_pos (by omega)]

/-- The sizing pass after a cell, for cells that keep their form. What is reserved for the
cell and what is left to the zero tail of the record make up its declared size. -/
structure SizedBy (fileFormat : ℕ) (row : List Mem) (s : Sizing) : Prop where
  cells : s.cells = row.map fun m => (m, serialTypeOf fileFormat m)
  nHdr : s.nHdr = (row.map fun m => sqlite3VarintLen (serialTypeOf fileFormat m)).sum
  nData : s.nData + s.nZero = (row.map fun m => (contentOf fileFormat m).length + m.tail).sum
  content : (row.map fun m => (contentOf fileFormat m).length).sum ≤ s.nData

lemma content_bytes {m : Mem} (h : m.isBytes = true) : contentOf fileFormat m = m.z := by
  rw [contentOf, sqlite3VdbeSerialPut, serialTypeOf_bytes h, if_neg (by omega), if_pos (by omega)]

lemma tail_of_not_bytes {m : Mem} (h : m.isBytes = false) : m.tail = 0 := by simp [Mem.tail, h]

/-- A cell that is not text or blob takes a one-byte type and its full size. -/
lemma SizedBy.small {row : List Mem} {s : Sizing} (hs : SizedBy fileFormat row s) {m : Mem}
    (h : m.isBytes = false) {len : ℕ} (hlen : (contentOf fileFormat m).length = len) :
    SizedBy fileFormat (m :: row)
      { s with nHdr := s.nHdr + 1, nData := s.nData + len,
               cells := (m, serialTypeOf fileFormat m) :: s.cells } := by
  have hst : serialTypeOf fileFormat m ≤ 10 := serialTypeOf_small h
  have ht := tail_of_not_bytes h
  obtain ⟨h1, h2, h3, h4⟩ := hs
  refine ⟨by simp [h1], ?_, ?_, ?_⟩
  · simp only [List.map_cons, List.sum_cons,
      varintLen_small (show serialTypeOf fileFormat m < 128 by omega)]
    omega
  · simp only [List.map_cons, List.sum_cons, hlen, ht]
    omega
  · simp only [List.map_cons, List.sum_cons, hlen]
    omega

lemma SizedBy.bytes {row : List Mem} {s : Sizing} (hs : SizedBy fileFormat row s) {m : Mem}
    (h : m.isBytes = true) (hst : serialTypeOf fileFormat m < 2^32) :
    SizedBy fileFormat (m :: row) (sizeBytes m s) := by
  have hz : contentOf fileFormat m = m.z := content_bytes h
  have hsize := m.size_int
  have hstr := @serialTypeOf_bytes fileFormat m h
  obtain ⟨h1, h2, h3, h4⟩ := hs
  unfold sizeBytes
  cases hzero : m.zero with
  | false =>
    have ht : m.tail = 0 := by simp [Mem.tail, hzero]
    rw [ht, Nat.zero_mul, Nat.add_zero] at hstr
    simp only [Bool.false_eq_true, if_false, ← hstr, Nat.mod_eq_of_lt hst]
    refine ⟨by simp [h1], ?_, ?_, ?_⟩ <;> simp only [List.map_cons, List.sum_cons, hz, ht] <;> omega
  | true =>
    have ht : m.tail = m.nZero := by simp [Mem.tail, hzero, h]
    rw [ht] at hstr
    have hlow : m.z.length*2 + 12 + (if m.str then 1 else 0) < 2^32 := by omega
    simp only [if_true, Nat.mod_eq_of_lt hlow, ← hstr, Nat.mod_eq_of_lt hst]
    split_ifs with hd
    · refine ⟨by simp [h1], ?_, ?_, ?_⟩ <;> simp only [List.map_cons, List.sum_cons, hz, ht] <;>
        omega
    · refine ⟨by simp [h1], ?_, ?_, ?_⟩ <;> simp only [List.map_cons, List.sum_cons, hz, ht] <;>
        omega

lemma serialTypeOf_int {m : Mem} (hn : m.null = false) (hi : (m.int || m.intReal) = true) :
    serialTypeOf fileFormat m = (intType fileFormat m).1 := by
  rw [serialTypeOf, hn, hi]
  rfl

lemma content_int_length {m : Mem} (hn : m.null = false) (hi : (m.int || m.intReal) = true) :
    (contentOf fileFormat m).length = (intType fileFormat m).2 := by
  rw [contentOf, serialTypeOf_int hn hi]
  rcases intType_cases fileFormat m with ⟨ht, hle⟩ | ⟨t, h1, h6, ht, -⟩
  · rw [ht, sqlite3VdbeSerialPut, if_neg (by simp only; omega), if_neg (by simp only; omega)]
    rfl
  · rw [ht, sqlite3VdbeSerialPut, if_pos (by simp only; omega), bigEndian_length]

/-- One iteration of the sizing pass, for a cell that keeps its form. -/
lemma SizedBy.cell {row : List Mem} {s : Sizing} (hs : SizedBy fileFormat row s) {m : Mem}
    (hreal : m.intReal = false) (hst : serialTypeOf fileFormat m < 2^32) :
    SizedBy fileFormat (m :: row) (sizeCell fileFormat toDouble m s) := by
  unfold sizeCell
  cases hn : m.null with
  | true =>
    have hb : m.isBytes = false := by simp [Mem.isBytes, hn]
    have hl : (contentOf fileFormat m).length = 0 := by
      simp only [contentOf, serialTypeOf, hn, if_true]
      split_ifs <;> rfl
    have hh := hs.small hb hl
    simpa [serialTypeOf, hn] using hh
  | false =>
    cases hi : m.int || m.intReal with
    | true =>
      have hb : m.isBytes = false := by simp [Mem.isBytes, hi]
      have hh := hs.small hb (content_int_length hn hi)
      rw [serialTypeOf_int hn hi] at hh
      simpa [hreal] using hh
    | false =>
      cases hr : m.real with
      | true =>
        have hb : m.isBytes = false := by simp [Mem.isBytes, hr]
        have hl : (contentOf fileFormat m).length = 8 := by
          simp only [contentOf, serialTypeOf, hn, hi, hr, if_true, Bool.false_eq_true, if_false]
          rfl
        have hh := hs.small hb hl
        simpa [serialTypeOf, hn, hi, hr] using hh
      | false =>
        have hb : m.isBytes = true := by simp [Mem.isBytes, hn, hi, hr]
        simpa using hs.bytes hb hst

/-- The sizing pass over a row. -/
theorem sizingPass_sized {row : List Mem} (hreal : ∀ m ∈ row, m.intReal = false)
    (hst : ∀ m ∈ row, serialTypeOf fileFormat m < 2^32) :
    SizedBy fileFormat row (sizingPass fileFormat toDouble row) := by
  induction row with
  | nil => exact ⟨rfl, rfl, rfl, le_rfl⟩
  | cons m row ih =>
    exact (ih (fun x hx => hreal x (by simp [hx])) (fun x hx => hst x (by simp [hx]))).cell
      (hreal m (by simp)) (hst m (by simp))

lemma lt_headerSize (h : ℕ) : h < headerSize h := by
  have hpos : 1 ≤ sqlite3VarintLen h := le_varintLenLoop 10 1 h
  unfold headerSize
  dsimp only
  split_ifs <;> omega

/-- The header size counts the varint in which it is written itself, also where adding that
varint makes it one byte longer. -/
lemma headerSize_spec {h : ℕ} (hh : h < 2^31) :
    sqlite3VarintLen (headerSize h) + h = headerSize h := by
  unfold headerSize
  by_cases h1 : h ≤ 126
  · rw [if_pos h1, varintLen_small (by omega)]
    omega
  rw [if_neg h1]
  have e1 := varintLen_cases (v := h) (by omega)
  have hle : sqlite3VarintLen h ≤ 5 := by omega
  have e2 := varintLen_cases (v := h + sqlite3VarintLen h) (by omega)
  dsimp only
  split_ifs with hlt
  · have e3 := varintLen_cases (v := h + sqlite3VarintLen h + 1) (by omega)
    omega
  · omega

/-- The writing pass puts the types one after the other behind the header position and the
contents one after the other behind the payload position. -/
lemma foldl_writeCell (cells : List (Mem × ℕ)) (w : Writing)
    (hh : w.zHdr + (cells.map fun c => putVarint32 c.2).flatten.length ≤ w.zPayload)
    (hp : w.zPayload + (cells.map fun c => sqlite3VdbeSerialPut c.1 c.2).flatten.length ≤
      w.buf.length) : cells.foldl writeCell w =
      ⟨overwrite (overwrite w.buf w.zHdr (cells.map fun c => putVarint32 c.2).flatten) w.zPayload
          (cells.map fun c => sqlite3VdbeSerialPut c.1 c.2).flatten,
        w.zHdr + (cells.map fun c => putVarint32 c.2).flatten.length,
        w.zPayload + (cells.map fun c => sqlite3VdbeSerialPut c.1 c.2).flatten.length⟩ := by
  induction cells generalizing w with
  | nil => simp [overwrite]
  | cons c cells ih =>
    simp only [List.map_cons, List.flatten_cons, List.length_append] at hh hp ⊢
    generalize hH : (cells.map fun c => putVarint32 c.2).flatten = types at *
    generalize hP : (cells.map fun c => sqlite3VdbeSerialPut c.1 c.2).flatten = contents at *
    generalize hx : putVarint32 c.2 = x at *
    generalize hy : sqlite3VdbeSerialPut c.1 c.2 = y at *
    have hl1 : (overwrite w.buf w.zHdr x).length = w.buf.length := overwrite_length _ _ (by omega)
    have hl2 : (overwrite (overwrite w.buf w.zHdr x) w.zPayload y).length = w.buf.length := by
      rw [overwrite_length _ _ (by omega), hl1]
    have hstep : writeCell w c = ⟨overwrite (overwrite w.buf w.zHdr x) w.zPayload y,
        w.zHdr + x.length, w.zPayload + y.length⟩ := by rw [writeCell, hx, hy]
    have hl3 : (overwrite (overwrite w.buf w.zHdr x) (w.zHdr + x.length) types).length =
        w.buf.length := by
      rw [overwrite_length _ _ (by omega), hl1]
    rw [List.foldl_cons, hstep, ih _ (by simp only; omega) (by simp only [hl2]; omega)]
    simp only [Writing.mk.injEq]
    refine ⟨?_, by omega, by omega⟩
    rw [← overwrite_comm _ types y (by omega) (by omega),
      overwrite_overwrite_append _ _ _ (by omega), overwrite_overwrite_append _ _ _ (by omega)]

/-- The header of a row's record. -/
def headerOf (fileFormat : ℕ) (row : List Mem) (nHdr : ℕ) : List UInt8 :=
  putVarint32 nHdr ++ (row.map fun m => putVarint32 (serialTypeOf fileFormat m)).flatten

/-- The payload of a row's record. -/
def payloadOf (fileFormat : ℕ) (row : List Mem) : List UInt8 :=
  (row.map (contentOf fileFormat)).flatten

/-- What `make_ssd_record` makes of a row: the header fills its place exactly, the contents
follow, and reserved bytes that no content fills keep the garbage of the allocation. -/
structure Made (fileFormat : ℕ) (row : List Mem) (garbage : Garbage) (r : MadeRecord) : Prop where
  nHdr : (headerOf fileFormat row r.nHdr).length = r.nHdr
  zHdr : r.written.zHdr = r.nHdr
  zPayload : r.written.zPayload = r.nHdr + (payloadOf fileFormat row).length
  nByte : r.nByte + r.nZero = r.nHdr + ((payloadOf fileFormat row).length + (row.map Mem.tail).sum)
  fits : r.nHdr + (payloadOf fileFormat row).length ≤ r.nByte
  buf : r.written.buf = headerOf fileFormat row r.nHdr ++ payloadOf fileFormat row ++
    (garbage r.nByte).val.drop (r.nHdr + (payloadOf fileFormat row).length)

lemma length_flatten_map {α : Type*} (f : α → List UInt8) (xs : List α) :
    (xs.map f).flatten.length = (xs.map fun x => (f x).length).sum := by
  rw [List.length_flatten, List.map_map]
  rfl

/-- The writing pass over a row whose header fills its place. -/
lemma writingPass_row {row : List Mem} {nHdr : ℕ} {buf : List UInt8}
    (hhdr : (headerOf fileFormat row nHdr).length = nHdr)
    (hfit : nHdr + (payloadOf fileFormat row).length ≤ buf.length) :
    writingPass nHdr buf (row.map fun m => (m, serialTypeOf fileFormat m)) =
      ⟨headerOf fileFormat row nHdr ++ payloadOf fileFormat row ++
        buf.drop (nHdr + (payloadOf fileFormat row).length), nHdr,
          nHdr + (payloadOf fileFormat row).length⟩ := by
  have htypes : (row.map fun m => (m, serialTypeOf fileFormat m)).map (fun c => putVarint32 c.2) =
      row.map fun m => putVarint32 (serialTypeOf fileFormat m) := List.map_map
  have hcontents :
      (row.map fun m => (m, serialTypeOf fileFormat m)).map
      (fun c => sqlite3VdbeSerialPut c.1 c.2) =
      row.map (contentOf fileFormat) := List.map_map
  have hlen := hhdr
  rw [headerOf, List.length_append] at hlen
  have hbuf : (overwrite buf 0 (putVarint32 nHdr)).length = buf.length :=
    overwrite_length _ _ (by omega)
  have hw := foldl_writeCell (row.map fun m => (m, serialTypeOf fileFormat m))
    ⟨overwrite buf 0 (putVarint32 nHdr), (putVarint32 nHdr).length, nHdr⟩
    (by rw [htypes]; exact hlen.le) (by rw [hcontents, hbuf]; exact hfit)
  rw [htypes, hcontents] at hw
  -- The header and then the payload are written behind what is there already.
  have hheader := @overwrite_overwrite_append _ buf (putVarint32 nHdr)
    (row.map fun m => putVarint32 (serialTypeOf fileFormat m)).flatten 0 (by omega)
  have hpayload :=
    @overwrite_overwrite_append _ buf (headerOf fileFormat row nHdr) (payloadOf fileFormat row) 0
    (by omega)
  rw [Nat.zero_add] at hheader hpayload
  rw [hhdr] at hpayload
  rw [writingPass, hw, hheader, ← headerOf, ← payloadOf, hpayload, hlen]
  simp only [overwrite, List.take_zero, List.nil_append, Nat.zero_add, List.length_append, hhdr]

theorem makeSsdRecord_made {row : List Mem} (hreal : ∀ m ∈ row, m.intReal = false)
    (hst : ∀ m ∈ row, serialTypeOf fileFormat m < 2^32) (garbage : Garbage)
    (hsize : (makeSsdRecord fileFormat toDouble row.length row garbage).nHdr < 2^31) :
    Made fileFormat row garbage (makeSsdRecord fileFormat toDouble row.length row garbage) := by
  have hs : SizedBy fileFormat row (sizingPass fileFormat toDouble row) :=
    sizingPass_sized hreal hst
  have htypes : (row.map fun m => putVarint32 (serialTypeOf fileFormat m)).flatten.length =
      (sizingPass fileFormat toDouble row).nHdr := by
    rw [length_flatten_map, hs.nHdr]
    congr 1
    exact List.map_congr_left fun m hm => putVarint32_length (hst m hm)
  have hcontent :
      (payloadOf fileFormat row).length = (row.map fun m => (contentOf fileFormat m).length).sum :=
    length_flatten_map _ _
  have hdata := hs.nData
  rw [List.sum_map_add, ← hcontent] at hdata
  have hle := hs.content
  rw [← hcontent] at hle
  rw [makeSsdRecord, List.take_length] at hsize ⊢
  dsimp only at hsize ⊢
  rw [hs.cells]
  set s := sizingPass fileFormat toDouble row
  have hle1 := lt_headerSize s.nHdr
  have hspec := headerSize_spec (h := s.nHdr) (by omega)
  have hput := putVarint32_length (v := headerSize s.nHdr) (by omega)
  have hhdr : (headerOf fileFormat row (headerSize s.nHdr)).length = headerSize s.nHdr := by
    rw [headerOf, List.length_append, htypes]
    omega
  have hbuf := (garbage (headerSize s.nHdr + s.nData)).2
  rw [writingPass_row hhdr (by omega)]
  exact ⟨hhdr, rfl, rfl, by dsimp only; omega, by dsimp only; omega, rfl⟩

lemma Made.length {row : List Mem} {garbage : Garbage} {r : MadeRecord}
    (h : Made fileFormat row garbage r) : r.written.buf.length = r.nByte := by
  have hfits := h.fits
  rw [h.buf, List.length_append, List.length_append, h.nHdr, List.length_drop, (garbage _).2]
  omega

end Spec

end IronSafe.Record
