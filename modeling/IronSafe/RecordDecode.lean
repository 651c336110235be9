import IronSafe.RecordMake

/-! Reading a record back: `sqlite3VdbeSerialGet` for one cell and the loop of
`sqlite3VdbeRecordUnpack` over the header. Bytes past the end of the record count as zero; a
cell that needs them is replaced by NULL at the end of the loop. -/
namespace IronSafe.Record
open Bytes BigEndian

/-- What a cell holds. A NULL may carry the no-change mark. -/
inductive Value
  | null (noChange : Bool)
  | int (i : BitVec 64)
  | real (r : BitVec 64)
  | text (z : List UInt8)
  | blob (z : List UInt8)
  deriving DecidableEq

def Mem.value (m : Mem) : Value :=
  if m.null then .null m.zero
  else if m.int || m.intReal then .int m.u
  else if m.real then .real m.u
  else if m.str then .text (m.z ++ List.replicate m.tail 0)
  else .blob (m.z ++ List.replicate m.tail 0)

def octet (x : List UInt8) (i : ℕ) : BitVec 8 := (x.getD i 0).toBitVec

def oneByteInt (x : List UInt8) : BitVec 32 := (octet x 0).signExtend 32

def twoByteInt (x : List UInt8) : BitVec 32 :=
  256#32 * (octet x 0).signExtend 32 ||| (octet x 1).zeroExtend 32

def threeByteInt (x : List UInt8) : BitVec 32 :=
  65536#32 * (octet x 0).signExtend 32 ||| ((octet x 1).zeroExtend 32) <<< 8 |||
    (octet x 2).zeroExtend 32

def fourByteUint (x : List UInt8) : BitVec 32 :=
  ((octet x 0).zeroExtend 32) <<< 24 ||| ((octet x 1).zeroExtend 32) <<< 16 |||
    ((octet x 2).zeroExtend 32) <<< 8 ||| (octet x 3).zeroExtend 32

def fourByteInt (x : List UInt8) : BitVec 32 :=
  16777216#32 * (octet x 0).signExtend 32 ||| ((octet x 1).zeroExtend 32) <<< 16 |||
    ((octet x 2).zeroExtend 32) <<< 8 ||| (octet x 3).zeroExtend 32

def exp754 : BitVec 64 := 0x7ff#64 <<< 52

def man754 : BitVec 64 := (1#64 <<< 52) - 1

def isNaN (x : BitVec 64) : Bool := x &&& exp754 == exp754 && x &&& man754 != 0

def serialGet (buf : List UInt8) (serialType : ℕ) : Value × ℕ :=
  let x := (fourByteUint buf).zeroExtend 64
  let y := fourByteUint (buf.drop 4)
  let x := x <<< 32 + y.zeroExtend 64
  if serialType = 6 then (.int x, 8)
  else (if isNaN x then .null false else .real x, 8)

/-- The cell at the start of the buffer and the number of bytes that it takes. -/
def sqlite3VdbeSerialGet (buf : List UInt8) : ℕ → Value × ℕ
  | 10 => (.null true, 0)
  | 11 => (.null false, 0)
  | 0 => (.null false, 0)
  | 1 => (.int ((oneByteInt buf).signExtend 64), 1)
  | 2 => (.int ((twoByteInt buf).signExtend 64), 2)
  | 3 => (.int ((threeByteInt buf).signExtend 64), 3)
  | 4 => (.int ((fourByteInt buf).signExtend 64), 4)
  | 5 =>
    (.int ((fourByteUint (buf.drop 2)).zeroExtend 64 +
      (1#64 <<< 32) * (twoByteInt buf).signExtend 64), 6)
  | 6 => serialGet buf 6
  | 7 => serialGet buf 7
  | 8 => (.int 0, 0)
  | 9 => (.int 1, 0)
  | serialType =>
    let n := (serialType-12)/2
    (if serialType % 2 = 1 then .text (buf.take n) else .blob (buf.take n), n)

/-- The loop of `sqlite3VdbeRecordUnpack`: the cells read and the final position `d`. The
first argument bounds the iterations, each of which consumes a byte of the header. -/
def unpackLoop (aKey : List UInt8) (szHdr nField : ℕ) : ℕ → ℕ → ℕ → ℕ → List Value × ℕ
  | 0, _, d, _ => ([],d)
  | left+1, idx, d, u =>
    if idx < szHdr ∧ d ≤ aKey.length then
      let t := getVarint32 (aKey.drop idx)
      let c := sqlite3VdbeSerialGet (aKey.drop d) t.2
      if nField ≤ u+1 then ([c.1], d + c.2)
      else
        let r := unpackLoop aKey szHdr nField left (idx + t.1) (d + c.2) (u+1)
        (c.1 :: r.1, r.2)
    else ([],d)

def sqlite3VdbeRecordUnpack (nField : ℕ) (aKey : List UInt8) : List Value :=
  let h := getVarint32 aKey
  let r := unpackLoop aKey h.2 nField aKey.length h.1 h.2 0
  if aKey.length < r.2 ∧ r.1 ≠ [] then r.1.dropLast ++ [.null false] else r.1

section Words

lemma twoPow_mul (x : BitVec 32) (k : ℕ) : BitVec.twoPow 32 k * x = x <<< k := by
  rw [BitVec.mul_comm, BitVec.mul_twoPow_eq_shiftLeft]

/-- One more byte behind a sign-extended word. -/
lemma signExtend_concat {w : ℕ} (hw : 0 < w) (v : BitVec w) (b : BitVec 8) :
    (v.signExtend 32) <<< 8 ||| b.zeroExtend 32 = (v ++ b).signExtend 32 := by
  ext i hi
  simp only [BitVec.getElem_or, BitVec.getElem_shiftLeft, BitVec.getElem_signExtend,
    BitVec.getElem_setWidth, BitVec.msb_append, BitVec.getElem_append]
  grind

lemma twoByteInt_eq (x : List UInt8) : twoByteInt x = (octet x 0 ++ octet x 1).signExtend 32 := by
  rw [twoByteInt, ← signExtend_concat (by omega), ← twoPow_mul]
  rfl

lemma threeByteInt_eq (x : List UInt8) :
    threeByteInt x = (octet x 0 ++ octet x 1 ++ octet x 2).signExtend 32 := by
  rw [← signExtend_concat (by omega), ← signExtend_concat (by omega), BitVec.shiftLeft_or_distrib,
    ← BitVec.shiftLeft_add, ← twoPow_mul]
  rfl

lemma fourByteInt_eq (x : List UInt8) :
    fourByteInt x = octet x 0 ++ octet x 1 ++ octet x 2 ++ octet x 3 := by
  have h : fourByteInt x = (octet x 0 ++ octet x 1 ++ octet x 2 ++ octet x 3).signExtend 32 := by
    rw [← signExtend_concat (by omega), ← signExtend_concat (by omega),
      ← signExtend_concat (by omega)]
    simp only [BitVec.shiftLeft_or_distrib, ← BitVec.shiftLeft_add]
    rw [← twoPow_mul]
    rfl
  rw [h]
  exact BitVec.signExtend_eq _

lemma fourByteUint_eq (x : List UInt8) :
    fourByteUint x = octet x 0 ++ octet x 1 ++ octet x 2 ++ octet x 3 := by
  have h : ((octet x 0).signExtend 32) <<< 24 = ((octet x 0).zeroExtend 32) <<< 24 := by
    ext i hi
    simp only [BitVec.getElem_shiftLeft, BitVec.getElem_signExtend, BitVec.getElem_setWidth]
    grind
  rw [← fourByteInt_eq, fourByteUint, ← h, ← twoPow_mul]
  rfl

lemma toNat_fourByteUint {bs : List UInt8} (hb : bs.length = 4) (rest : List UInt8) :
    (fourByteUint (bs ++ rest)).toNat = ofBigEndian bs := by
  obtain ⟨x0, x1, x2, x3, rfl⟩ := List.length_eq_four.mp hb
  rw [fourByteUint_eq]
  simp only [octet, List.cons_append, List.getD_cons_zero, List.getD_cons_succ, toNat_concat]
  simp [ofBigEndian]

lemma toInt_oneByteInt {bs : List UInt8} (hb : bs.length = 1) (rest : List UInt8) :
    (oneByteInt (bs ++ rest)).toInt = signed bs := by
  obtain ⟨x0, rfl⟩ := List.length_eq_one_iff.mp hb
  rw [oneByteInt, BitVec.toInt_signExtend_of_le (by omega)]
  apply toInt_eq_signed (by norm_num)
  simp [octet, ofBigEndian]

lemma toInt_twoByteInt {bs : List UInt8} (hb : bs.length = 2) (rest : List UInt8) :
    (twoByteInt (bs ++ rest)).toInt = signed bs := by
  obtain ⟨x0, x1, rfl⟩ := List.length_eq_two.mp hb
  rw [twoByteInt_eq, BitVec.toInt_signExtend_of_le (by omega)]
  apply toInt_eq_signed (by norm_num)
  simp only [octet, List.cons_append, List.getD_cons_zero, List.getD_cons_succ, toNat_concat]
  simp [ofBigEndian]

lemma toInt_threeByteInt {bs : List UInt8} (hb : bs.length = 3) (rest : List UInt8) :
    (threeByteInt (bs ++ rest)).toInt = signed bs := by
  obtain ⟨x0, x1, x2, rfl⟩ := List.length_eq_three.mp hb
  rw [threeByteInt_eq, BitVec.toInt_signExtend_of_le (by omega)]
  apply toInt_eq_signed (by norm_num)
  simp only [octet, List.cons_append, List.getD_cons_zero, List.getD_cons_succ, toNat_concat]
  simp [ofBigEndian]

lemma toInt_fourByteInt {bs : List UInt8} (hb : bs.length = 4) (rest : List UInt8) :
    (fourByteInt (bs ++ rest)).toInt = signed bs := by
  apply toInt_eq_signed (by rw [hb]; norm_num)
  rw [fourByteInt_eq, ← fourByteUint_eq, toNat_fourByteUint hb]

/-- The six-byte integer joins two signed and four unsigned bytes. -/
lemma signed_six {as bs : List UInt8} (ha : as.length = 2) (hb : bs.length = 4) :
    signed (as ++ bs) = ofBigEndian bs + 2^32*signed as := by
  have hlt := ofBigEndian_lt bs
  rw [hb] at hlt
  simp only [signed, ofBigEndian_append, List.length_append, ha, hb, Int.bmod_def]
  push_cast
  omega

lemma zeroExtend_eq_ofInt (v : BitVec 32) : v.zeroExtend 64 = BitVec.ofInt 64 v.toNat := by
  rw [BitVec.ofInt_natCast, BitVec.ofNat_toNat]

/-- The eight bytes of `serialGet` as a word. -/
lemma joined_words {bs : List UInt8} (hb : bs.length = 8) (rest : List UInt8) :
    ((fourByteUint (bs ++ rest)).zeroExtend 64) <<< 32 +
      (fourByteUint ((bs ++ rest).drop 4)).zeroExtend 64 = BitVec.ofNat 64 (ofBigEndian bs) := by
  have h1 := toNat_fourByteUint (show (bs.take 4).length = 4 by simp [hb]) (bs.drop 4 ++ rest)
  have h2 := toNat_fourByteUint (show (bs.drop 4).length = 4 by simp [hb]) rest
  have hsplit := ofBigEndian_append (bs.take 4) (bs.drop 4)
  rw [← List.append_assoc, List.take_append_drop] at h1
  rw [List.take_append_drop, List.length_drop, hb] at hsplit
  rw [List.drop_append_of_le_length (by omega), hsplit, ← h1, ← h2]
  apply BitVec.eq_of_toNat_eq
  simp only [BitVec.toNat_add, BitVec.toNat_shiftLeft, BitVec.toNat_setWidth, BitVec.toNat_ofNat,
    Nat.shiftLeft_eq]
  omega

lemma six_bytes {bs : List UInt8} (hb : bs.length = 6) (rest : List UInt8) :
    (fourByteUint ((bs ++ rest).drop 2)).zeroExtend 64 +
      (1#64 <<< 32) * (twoByteInt (bs ++ rest)).signExtend 64 = BitVec.ofInt 64 (signed bs) := by
  have h1 := toInt_twoByteInt (show (bs.take 2).length = 2 by simp [hb]) (bs.drop 2 ++ rest)
  have h2 := toNat_fourByteUint (show (bs.drop 2).length = 4 by simp [hb]) rest
  have h3 :=
    signed_six (show (bs.take 2).length = 2 by simp [hb]) (show (bs.drop 2).length = 4 by simp [hb])
  rw [← List.append_assoc, List.take_append_drop] at h1
  rw [List.take_append_drop] at h3
  rw [List.drop_append_of_le_length (by omega), h3, ← h1, ← h2, BitVec.ofInt_add, BitVec.ofInt_mul,
    zeroExtend_eq_ofInt]
  rfl

/-- Integers are read as two's complement numbers. -/
lemma serialGet_int {serialType : ℕ} (h1 : 1 ≤ serialType) (h6 : serialType ≤ 6) {bs : List UInt8}
    (hb : bs.length = smallTypeSizes serialType) (rest : List UInt8) :
    sqlite3VdbeSerialGet (bs ++ rest) serialType =
      (.int (BitVec.ofInt 64 (signed bs)), bs.length) := by
  interval_cases serialType
  · rw [sqlite3VdbeSerialGet, BitVec.signExtend, toInt_oneByteInt hb, hb]
    rfl
  · rw [sqlite3VdbeSerialGet, BitVec.signExtend, toInt_twoByteInt hb, hb]
    rfl
  · rw [sqlite3VdbeSerialGet, BitVec.signExtend, toInt_threeByteInt hb, hb]
    rfl
  · rw [sqlite3VdbeSerialGet, BitVec.signExtend, toInt_fourByteInt hb, hb]
    rfl
  · rw [sqlite3VdbeSerialGet, six_bytes hb, hb]
    rfl
  · rw [sqlite3VdbeSerialGet, serialGet, if_pos rfl, joined_words hb, ofInt_signed_eight hb, hb]
    rfl

lemma serialGet_real {bs : List UInt8} (hb : bs.length = 8) (rest : List UInt8) :
    sqlite3VdbeSerialGet (bs ++ rest) 7 =
      (if isNaN (BitVec.ofNat 64 (ofBigEndian bs)) then .null false
        else .real (BitVec.ofNat 64 (ofBigEndian bs)), 8) := by
  rw [sqlite3VdbeSerialGet, serialGet, if_neg (by omega), joined_words hb]

lemma serialGet_bytes {serialType : ℕ} (h : 12 ≤ serialType) {bs : List UInt8}
    (hb : bs.length = (serialType-12)/2) (rest : List UInt8) :
    sqlite3VdbeSerialGet (bs ++ rest) serialType =
      (if serialType % 2 = 1 then .text bs else .blob bs, bs.length) := by
  obtain ⟨k, rfl⟩ := Nat.exists_eq_add_of_le' h
  rw [sqlite3VdbeSerialGet, ← hb, List.take_left]
  all_goals omega

end Words

section Cells

variable {fileFormat : ℕ}

lemma serialTypeLen_bytes {serialType : ℕ} (h : 12 ≤ serialType) :
    sqlite3VdbeSerialTypeLen serialType = (serialType-12)/2 := by
  obtain ⟨k, rfl⟩ := Nat.exists_eq_add_of_le' h
  rw [sqlite3VdbeSerialTypeLen, smallTypeSizes, ite_self]
  all_goals omega

lemma serialGet_len (buf : List UInt8) (serialType : ℕ) :
    (sqlite3VdbeSerialGet buf serialType).2 = sqlite3VdbeSerialTypeLen serialType := by
  rcases lt_or_ge serialType 12 with h | h
  · interval_cases serialType <;> rfl
  · rw [serialTypeLen_bytes h]
    obtain ⟨k, rfl⟩ := Nat.exists_eq_add_of_le' h
    rw [sqlite3VdbeSerialGet]
    all_goals omega

lemma toInt_bounds {m : Mem} {k : ℕ} (h : m.magnitude < 2^k) :
    -2^k ≤ m.u.toInt ∧ m.u.toInt < 2^k := by
  have hz : (m.magnitude : ℤ) < 2^k := by exact_mod_cast h
  have hcond := BitVec.toInt_eq_toNat_cond m.u
  have hlt := m.u.isLt
  rw [Mem.magnitude] at hz
  split_ifs at hz hcond with h1 h2
  · omega
  · rw [BitVec.toNat_not] at hz
    omega
  · omega
  · omega

/-- An integer is read back from the bytes of its type. -/
lemma serialGet_intContent {m : Mem} (hn : m.null = false) (hi : (m.int || m.intReal) = true)
    (rest : List UInt8) :
    sqlite3VdbeSerialGet (contentOf fileFormat m ++ rest) (serialTypeOf fileFormat m) =
      (.int m.u, (contentOf fileFormat m).length) := by
  rw [content_int_length hn hi, contentOf, serialTypeOf_int hn hi]
  rcases intType_cases fileFormat m with ⟨ht, hle⟩ | ⟨t, h1, h6, ht, hfit⟩
  · rw [ht]
    have hu := BitVec.ofNat_toNat 64 m.u
    rw [BitVec.setWidth_eq] at hu
    rcases Nat.le_one_iff_eq_zero_or_eq_one.mp hle with h0 | h1
    · rw [← hu, h0]
      rfl
    · rw [← hu, h1]
      rfl
  · have hlen : 0 < smallTypeSizes t ∧ smallTypeSizes t ≤ 8 := by
      interval_cases t <;> decide
    have hsigned : signed (bigEndian (smallTypeSizes t) m.u.toNat) = m.u.toInt := by
      rcases hfit with rfl | hfit
      · exact signed_bigEndian hlen.1 hlen.2 m.u.le_toInt m.u.toInt_lt
      · exact signed_bigEndian hlen.1 hlen.2 (toInt_bounds hfit).1 (toInt_bounds hfit).2
    rw [ht, sqlite3VdbeSerialPut, if_pos (by dsimp only; omega),
      serialGet_int h1 h6 (bigEndian_length _ _), hsigned, BitVec.ofInt_toInt, bigEndian_length]

/-- A cell whose payload is complete is read back from it. -/
lemma serialGet_content {m : Mem} (hnan : m.real = true → isNaN m.u = false) (htail : m.tail = 0)
    (rest : List UInt8) :
    sqlite3VdbeSerialGet (contentOf fileFormat m ++ rest) (serialTypeOf fileFormat m) =
      (m.value, (contentOf fileFormat m).length) := by
  unfold Mem.value
  cases hn : m.null with
  | true =>
    rw [contentOf, serialTypeOf, hn]
    cases m.zero <;> rfl
  | false =>
    cases hi : m.int || m.intReal with
    | true => exact serialGet_intContent hn hi rest
    | false =>
      cases hr : m.real with
      | true =>
        have ht : serialTypeOf fileFormat m = 7 := by simp [serialTypeOf, hn, hi, hr]
        have hc : contentOf fileFormat m = bigEndian 8 m.u.toNat := by rw [contentOf, ht]; rfl
        have hu : BitVec.ofNat 64 (ofBigEndian (bigEndian 8 m.u.toNat)) = m.u := by
          rw [ofBigEndian_bigEndian, Nat.mod_eq_of_lt (show m.u.toNat < 256^8 from m.u.isLt),
            BitVec.ofNat_toNat, BitVec.setWidth_eq]
        rw [hc, ht, serialGet_real (bigEndian_length _ _), hu, hnan hr, bigEndian_length]
        rfl
      | false =>
        have hb : m.isBytes = true := by simp [Mem.isBytes, hn, hi, hr]
        have ht := @serialTypeOf_bytes fileFormat m hb
        rw [htail] at ht
        rw [content_bytes hb, serialGet_bytes (by omega) (by rw [ht]; split_ifs <;> omega),
          ht, htail]
        cases m.str with
        | true => simp [show (m.z.length*2 + 12 + 1) % 2 = 1 by omega]
        | false => simp

/-- Payloads that read as the same value are the same bytes. Only a NaN reads as NULL. -/
lemma serialGet_injective {serialType : ℕ} {as bs : List UInt8}
    (ha : as.length = sqlite3VdbeSerialTypeLen serialType)
    (hb : bs.length = sqlite3VdbeSerialTypeLen serialType) {restA restB : List UInt8}
    (h : (sqlite3VdbeSerialGet (as ++ restA) serialType).1 =
      (sqlite3VdbeSerialGet (bs ++ restB) serialType).1)
    (hreal : serialType = 7 → (sqlite3VdbeSerialGet (as ++ restA) serialType).1 ≠ .null false) :
    as = bs := by
  have hlen : as.length = bs.length := ha.trans hb.symm
  have hempty : as.length = 0 → as = bs := fun h0 => by
    rw [List.length_eq_zero_iff.mp h0, List.length_eq_zero_iff.mp (hlen.symm.trans h0)]
  rcases lt_or_ge serialType 12 with h12 | h12
  · rcases Nat.lt_or_ge serialType 1 with h0 | h1
    · exact hempty (by rw [ha, show serialType = 0 by omega]; rfl)
    rcases Nat.lt_or_ge 6 serialType with h6 | h6
    · rcases Nat.lt_or_ge 7 serialType with h7 | h7
      · exact hempty (by rw [ha]; interval_cases serialType <;> rfl)
      · obtain rfl : serialType = 7 := by omega
        have hne := hreal rfl
        rw [serialGet_real ha] at h hne
        rw [serialGet_real hb] at h
        have hx : BitVec.ofNat 64 (ofBigEndian as) = BitVec.ofNat 64 (ofBigEndian bs) := by
          cases hA : isNaN (BitVec.ofNat 64 (ofBigEndian as)) with
          | true => simp [hA] at hne
          | false =>
            cases hB : isNaN (BitVec.ofNat 64 (ofBigEndian bs)) with
            | true => simp [hA, hB] at h
            | false => simpa [hA, hB] using h
        rw [← ofInt_signed_eight ha, ← ofInt_signed_eight hb] at hx
        rw [← bigEndian_signed as ha.le, ← bigEndian_signed bs hb.le, hx, hlen]
    · have hsize : sqlite3VdbeSerialTypeLen serialType = smallTypeSizes serialType :=
        if_neg (by omega)
      rw [serialGet_int h1 h6 (ha.trans hsize), serialGet_int h1 h6 (hb.trans hsize)] at h
      have h8 : as.length ≤ 8 := by
        rw [ha]
        interval_cases serialType <;> decide
      rw [← bigEndian_signed as h8, ← bigEndian_signed bs (hlen ▸ h8), Value.int.inj h, hlen]
  · have hsize := serialTypeLen_bytes h12
    rw [serialGet_bytes h12 (ha.trans hsize), serialGet_bytes h12 (hb.trans hsize)] at h
    split_ifs at h
    · exact Value.text.inj h
    · exact Value.blob.inj h

/-- The cells of the given types in a payload. -/
def payloadCells : List ℕ → List UInt8 → List Value
  | [], _ => []
  | t :: ts, p =>
    (sqlite3VdbeSerialGet p t).1 :: payloadCells ts (p.drop (sqlite3VdbeSerialTypeLen t))

lemma putVarint32_pos {v : ℕ} (hv : v < 2^32) : 0 < (putVarint32 v).length := by
  have hlen := varintLen_cases (v := v) (by omega)
  rw [putVarint32_length hv]
  omega

lemma length_le_varints {types : List ℕ} (htypes : ∀ t ∈ types, t < 2^32) :
    types.length ≤ (types.map putVarint32).flatten.length := by
  induction types with
  | nil => simp
  | cons t types ih =>
    have hpos := putVarint32_pos (htypes t (by simp))
    have hrest := ih fun x hx => htypes x (by simp [hx])
    simp only [List.map_cons, List.flatten_cons, List.length_append, List.length_cons]
    omega

/-- Behind the bytes `before` of a header the next type is read. -/
lemma header_next {t : ℕ} (ht : t < 2^32) {types : List ℕ} {before rest aKey : List UInt8}
    (hkey : aKey = before ++ ((t :: types).map putVarint32).flatten ++ rest) :
    getVarint32 (aKey.drop before.length) = ((putVarint32 t).length, t) := by
  rw [hkey, List.append_assoc, List.drop_left, List.map_cons, List.flatten_cons, List.append_assoc,
    getVarint32_put ht]

/-- The loop over the rest of a well-formed record: `types` are still to be read from the
header, whose bytes before them are `before`, and `payload` holds their cells. -/
lemma unpackLoop_eq {types : List ℕ} (htypes : ∀ t ∈ types, t < 2^32)
    {before consumed payload : List UInt8} {aKey : List UInt8}
    (hkey : aKey = before ++ (types.map putVarint32).flatten ++ consumed ++ payload)
    {szHdr nField left u : ℕ}
    (hhdr : szHdr = before.length + (types.map putVarint32).flatten.length)
    (hpay : payload.length = (types.map sqlite3VdbeSerialTypeLen).sum) (hleft : types.length < left)
    (hn : u + types.length ≤ nField) :
    unpackLoop aKey szHdr nField left before.length (szHdr + consumed.length) u =
      (payloadCells types payload, aKey.length) := by
  induction types generalizing before consumed payload left u with
  | nil =>
    obtain ⟨left, rfl⟩ := Nat.exists_eq_add_of_lt hleft
    have hlen : aKey.length = szHdr + consumed.length := by
      simp only [List.map_nil, List.sum_nil, List.length_eq_zero_iff] at hpay
      rw [hkey, hhdr, hpay]
      simp
    rw [List.length_nil, unpackLoop, if_neg (by simp [hhdr]), hlen]
    rfl
  | cons t types ih =>
    obtain ⟨left, rfl⟩ := Nat.exists_eq_add_of_lt hleft
    have ht := htypes t List.mem_cons_self
    have hpos := putVarint32_pos ht
    have hget := header_next ht (hkey.trans (List.append_assoc _ _ _))
    simp only [List.map_cons, List.flatten_cons, List.length_append, List.sum_cons,
      List.length_cons] at *
    have hd : aKey.drop (szHdr + consumed.length) = payload := by
      rw [hkey]
      exact List.drop_left' (by simp only [List.length_append]; omega)
    have hlen : aKey.length = szHdr + consumed.length + payload.length := by
      rw [hkey]
      simp only [List.length_append]
      omega
    rw [unpackLoop, if_pos (by omega), hget, hd]
    simp only [serialGet_len]
    split_ifs with hlast
    · obtain rfl : types = [] := List.length_eq_zero_iff.mp (by omega)
      simp only [List.map_nil, List.sum_nil] at hpay
      simp only [payloadCells, Prod.mk.injEq, true_and]
      omega
    · have hsplit : aKey = before ++ putVarint32 t ++ (types.map putVarint32).flatten ++
          (consumed ++ payload.take (sqlite3VdbeSerialTypeLen t)) ++
          payload.drop (sqlite3VdbeSerialTypeLen t) := by simp [hkey]
      have hnext := ih (fun x hx => htypes x (by simp [hx])) hsplit (u := u+1)
        (by rw [List.length_append]; omega) (by rw [List.length_drop]; omega)
        (show types.length < types.length + 1 + left by omega) (by omega)
      rw [List.length_append, List.length_append, List.length_take, Nat.min_eq_left (by omega),
        ← Nat.add_assoc] at hnext
      rw [hnext]
      rfl

/-- The header starts with its size, and the record has a byte for each of its types. -/
lemma header_read {types : List ℕ} (htypes : ∀ t ∈ types, t < 2^32) {szHdr : ℕ} (hsz : szHdr < 2^32)
    {aKey rest : List UInt8}
    (hkey : aKey = putVarint32 szHdr ++ (types.map putVarint32).flatten ++ rest) :
    getVarint32 aKey = ((putVarint32 szHdr).length, szHdr) ∧ types.length < aKey.length := by
  have h1 := putVarint32_pos hsz
  have h2 := length_le_varints htypes
  constructor
  · rw [hkey, List.append_assoc, getVarint32_put hsz]
  · simp only [hkey, List.length_append]
    omega

/-- A well-formed record is unpacked into the cells of its payload. -/
theorem recordUnpack_eq {types : List ℕ} (htypes : ∀ t ∈ types, t < 2^32) {szHdr : ℕ}
    (hsz : szHdr < 2^32)
    (hhdr : (putVarint32 szHdr ++ (types.map putVarint32).flatten).length = szHdr)
    {payload : List UInt8} (hpay : payload.length = (types.map sqlite3VdbeSerialTypeLen).sum)
    {nField : ℕ} (hn : types.length ≤ nField) :
    sqlite3VdbeRecordUnpack nField
      (putVarint32 szHdr ++ (types.map putVarint32).flatten ++ payload) =
      payloadCells types payload := by
  set aKey := putVarint32 szHdr ++ (types.map putVarint32).flatten ++ payload with hkey
  obtain ⟨hget, hcount⟩ := header_read htypes hsz hkey
  have hloop := unpackLoop_eq htypes
    (show aKey = putVarint32 szHdr ++ (types.map putVarint32).flatten ++ [] ++
      payload by simp [hkey])
    (by rw [← List.length_append, hhdr]) hpay hcount (show 0 + types.length ≤ nField by omega)
  rw [List.length_nil, Nat.add_zero] at hloop
  rw [sqlite3VdbeRecordUnpack, hget]
  simp only [hloop, Nat.lt_irrefl, false_and, if_false]

end Cells

end IronSafe.Record
