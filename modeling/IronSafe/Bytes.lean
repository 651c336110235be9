import Mathlib

/-! Byte buffers: in-place copies at an offset, the bytes found at an offset, and
little-endian 32-bit words. A buffer is a list of bytes; all operations are total. -/
namespace IronSafe.Bytes

/-- The `len` bytes at offset `off`; shorter when the buffer ends earlier. -/
def slice {α : Type*} (off len : ℕ) (buf : List α) : List α := (buf.drop off).take len

/-- Copy `bs` over the buffer from offset `off` on, as `memcpy` does. -/
def overwrite {α : Type*} (buf : List α) (off : ℕ) (bs : List α) : List α :=
  buf.take off ++ bs ++ buf.drop (off + bs.length)

variable {α : Type*}

@[simp] lemma overwrite_length (buf bs : List α) {off : ℕ} (h : off + bs.length ≤ buf.length) :
    (overwrite buf off bs).length = buf.length := by
  simp only [overwrite, List.length_append, List.length_take, List.length_drop]
  omega

@[simp] lemma slice_length (buf : List α) {off len : ℕ} (h : off + len ≤ buf.length) :
    (slice off len buf).length = len := by
  simp only [slice, List.length_take, List.length_drop]
  omega

lemma getElem?_slice (buf : List α) (off len i : ℕ) :
    (slice off len buf)[i]? = if i < len then buf[off+i]? else none := by
  simp [slice, List.getElem?_take, List.getElem?_drop]

lemma getElem?_overwrite (buf bs : List α) {off : ℕ} (h : off + bs.length ≤ buf.length) (i : ℕ) :
    (overwrite buf off bs)[i]? =
      if off ≤ i ∧ i < off + bs.length then bs[i-off]? else buf[i]? := by
  have hm : min off buf.length = off := by omega
  simp only [overwrite, List.append_assoc, List.getElem?_append, List.length_take, hm,
    List.getElem?_take, List.getElem?_drop]
  by_cases h1 : i < off
  · simp [h1, show ¬ off ≤ i by omega]
  · by_cases h2 : i < off + bs.length
    · simp [h1, h2, show off ≤ i by omega, show i - off < bs.length by omega]
    · simp [h1, h2, show ¬ i - off < bs.length by omega,
        show off + bs.length + (i - off - bs.length) = i by omega]

/-- A copy reads back as the bytes copied. -/
lemma slice_overwrite_self (buf bs : List α) {off len : ℕ} (hl : bs.length = len)
    (h : off + bs.length ≤ buf.length) : slice off len (overwrite buf off bs) = bs := by
  subst hl
  apply List.ext_getElem?
  intro i
  rw [getElem?_slice, getElem?_overwrite _ _ h]
  by_cases hi : i < bs.length
  · simp [hi]
  · simp [hi]

/-- A copy leaves every byte outside its target as it was. -/
lemma slice_overwrite_of_disjoint (buf bs : List α) {off a len : ℕ}
    (h : off + bs.length ≤ buf.length) (hd : a + len ≤ off ∨ off + bs.length ≤ a) :
    slice a len (overwrite buf off bs) = slice a len buf := by
  apply List.ext_getElem?
  intro i
  rw [getElem?_slice, getElem?_slice, getElem?_overwrite _ _ h]
  by_cases hi : i < len
  · simp only [if_pos hi]
    rw [if_neg (by omega)]
  · simp [hi]

lemma take_overwrite (buf bs : List α) {off : ℕ} (h : off + bs.length ≤ buf.length) :
    (overwrite buf off bs).take (off+bs.length) = buf.take off ++ bs := by
  have hl : (buf.take off ++ bs).length = off + bs.length := by
    simp only [List.length_append, List.length_take]
    omega
  rw [overwrite, ← hl, List.take_left]

lemma take_overwrite_of_le (buf bs : List α) {off n : ℕ} (h : off + bs.length ≤ buf.length)
    (hn : n ≤ off) : (overwrite buf off bs).take n = buf.take n := by
  have hh : slice 0 n (overwrite buf off bs) = slice 0 n buf :=
    slice_overwrite_of_disjoint buf bs h (Or.inl (by omega))
  simpa [slice] using hh

/-- Two copies in a row are one copy of the bytes together. -/
lemma overwrite_overwrite_append (buf xs ys : List α) {off : ℕ} (h : off + xs.length ≤ buf.length) :
    overwrite (overwrite buf off xs) (off+xs.length) ys = overwrite buf off (xs ++ ys) := by
  have hl : (buf.take off ++ xs).length = off + xs.length := by
    simp only [List.length_append, List.length_take]
    omega
  have hd : (overwrite buf off xs).drop (off+xs.length+ys.length) =
      buf.drop (off+(xs ++ ys).length) := by
    rw [overwrite, ← List.drop_drop, ← hl, List.drop_left, hl, List.drop_drop, List.length_append,
      Nat.add_assoc]
  rw [overwrite, take_overwrite buf xs h, hd]
  simp [overwrite]

/-- Copies to places that do not overlap commute. -/
lemma overwrite_comm (buf xs ys : List α) {a b : ℕ} (ha : a + xs.length ≤ b)
    (hb : b + ys.length ≤ buf.length) :
    overwrite (overwrite buf a xs) b ys = overwrite (overwrite buf b ys) a xs := by
  have hxs : a + xs.length ≤ buf.length := by omega
  have h1 : b + ys.length ≤ (overwrite buf a xs).length := by
    rw [overwrite_length _ _ hxs]
    exact hb
  have h2 : a + xs.length ≤ (overwrite buf b ys).length := by
    rw [overwrite_length _ _ hb]
    exact hxs
  apply List.ext_getElem?
  intro i
  rw [getElem?_overwrite _ _ h1, getElem?_overwrite _ _ h2, getElem?_overwrite _ _ hxs,
    getElem?_overwrite _ _ hb]
  split_ifs <;> first | rfl | omega

lemma slice_append_left (xs ys : List α) {off len : ℕ} (h : off + len ≤ xs.length) :
    slice off len (xs ++ ys) = slice off len xs := by
  apply List.ext_getElem?
  intro i
  rw [getElem?_slice, getElem?_slice]
  by_cases hi : i < len
  · simp only [if_pos hi]
    rw [List.getElem?_append_left (by omega)]
  · simp [hi]

@[simp] lemma slice_zero (buf : List α) (len : ℕ) : slice 0 len buf = buf.take len := by
  simp [slice]

/-- Blocks of one length: block `i` of the concatenation sits at offset `i*L`. -/
lemma slice_flatten (blocks : List (List α)) {L : ℕ} (hL : ∀ b ∈ blocks, b.length = L)
    (i : ℕ) (hi : i < blocks.length) : slice (i*L) L blocks.flatten = blocks[i] := by
  induction blocks generalizing i with
  | nil => simp at hi
  | cons b bs ih =>
    have hb := hL b (by simp)
    cases i with
    | zero => simp [slice, ← hb]
    | succ i =>
      have hh := ih (fun x hx => hL x (by simp [hx])) i (by simpa using hi)
      rw [List.flatten_cons, List.getElem_cons_succ, ← hh]
      simp only [slice]
      rw [show (i+1)*L = b.length + i*L by rw [hb]; ring, ← List.drop_drop, List.drop_left]

lemma length_flatten_blocks (blocks : List (List α)) {L : ℕ} (hL : ∀ b ∈ blocks, b.length = L) :
    blocks.flatten.length = blocks.length*L := by
  induction blocks with
  | nil => simp
  | cons b bs ih =>
    rw [List.flatten_cons, List.length_append, hL b (by simp),
      ih (fun x hx => hL x (by simp [hx])), List.length_cons]
    ring

/-- The four bytes of a 32-bit word, least significant first. -/
def le32 (v : ℕ) : List UInt8 :=
  [UInt8.ofNat v, UInt8.ofNat (v/2^8), UInt8.ofNat (v/2^16), UInt8.ofNat (v/2^24)]

/-- The four bytes of a 32-bit word, most significant first. -/
def be32 (v : ℕ) : List UInt8 := (le32 v).reverse

/-- The 32-bit word at the start of a buffer; bytes past its end count as zero. -/
def readLe32 (buf : List UInt8) : ℕ :=
  (buf.getD 0 0).toNat + 2^8*(buf.getD 1 0).toNat + 2^16*(buf.getD 2 0).toNat +
    2^24*(buf.getD 3 0).toNat

@[simp] lemma le32_length (v : ℕ) : (le32 v).length = 4 := rfl

@[simp] lemma readLe32_le32_append (v : ℕ) (rest : List UInt8) :
    readLe32 (le32 v ++ rest) = v % 2^32 := by
  simp only [readLe32, le32, List.cons_append, List.nil_append, List.getD_cons_zero,
    List.getD_cons_succ, UInt8.toNat_ofNat']
  omega

@[simp] lemma readLe32_le32 (v : ℕ) : readLe32 (le32 v) = v % 2^32 := by
  simpa using readLe32_le32_append v []

end IronSafe.Bytes
