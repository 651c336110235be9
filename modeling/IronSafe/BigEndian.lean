import Mathlib

/-! Numbers in big-endian bytes: the bytes of a number, the number of a byte string, and the
two's complement reading of a byte string. -/
namespace IronSafe.BigEndian

/-- The `len` low bytes of `v`, most significant first. -/
def bigEndian : ℕ → ℕ → List UInt8
  | 0, _ => []
  | len+1, v => bigEndian len (v >>> 8) ++ [UInt8.ofNat v]

/-- The number whose bytes are `bs`. -/
def ofBigEndian (bs : List UInt8) : ℕ := bs.foldl (fun v b => v*256 + b.toNat) 0

/-- The two's complement reading of `bs`. -/
def signed (bs : List UInt8) : ℤ := (ofBigEndian bs : ℤ).bmod (256^bs.length)

@[simp] lemma bigEndian_length (len v : ℕ) : (bigEndian len v).length = len := by
  induction len generalizing v with
  | zero => rfl
  | succ len ih => simp [bigEndian, ih]

@[simp] lemma ofBigEndian_nil : ofBigEndian [] = 0 := rfl

lemma ofBigEndian_concat (bs : List UInt8) (b : UInt8) :
    ofBigEndian (bs ++ [b]) = ofBigEndian bs*256 + b.toNat := by
  rw [ofBigEndian, List.foldl_append]
  rfl

lemma ofBigEndian_append (as bs : List UInt8) :
    ofBigEndian (as ++ bs) = ofBigEndian as*256^bs.length + ofBigEndian bs := by
  induction bs using List.reverseRecOn with
  | nil => simp
  | append_singleton bs b ih =>
    rw [← List.append_assoc, ofBigEndian_concat, ofBigEndian_concat, ih, List.length_append,
      List.length_singleton]
    ring

lemma ofBigEndian_lt (bs : List UInt8) : ofBigEndian bs < 256^bs.length := by
  induction bs using List.reverseRecOn with
  | nil => simp
  | append_singleton bs b ih =>
    have hb := b.toNat_lt
    rw [ofBigEndian_concat, List.length_append, List.length_singleton, pow_succ]
    omega

lemma ofBigEndian_bigEndian (len v : ℕ) : ofBigEndian (bigEndian len v) = v % 256^len := by
  induction len generalizing v with
  | zero => simp [bigEndian, Nat.mod_one]
  | succ len ih =>
    rw [bigEndian, ofBigEndian_concat, ih, Nat.shiftRight_eq_div_pow, UInt8.toNat_ofNat',
      show 256^(len+1) = 256*256^len from pow_succ' 256 len, Nat.mod_mul,
      show (2 : ℕ)^8 = 256 from rfl]
    omega

/-- Only the low bytes of the number matter. -/
lemma bigEndian_mod (len v : ℕ) : bigEndian len (v % 256^len) = bigEndian len v := by
  induction len generalizing v with
  | zero => rfl
  | succ len ih =>
    have hdiv : (v % 256^(len+1)) >>> 8 = (v >>> 8) % 256^len := by
      rw [Nat.shiftRight_eq_div_pow, Nat.shiftRight_eq_div_pow, pow_succ',
        Nat.mod_mul_right_div_self]
    have hlow : UInt8.ofNat (v % 256^(len+1)) = UInt8.ofNat v := by
      apply UInt8.toNat_inj.mp
      rw [UInt8.toNat_ofNat', UInt8.toNat_ofNat', pow_succ', Nat.mod_mul_right_mod]
    rw [bigEndian, bigEndian, hdiv, ih, hlow]

lemma bigEndian_ofBigEndian (bs : List UInt8) : bigEndian bs.length (ofBigEndian bs) = bs := by
  induction bs using List.reverseRecOn with
  | nil => rfl
  | append_singleton bs b ih =>
    have hb := b.toNat_lt
    have hdiv : ofBigEndian (bs ++ [b]) >>> 8 = ofBigEndian bs := by
      rw [ofBigEndian_concat, Nat.shiftRight_eq_div_pow]
      omega
    have hlow : UInt8.ofNat (ofBigEndian (bs ++ [b])) = b := by
      apply UInt8.toNat_inj.mp
      rw [ofBigEndian_concat, UInt8.toNat_ofNat']
      omega
    rw [List.length_append, List.length_singleton, bigEndian, hdiv, ih, hlow]

lemma dvd_two_pow {len : ℕ} (h8 : len ≤ 8) : 256^len ∣ 2^64 := by
  rw [show (256 : ℕ) = 2^8 from rfl, ← pow_mul]
  exact pow_dvd_pow 2 (by omega)

lemma two_mul_half {len : ℕ} (hlen : 0 < len) : ((256^len : ℕ) : ℤ) = 2*2^(8*len-1) := by
  rw [show (256 : ℕ) = 2^8 from rfl, ← pow_mul, ← pow_succ', show 8*len-1+1 = 8*len by omega]
  norm_cast

/-- A word that fits the bytes is read back from them. -/
lemma signed_bigEndian {len : ℕ} (hlen : 0 < len) (h8 : len ≤ 8) {u : BitVec 64}
    (hlo : -2^(8*len-1) ≤ u.toInt) (hhi : u.toInt < 2^(8*len-1)) :
    signed (bigEndian len u.toNat) = u.toInt := by
  have hm := two_mul_half hlen
  have hcut := Int.bmod_bmod_of_dvd (a := u.toNat) (dvd_two_pow h8)
  rw [← BitVec.toInt_eq_toNat_bmod] at hcut
  rw [signed, bigEndian_length, ofBigEndian_bigEndian, Int.natCast_mod, Int.emod_bmod, ← hcut]
  exact Int.bmod_eq_of_le (by omega) (by omega)

/-- The bytes are found again in the word that they are read as. -/
lemma bigEndian_signed (bs : List UInt8) (h8 : bs.length ≤ 8) :
    bigEndian bs.length (BitVec.ofInt 64 (signed bs)).toNat = bs := by
  have hdvd : ((256^bs.length : ℕ) : ℤ) ∣ ((2^64 : ℕ) : ℤ) :=
    Int.natCast_dvd_natCast.mpr (dvd_two_pow h8)
  have hmod : (BitVec.ofInt 64 (signed bs)).toNat % 256^bs.length = ofBigEndian bs := by
    zify
    rw [BitVec.toNat_ofInt, Int.toNat_of_nonneg (Int.emod_nonneg _ (by norm_num))]
    rw [show ((256 : ℤ)^bs.length) = ((256^bs.length : ℕ) : ℤ) by norm_cast,
      Int.emod_emod_of_dvd _ hdvd, signed, Int.bmod_emod]
    exact_mod_cast Nat.mod_eq_of_lt (ofBigEndian_lt bs)
  rw [← bigEndian_mod, hmod, bigEndian_ofBigEndian]

lemma toNat_concat {w : ℕ} (v : BitVec w) (b : UInt8) :
    (v ++ b.toBitVec).toNat = v.toNat*256 + b.toNat := by
  rw [BitVec.toNat_append, ← Nat.shiftLeft_add_eq_or_of_lt b.toBitVec.isLt, Nat.shiftLeft_eq]
  rfl

/-- A word made of the bytes has their two's complement value. -/
lemma toInt_eq_signed {w : ℕ} {v : BitVec w} {bs : List UInt8} (hw : 2^w = 256^bs.length)
    (hv : v.toNat = ofBigEndian bs) : v.toInt = signed bs := by
  rw [BitVec.toInt_eq_toNat_bmod, signed, hw, hv]

lemma ofInt_signed_eight {bs : List UInt8} (hb : bs.length = 8) :
    BitVec.ofInt 64 (signed bs) = BitVec.ofNat 64 (ofBigEndian bs) := by
  apply BitVec.eq_of_toInt_eq
  rw [BitVec.toInt_ofInt, signed, hb, BitVec.toInt_ofNat',
    show 256^8 = 2^64 by norm_num, Int.bmod_bmod]

end IronSafe.BigEndian
