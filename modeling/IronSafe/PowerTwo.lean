import Mathlib

/-! The least power of two that holds a number: how it changes when the number grows by one, and
how it is computed on machine words by smearing the highest bit over all lower ones. -/
namespace IronSafe.PowerTwo

/-- The number `c` is the least power of two that is at least `n`. -/
def Fits (n c : ℕ) : Prop := IsLeast {m | (∃ k, m = 2^k) ∧ n ≤ m} c

lemma fits_pow (k : ℕ) : Fits (2^k) (2^k) := ⟨⟨⟨k, rfl⟩, le_rfl⟩, fun _ hm => hm.2⟩

lemma fits_size {n : ℕ} (hn : 0 < n) : Fits n (2^(n-1).size) := by
  constructor
  · have hlt := Nat.lt_size_self (n-1)
    exact ⟨⟨_, rfl⟩, by omega⟩
  · rintro m ⟨⟨k, rfl⟩, hle⟩
    have hsize : (n-1).size ≤ k := Nat.size_le.mpr (by omega)
    exact Nat.pow_le_pow_right (by omega) hsize

/-- Behind a power of two the next one is needed. -/
lemma fits_pow_succ (k : ℕ) : Fits (2^k+1) (2^(k+1)) := by
  have hpos := Nat.two_pow_pos k
  have hdouble := Nat.pow_succ 2 k
  constructor
  · exact ⟨⟨k+1, rfl⟩, by omega⟩
  · rintro m ⟨⟨j, rfl⟩, hle⟩
    have hlt : k < j := (Nat.pow_lt_pow_iff_right (a := 2) (by omega)).mp (by omega)
    exact Nat.pow_le_pow_right (by omega) hlt

/-- Behind any other number there is still room. -/
lemma Fits.succ {n c : ℕ} (h : Fits n c) (hn : ∀ k, n ≠ 2^k) : Fits (n+1) c := by
  have hlt : ∀ m, (∃ k, m = 2^k) → n ≤ m → n+1 ≤ m := by
    rintro m ⟨k, rfl⟩ hle
    exact lt_of_le_of_ne hle (hn k)
  constructor
  · exact ⟨h.1.1, hlt c h.1.1 h.1.2⟩
  · exact fun m hm => h.2 ⟨hm.1, by have := hm.2; omega⟩

lemma not_fits_zero (n : ℕ) : ¬ Fits n 0 := by
  rintro ⟨⟨⟨k, hk⟩, -⟩, -⟩
  have := Nat.two_pow_pos k
  omega

section Smear

variable {w : ℕ}

/-- The word joined with itself shifted by 1, by 2, by 4 and so on. -/
def smear : ℕ → BitVec w → BitVec w
  | 0, x => x
  | k+1, x => smear k x ||| smear k x >>> 2^k

/-- After `k` steps a bit is set if one of the `2^k` bits from there on was. -/
lemma getLsbD_smear (k : ℕ) (x : BitVec w) (i : ℕ) :
    (smear k x).getLsbD i = true ↔ ∃ j < 2^k, x.getLsbD (i+j) = true := by
  induction k generalizing i with
  | zero => simp [smear]
  | succ k ih =>
    rw [smear, BitVec.getLsbD_or, BitVec.getLsbD_ushiftRight, Bool.or_eq_true, ih, ih]
    constructor
    · rintro (⟨j, hj, hbit⟩ | ⟨j, hj, hbit⟩)
      · exact ⟨j, by omega, hbit⟩
      · exact ⟨2^k+j, by omega, by rwa [← Nat.add_assoc, Nat.add_comm i]⟩
    · rintro ⟨j, hj, hbit⟩
      by_cases hlow : j < 2^k
      · exact .inl ⟨j, hlow, hbit⟩
      · exact .inr ⟨j - 2^k, by omega, by rwa [show 2^k + i + (j - 2^k) = i+j by omega]⟩

/-- Smeared over the whole word, the highest bit fills all bits below it. -/
lemma toNat_smear {k : ℕ} (hk : w ≤ 2^k) (x : BitVec w) :
    (smear k x).toNat = 2^x.toNat.size - 1 := by
  apply Nat.eq_of_testBit_eq
  intro i
  rw [Nat.testBit_two_pow_sub_one, BitVec.testBit_toNat, Bool.eq_iff_iff, getLsbD_smear,
    decide_eq_true_eq, Nat.lt_size]
  constructor
  · rintro ⟨j, -, hbit⟩
    calc 2^i ≤ 2^(i+j) := Nat.pow_le_pow_right (by omega) (Nat.le_add_right i j)
      _ ≤ x.toNat := Nat.ge_two_pow_of_testBit hbit
  · intro hle
    obtain ⟨m, hm, hbit⟩ := Nat.exists_ge_and_testBit_of_ge_two_pow hle
    have hw : m < w := BitVec.lt_of_getLsbD hbit
    exact ⟨m-i, by omega, by rwa [Nat.add_sub_cancel' hm]⟩

/-- The classic rounding of a word up to a power of two, with its overflow. -/
lemma toNat_smear_add_one {k : ℕ} (hk : w ≤ 2^k) (x : BitVec w) :
    (smear k x + 1).toNat = 2^x.toNat.size % 2^w := by
  have hpos := Nat.two_pow_pos x.toNat.size
  rw [BitVec.toNat_add, toNat_smear hk]
  rcases Nat.eq_zero_or_pos w with rfl | hw
  · simp [Nat.mod_one]
  · have hone : (1 : BitVec w).toNat = 1 := by
      simpa using Nat.mod_eq_of_lt (Nat.one_lt_two_pow hw.ne')
    rw [hone, Nat.sub_add_cancel hpos]

end Smear

end IronSafe.PowerTwo
