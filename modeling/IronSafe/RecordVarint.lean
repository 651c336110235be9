import IronSafe.Bytes

/-! The variable-length integers of SQLite: big-endian groups of seven bits, every byte but
the last with its high bit set. Words are natural numbers cut to 32 bits where the source
shifts a `u32`. -/
namespace IronSafe.Record
open Bytes

/-- The byte at position `i`; a read past the end counts as zero. -/
def byteAt (p : List UInt8) (i : ℕ) : ℕ := (p.getD i 0).toNat

/-- The loop of the nine-byte case, from position `i-1` down to 0. -/
def putVarintNine : ℕ → ℕ → List UInt8
  | 0, _ => []
  | i+1, v => putVarintNine i (v >>> 7) ++ [UInt8.ofNat ((v &&& 0x7f) ||| 0x80)]

/-- The groups of `v`, least significant first; the first argument bounds their number. -/
def putVarintLoop : ℕ → ℕ → List UInt8
  | 0, _ => []
  | left+1, v =>
    UInt8.ofNat ((v &&& 0x7f) ||| 0x80) :: if v >>> 7 ≠ 0 then putVarintLoop left (v >>> 7) else []

def clearFirst : List UInt8 → List UInt8
  | [] => []
  | b :: bs => (b &&& 0x7f) :: bs

def putVarint64 (v : ℕ) : List UInt8 :=
  if v &&& (0xff000000 <<< 32) ≠ 0 then putVarintNine 8 (v >>> 8) ++ [UInt8.ofNat v]
  else (clearFirst (putVarintLoop 10 v)).reverse

def sqlite3PutVarint (v : ℕ) : List UInt8 :=
  if v ≤ 0x7f then [UInt8.ofNat (v &&& 0x7f)]
  else if v ≤ 0x3fff then [UInt8.ofNat (((v >>> 7) &&& 0x7f) ||| 0x80), UInt8.ofNat (v &&& 0x7f)]
  else putVarint64 v

def putVarint32 (v : ℕ) : List UInt8 := if v < 0x80 then [UInt8.ofNat v] else sqlite3PutVarint v

def varintLenLoop : ℕ → ℕ → ℕ → ℕ
  | 0, i, _ => i
  | left+1, i, v => if v >>> 7 ≠ 0 then varintLenLoop left (i+1) (v >>> 7) else i

def sqlite3VarintLen (v : ℕ) : ℕ := varintLenLoop 10 1 v

def slot20 : ℕ := 0x001fc07f
def slot420 : ℕ := 0xf01fc07f

/-- A left shift of a `u32`. -/
def shl32 (a k : ℕ) : ℕ := (a <<< k) % 2^32

/-- The reader: number of bytes read and value. Past the fifth byte `a`, `b` and `s` are
the three accumulators of the source. -/
def sqlite3GetVarintLong (p : List UInt8) (a b s : ℕ) : ℕ × ℕ :=
  let s := shl32 s 7 ||| b
  let b := shl32 b 14 ||| byteAt p 5
  if b &&& 0x80 = 0 then
    let a := shl32 (a &&& slot20) 7 ||| b
    (6, ((s >>> 18) <<< 32) ||| a)
  else
    let a := shl32 a 14 ||| byteAt p 6
    if a &&& 0x80 = 0 then
      let a := (a &&& slot420) ||| shl32 (b &&& slot20) 7
      (7, ((s >>> 11) <<< 32) ||| a)
    else
      let a := a &&& slot20
      let b := shl32 b 14 ||| byteAt p 7
      if b &&& 0x80 = 0 then
        let a := shl32 a 7 ||| (b &&& slot420)
        (8, ((s >>> 4) <<< 32) ||| a)
      else
        let a := shl32 a 15 ||| byteAt p 8
        let a := a ||| shl32 (b &&& slot20) 8
        let s := shl32 s 4 ||| ((byteAt p 4 &&& 0x7f) >>> 3)
        (9, (s <<< 32) ||| a)

def sqlite3GetVarint (p : List UInt8) : ℕ × ℕ :=
  if byteAt p 0 < 0x80 then (1, byteAt p 0)
  else if byteAt p 1 < 0x80 then (2, ((byteAt p 0 &&& 0x7f) <<< 7) ||| byteAt p 1)
  else
    let a := shl32 (byteAt p 0) 14 ||| byteAt p 2
    let b := byteAt p 1
    if a &&& 0x80 = 0 then (3, (a &&& slot20) ||| shl32 (b &&& 0x7f) 7)
    else
      let a := a &&& slot20
      let b := shl32 b 14 ||| byteAt p 3
      if b &&& 0x80 = 0 then (4, shl32 a 7 ||| (b &&& slot20))
      else
        let b := b &&& slot20
        let s := a
        let a := shl32 a 14 ||| byteAt p 4
        if a &&& 0x80 = 0 then (5, ((s >>> 18) <<< 32) ||| (a ||| shl32 b 7))
        else sqlite3GetVarintLong p a b s

def sqlite3GetVarint32 (p : List UInt8) : ℕ × ℕ :=
  let a := byteAt p 0
  let b := byteAt p 1
  if b &&& 0x80 = 0 then (2, shl32 (a &&& 0x7f) 7 ||| b)
  else
    let a := shl32 a 14 ||| byteAt p 2
    if a &&& 0x80 = 0 then (3, (a &&& slot20) ||| shl32 (b &&& 0x7f) 7)
    else
      let r := sqlite3GetVarint p
      (r.1, if r.2 &&& 0xffffffff ≠ r.2 then 0xffffffff else r.2)

/-- The macro, which handles the one-byte case itself. -/
def getVarint32 (p : List UInt8) : ℕ × ℕ :=
  if byteAt p 0 < 0x80 then (1, byteAt p 0) else sqlite3GetVarint32 p

section Bits

lemma and_7f (v : ℕ) : v &&& 0x7f = v % 128 := Nat.and_two_pow_sub_one_eq_mod v 7

lemma and_split {k x y m n : ℕ} (hy : y < 2^k) (hn : n < 2^k) :
    (2^k*x + y) &&& (2^k*m + n) = 2^k*(x &&& m) + (y &&& n) := by
  apply Nat.eq_of_testBit_eq
  intro i
  rw [Nat.testBit_and, Nat.testBit_two_pow_mul_add x hy, Nat.testBit_two_pow_mul_add m hn,
    Nat.testBit_two_pow_mul_add _ (Nat.and_lt_two_pow y hn)]
  split_ifs <;> simp

lemma or_split {k x y m n : ℕ} (hy : y < 2^k) (hn : n < 2^k) :
    (2^k*x + y) ||| (2^k*m + n) = 2^k*(x ||| m) + (y ||| n) := by
  apply Nat.eq_of_testBit_eq
  intro i
  rw [Nat.testBit_or, Nat.testBit_two_pow_mul_add x hy, Nat.testBit_two_pow_mul_add m hn,
    Nat.testBit_two_pow_mul_add _ (Nat.or_lt_two_pow hy hn)]
  split_ifs <;> simp

lemma or_low {k x y : ℕ} (hy : y < 2^k) : 2^k*x ||| y = 2^k*x + y := by
  have h := or_split (k := k) (x := x) (y := 0) (m := 0) (n := y) (by positivity) hy
  simpa using h

/-- A group with its high bit set. -/
lemma or_80 {g : ℕ} (hg : g < 128) : g ||| 0x80 = g + 128 := by
  rw [Nat.or_comm, Nat.add_comm]
  exact or_low (k := 7) (x := 1) hg

lemma shiftRight_7 (v : ℕ) : v >>> 7 = v/128 := Nat.shiftRight_eq_div_pow v 7

end Bits

/-- A byte that is followed by more groups. -/
def more (g : ℕ) : UInt8 := UInt8.ofNat (g % 128 + 128)

lemma more_eq (v : ℕ) : UInt8.ofNat ((v &&& 0x7f) ||| 0x80) = more v := by
  rw [and_7f, or_80 (Nat.mod_lt _ (by omega)), more]

lemma more_and (v : ℕ) : more v &&& 0x7f = UInt8.ofNat (v % 128) := by
  apply UInt8.toNat_inj.mp
  rw [UInt8.toNat_and, more, UInt8.toNat_ofNat', UInt8.toNat_ofNat',
    show UInt8.toNat 0x7f = 0x7f from rfl, and_7f]
  omega

lemma putVarintLoop_succ (left v : ℕ) :
    putVarintLoop (left+1) v = more v :: if v/128 ≠ 0 then putVarintLoop left (v/128) else [] := by
  rw [putVarintLoop, more_eq, shiftRight_7]

/-- The bytes of a 32-bit varint, by number of groups. -/
lemma putVarint32_eq {v : ℕ} (hv : v < 2^32) :
    putVarint32 v =
      if v < 2^7 then [UInt8.ofNat v]
      else if v < 2^14 then [more (v/128), UInt8.ofNat (v % 128)]
      else if v < 2^21 then [more (v/128/128), more (v/128), UInt8.ofNat (v % 128)]
      else if v < 2^28 then
        [more (v/128/128/128), more (v/128/128), more (v/128), UInt8.ofNat (v % 128)]
      else
        [more (v/128/128/128/128), more (v/128/128/128), more (v/128/128), more (v/128),
          UInt8.ofNat (v % 128)] := by
  have h64 : ¬ v &&& (0xff000000 <<< 32) ≠ 0 := by
    have h := and_split (k := 32) (x := 0) (y := v) (m := 0xff000000) (n := 0) hv (by omega)
    simp only [Nat.mul_zero, Nat.zero_add, Nat.zero_and, Nat.and_zero, Nat.add_zero] at h
    rw [ne_eq, not_not]
    exact h
  unfold putVarint32 sqlite3PutVarint
  by_cases h1 : v < 2^7
  · rw [if_pos h1, if_pos (by omega)]
  rw [if_neg h1, if_neg (by omega), if_neg (by omega)]
  by_cases h2 : v < 2^14
  · rw [if_pos h2, if_pos (by omega), more_eq, shiftRight_7, and_7f]
  rw [if_neg h2, if_neg (by omega), putVarint64, if_neg h64]
  have e1 : v/128 ≠ 0 := by omega
  have e2 : v/128/128 ≠ 0 := by omega
  simp only [show (10 : ℕ) = 6+1+1+1+1 from rfl, putVarintLoop_succ, if_pos e1, if_pos e2]
  by_cases h3 : v < 2^21
  · rw [if_pos h3]
    simp [show ¬ v/128/128/128 ≠ 0 by omega, clearFirst, more_and]
  have e3 : v/128/128/128 ≠ 0 := by omega
  by_cases h4 : v < 2^28
  · rw [if_neg h3, if_pos h4]
    simp [show ¬ v/128/128/128/128 ≠ 0 by omega, clearFirst, more_and, e3]
  have e4 : v/128/128/128/128 ≠ 0 := by omega
  simp only [if_neg h3, if_neg h4, if_pos e3, if_pos e4,
    show ¬ v/128/128/128/128/128 ≠ 0 by omega, if_false, clearFirst, more_and,
    List.reverse_cons, List.reverse_nil, List.nil_append, List.cons_append]

lemma varintLenLoop_succ (left i v : ℕ) :
    varintLenLoop (left+1) i v = if v/128 ≠ 0 then varintLenLoop left (i+1) (v/128) else i := by
  rw [varintLenLoop, shiftRight_7]

lemma le_varintLenLoop (left i v : ℕ) : i ≤ varintLenLoop left i v := by
  induction left generalizing i v with
  | zero => rfl
  | succ left ih =>
    rw [varintLenLoop]
    split_ifs
    · exact (Nat.le_succ i).trans (ih (i+1) _)
    · rfl

lemma sqlite3VarintLen_eq {v : ℕ} (hv : v < 2^35) :
    sqlite3VarintLen v =
      if v < 2^7 then 1 else if v < 2^14 then 2 else if v < 2^21 then 3 else if v < 2^28 then 4
      else 5 := by
  rw [sqlite3VarintLen, show (10 : ℕ) = 5+1+1+1+1+1 from rfl, varintLenLoop_succ]
  by_cases h1 : v < 2^7
  · rw [if_pos h1, if_neg (by omega)]
  rw [if_neg h1, if_pos (by omega), varintLenLoop_succ]
  by_cases h2 : v < 2^14
  · rw [if_pos h2, if_neg (by omega)]
  rw [if_neg h2, if_pos (by omega), varintLenLoop_succ]
  by_cases h3 : v < 2^21
  · rw [if_pos h3, if_neg (by omega)]
  rw [if_neg h3, if_pos (by omega), varintLenLoop_succ]
  by_cases h4 : v < 2^28
  · rw [if_pos h4, if_neg (by omega)]
  rw [if_neg h4, if_pos (by omega), varintLenLoop_succ, if_neg (by omega)]

lemma varintLen_cases {v : ℕ} (hv : v < 2^35) :
    v < 2^7 ∧ sqlite3VarintLen v = 1 ∨ (2^7 ≤ v ∧ v < 2^14) ∧ sqlite3VarintLen v = 2 ∨
      (2^14 ≤ v ∧ v < 2^21) ∧ sqlite3VarintLen v = 3 ∨ (2^21 ≤ v ∧ v < 2^28) ∧
        sqlite3VarintLen v = 4 ∨ 2^28 ≤ v ∧ sqlite3VarintLen v = 5 := by
  rw [sqlite3VarintLen_eq hv]
  split_ifs <;> omega

/-- The sizing pass counts the bytes that the writer writes. -/
lemma putVarint32_length {v : ℕ} (hv : v < 2^32) : (putVarint32 v).length = sqlite3VarintLen v := by
  rw [putVarint32_eq hv, sqlite3VarintLen_eq (by omega)]
  split_ifs <;> rfl

lemma byteAt_zero (b : UInt8) (p : List UInt8) : byteAt (b :: p) 0 = b.toNat := rfl

lemma byteAt_succ (b : UInt8) (p : List UInt8) (i : ℕ) : byteAt (b :: p) (i+1) = byteAt p i := rfl

lemma more_toNat (g : ℕ) : (more g).toNat = g % 128 + 128 := by
  rw [more, UInt8.toNat_ofNat']
  omega

lemma last_toNat (v : ℕ) : (UInt8.ofNat (v % 128)).toNat = v % 128 := by
  rw [UInt8.toNat_ofNat']
  omega

/-- Bit 7 of a word whose low bits are a byte. -/
lemma and_80 (x : ℕ) {y g : ℕ} (hy : y < 2) (hg : g < 128) :
    (2^14*x + (2^7*y + g)) &&& 0x80 = 2^7*y := by
  have h :=
    and_split (k := 14) (x := x) (y := 2^7*y + g) (m := 0) (n := 2^7*1+0) (by omega) (by omega)
  have hb := and_split (k := 7) (x := y) (y := g) (m := 1) (n := 0) hg (by omega)
  rw [hb] at h
  simp only [Nat.mul_zero, Nat.zero_add, Nat.and_zero, Nat.add_zero] at h
  rw [show (0x80 : ℕ) = 2^7*1 from rfl, h, Nat.and_one_is_mod, Nat.mod_eq_of_lt hy]

lemma and_80_more (x g : ℕ) : ¬ (2^14*x + (g % 128 + 128)) &&& 0x80 = 0 := by
  rw [show g % 128 + 128 = 2^7*1 + g % 128 by omega, and_80 x (by omega) (Nat.mod_lt _ (by omega))]
  omega

lemma and_80_last (x : ℕ) {g : ℕ} (hg : g < 128) : (2^14*x + g) &&& 0x80 = 0 := by
  have h := and_80 x (y := 0) (by omega) hg
  simpa using h

/-- The mask keeps the two groups of a pair of bytes. -/
lemma and_slot20 (x y : ℕ) (hy : y < 256) :
    (2^14*x + y) &&& slot20 = 2^14*(x % 128) + y % 128 := by
  have h := and_split (k := 14) (x := x) (y := y) (m := 0x7f) (n := 0x7f) (by omega) (by omega)
  rw [and_7f, and_7f] at h
  exact h

/-- Two pairs of groups interleave. -/
lemma or_groups {a b c d : ℕ} (hb : b < 128) (hc : c < 128) (hd : d < 128) :
    (2^21*a + 2^7*c) ||| (2^14*b + d) = 2^21*a + 2^14*b + 2^7*c + d := by
  have h1 := or_split (k := 7) (x := 2^14*a + c) (y := 0) (m := 2^7*b) (n := d) (by omega) hd
  have h2 := or_split (k := 7) (x := 2^7*a) (y := c) (m := b) (n := 0) hc (by omega)
  have h3 := or_low (k := 7) (x := a) hb
  simp only [Nat.zero_or, Nat.or_zero, Nat.add_zero] at h1 h2
  rw [show 2^14*a + c = 2^7*(2^7*a) + c by omega, h2, h3] at h1
  rw [show 2^21*a + 2^7*c = 2^7*(2^7*(2^7*a) + c) by omega,
    show 2^14*b + d = 2^7*(2^7*b) + d by omega, h1]
  omega

lemma shl32_eq {a k : ℕ} (h : a*2^k < 2^32) : shl32 a k = a*2^k := by
  rw [shl32, Nat.shiftLeft_eq, Nat.mod_eq_of_lt h]

/-- A byte shifted by two groups, with another byte below it. -/
lemma shl14_or {p q : ℕ} (hp : p*2^14 < 2^32) (hq : q < 2^14) : shl32 p 14 ||| q = 2^14*p + q := by
  rw [shl32_eq hp, Nat.mul_comm, or_low hq]

lemma getVarint_three {v : ℕ} (h2 : ¬ v < 2^14) (h3 : v < 2^21) (rest : List UInt8) :
    getVarint32 ([more (v/128/128), more (v/128), UInt8.ofNat (v % 128)] ++ rest) = (3,v) := by
  have ha := shl14_or (p := v/128/128 % 128 + 128) (q := v % 128) (by omega) (by omega)
  have h1 := and_80_more 0 (v/128)
  have hor := or_groups (a := 0) (b := v/128/128 % 128) (c := v/128 % 128) (d := v % 128)
    (by omega) (by omega) (by omega)
  simp only [Nat.mul_zero, Nat.zero_add] at h1 hor
  simp only [getVarint32, sqlite3GetVarint32, List.cons_append, byteAt_zero, byteAt_succ,
    more_toNat, last_toNat, ha, and_80_last _ (show v % 128 < 128 by omega), if_true,
    and_slot20 _ _ (show v % 128 < 256 by omega)]
  rw [if_neg (by omega), if_neg h1, and_7f, shl32_eq (by omega), Nat.or_comm,
    show (v/128 % 128 + 128) % 128*2^7 = 2^7*(v/128 % 128) by omega,
    show 2^14*((v/128/128 % 128 + 128) % 128) + v % 128 % 128 = 2^14*(v/128/128 % 128) + v % 128 by
    omega, hor]
  congr 1
  omega

lemma getVarint_two {v : ℕ} (h2 : v < 2^14) (rest : List UInt8) :
    getVarint32 ([more (v/128), UInt8.ofNat (v % 128)] ++ rest) = (2,v) := by
  have h1 := and_80_last 0 (show v % 128 < 128 by omega)
  have hor := or_low (k := 7) (x := v/128 % 128) (show v % 128 < 2^7 by omega)
  simp only [Nat.mul_zero, Nat.zero_add] at h1
  simp only [getVarint32, sqlite3GetVarint32, List.cons_append, byteAt_zero, byteAt_succ,
    more_toNat, last_toNat, h1, if_true]
  rw [if_neg (by omega), and_7f, shl32_eq (by omega),
    show (v/128 % 128 + 128) % 128*2^7 = 2^7*(v/128 % 128) by omega, hor]
  congr 1
  omega

/-- From the fourth byte on the 32-bit reader uses the 64-bit one. -/
lemma getVarint32_long {p : List UInt8} {k v : ℕ} {g0 g1 g2 : ℕ} {rest : List UInt8}
    (hp : p = more g0 :: more g1 :: more g2 :: rest) (hv : v < 2^32)
    (h : sqlite3GetVarint p = (k,v)) : getVarint32 p = (k,v) := by
  have hmask : v &&& 0xffffffff = v := by
    rw [show (0xffffffff : ℕ) = 2^32-1 from rfl, Nat.and_two_pow_sub_one_eq_mod,
      Nat.mod_eq_of_lt hv]
  have h1 := and_80_more 0 g1
  have ha := shl14_or (p := g0 % 128 + 128) (q := g2 % 128 + 128) (by omega) (by omega)
  have h2 := and_80_more (g0 % 128 + 128) g2
  simp only [Nat.mul_zero, Nat.zero_add] at h1
  simp only [getVarint32, sqlite3GetVarint32, h, hmask, ne_eq, not_true_eq_false, if_false]
  simp only [hp, byteAt_zero, byteAt_succ, more_toNat, ha]
  rw [if_neg (by omega), if_neg h1, if_neg h2]

lemma getVarint_four {v : ℕ} (h3 : ¬ v < 2^21) (h4 : v < 2^28) (rest : List UInt8) :
    getVarint32
      ([more (v/128/128/128), more (v/128/128), more (v/128), UInt8.ofNat (v % 128)] ++ rest) =
      (4,v) := by
  refine getVarint32_long rfl (by omega) ?_
  have ha :=
    shl14_or (p := v/128/128/128 % 128 + 128) (q := v/128 % 128 + 128) (by omega) (by omega)
  have hb := shl14_or (p := v/128/128 % 128 + 128) (q := v % 128) (by omega) (by omega)
  have hor := or_groups (a := v/128/128/128 % 128) (b := v/128/128 % 128) (c := v/128 % 128)
    (d := v % 128) (by omega) (by omega) (by omega)
  simp only [sqlite3GetVarint, List.cons_append, byteAt_zero, byteAt_succ, more_toNat, last_toNat,
    ha, hb, and_80_last _ (show v % 128 < 128 by omega), if_true,
    and_slot20 _ _ (show v/128 % 128 + 128 < 256 by omega),
    and_slot20 _ _ (show v % 128 < 256 by omega)]
  rw [if_neg (by omega), if_neg (by omega), if_neg (and_80_more _ _), shl32_eq (by omega),
    show (2^14*((v/128/128/128 % 128 + 128) % 128) + (v/128 % 128 + 128) % 128)*2^7 =
      2^21*(v/128/128/128 % 128) + 2^7*(v/128 % 128) by omega,
    show 2^14*((v/128/128 % 128 + 128) % 128) + v % 128 % 128 = 2^14*(v/128/128 % 128) + v % 128 by
    omega, hor]
  congr 1
  omega

lemma getVarint_five {v : ℕ} (h4 : ¬ v < 2^28) (hv : v < 2^32) (rest : List UInt8) :
    getVarint32 ([more (v/128/128/128/128), more (v/128/128/128), more (v/128/128), more (v/128),
      UInt8.ofNat (v % 128)] ++ rest) = (5,v) := by
  refine getVarint32_long rfl hv ?_
  have ha :=
    shl14_or (p := v/128/128/128/128 % 128 + 128) (q := v/128/128 % 128 + 128) (by omega) (by omega)
  have hb :=
    shl14_or (p := v/128/128/128 % 128 + 128) (q := v/128 % 128 + 128) (by omega) (by omega)
  have ha' :=
    shl14_or (p := 2^14*(v/128/128/128/128) + v/128/128 % 128) (q := v % 128) (by omega) (by omega)
  have hsplit : (2^28*(v/128/128/128/128) + (2^14*(v/128/128 % 128) + v % 128)) |||
      (2^21*(v/128/128/128 % 128) + 2^7*(v/128 % 128)) = v := by
    have h1 :=
      or_split (k := 21) (x := 2^7*(v/128/128/128/128)) (y := 2^14*(v/128/128 % 128) + v % 128)
      (m := v/128/128/128 % 128) (n := 2^7*(v/128 % 128)) (by omega) (by omega)
    have h2 := or_low (k := 7) (x := v/128/128/128/128) (show v/128/128/128 % 128 < 2^7 by omega)
    have h3 := or_groups (a := 0) (b := v/128/128 % 128) (c := v/128 % 128) (d := v % 128)
      (by omega) (by omega) (by omega)
    simp only [Nat.mul_zero, Nat.zero_add] at h3
    rw [h2, Nat.or_comm (2^14*(v/128/128 % 128) + v % 128), h3] at h1
    rw [show 2^28*(v/128/128/128/128) = 2^21*(2^7*(v/128/128/128/128)) by omega, h1]
    omega
  simp only [sqlite3GetVarint, List.cons_append, byteAt_zero, byteAt_succ, more_toNat, last_toNat,
    ha, hb, and_slot20 _ _ (show v/128/128 % 128 + 128 < 256 by omega),
    and_slot20 _ _ (show v/128 % 128 + 128 < 256 by omega)]
  rw [if_neg (by omega), if_neg (by omega), if_neg (and_80_more _ _), if_neg (and_80_more _ _),
    show 2^14*((v/128/128/128/128 % 128 + 128) % 128) + (v/128/128 % 128 + 128) % 128 =
      2^14*(v/128/128/128/128) + v/128/128 % 128 by omega,
    ha', if_pos (and_80_last _ (by omega)), shl32_eq (by omega),
    show (2^14*((v/128/128/128 % 128 + 128) % 128) + (v/128 % 128 + 128) % 128)*2^7 =
      2^21*(v/128/128/128 % 128) + 2^7*(v/128 % 128) by omega,
    show 2^14*(2^14*(v/128/128/128/128) + v/128/128 % 128) + v % 128 =
      2^28*(v/128/128/128/128) + (2^14*(v/128/128 % 128) + v % 128) by omega,
    hsplit, Nat.shiftRight_eq_div_pow,
    show (2^14*(v/128/128/128/128) + v/128/128 % 128)/2^18 = 0 by omega]
  simp

/-- A 32-bit varint reads back as written, whatever follows it. -/
theorem getVarint32_put {v : ℕ} (hv : v < 2^32) (rest : List UInt8) :
    getVarint32 (putVarint32 v ++ rest) = ((putVarint32 v).length, v) := by
  rw [putVarint32_eq hv]
  by_cases h1 : v < 2^7
  · have hb : (UInt8.ofNat v).toNat = v := by rw [UInt8.toNat_ofNat']; omega
    simp only [if_pos h1, getVarint32, List.cons_append, byteAt_zero, hb]
    rw [if_pos (by omega)]
    rfl
  by_cases h2 : v < 2^14
  · rw [if_neg h1, if_pos h2, getVarint_two h2]
    rfl
  by_cases h3 : v < 2^21
  · rw [if_neg h1, if_neg h2, if_pos h3, getVarint_three h2 h3]
    rfl
  by_cases h4 : v < 2^28
  · rw [if_neg h1, if_neg h2, if_neg h3, if_pos h4, getVarint_four h3 h4]
    rfl
  · rw [if_neg h1, if_neg h2, if_neg h3, if_neg h4, getVarint_five h4 hv]
    rfl

end IronSafe.Record
