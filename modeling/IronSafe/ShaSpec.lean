import IronSafe.BlockStream
import IronSafe.Sha

/-! The secure hash standard for messages of bits: the constants from the roots of the first
primes, the message schedule as a recursion, padding up to a multiple of 512 bits. The code's
compression of 64 bytes is the standard's compression of their bits, and its padded bytes are
the padded message. -/
namespace IronSafe.Fips
open Bytes BlockStream Sha

/-- The bits of a word, most significant first. -/
def wordBits {n : ℕ} (w : BitVec n) : List Bool := (List.range n).map w.getMsbD

def bitsOf (bytes : List UInt8) : List Bool := bytes.flatMap fun b => wordBits b.toBitVec

/-- The word with these bits. -/
def ofBits (bits : List Bool) : Word := (BitVec.ofBoolListBE bits).setWidth 32

def primes : List ℕ :=
  [2, 3, 5, 7, 11, 13, 17, 19, 23, 29, 31, 37, 41, 43, 47, 53, 59, 61, 67, 71, 73, 79, 83, 89, 97,
    101, 103, 107,
   109, 113, 127, 131, 137, 139, 149, 151, 157, 163, 167, 173, 179, 181, 191, 193, 197, 199, 211,
   223, 227, 229, 233, 239, 241, 251, 257, 263, 269, 271, 277, 281, 283, 293, 307, 311]

/-- The integer part of the `k`-th root of `n`, if it has at most `i` bits behind `r`. -/
def root (k n : ℕ) : ℕ → ℕ → ℕ
  | 0, r => r
  | i+1, r => if (r + 2^i)^k ≤ n then root k n i (r + 2^i) else root k n i r

/-- Of the `k`-th root of `p`, the 32 bits that end `bits` places behind the point. -/
def fraction (k bits p : ℕ) : Word := BitVec.ofNat 32 (root k (p*2^(k*bits)) (bits+5) 0)

/-- The constant of round `t`, from the cube root of a prime. -/
def constant (t : ℕ) : Word := fraction 3 32 (primes.getD t 0)

/-- The initial hash value of SHA-256 comes from the square roots of the first eight primes, that of
SHA-224 from the second 32 bits of the roots of the next eight. -/
def initialWord (v : Variant) (i : ℕ) : Word :=
  match v with
  | .sha224 => fraction 2 64 (primes.getD (8+i) 0)
  | .sha256 => fraction 2 32 (primes.getD i 0)

def initialHash (v : Variant) : Words :=
  ⟨initialWord v 0, initialWord v 1, initialWord v 2, initialWord v 3,
   initialWord v 4, initialWord v 5, initialWord v 6, initialWord v 7⟩

/-- The bits of `x` choose between those of `y` and those of `z`. -/
def ch (x y z : Word) : Word := (x &&& y) ^^^ (~~~x &&& z)

/-- The majority of three bits, at every place. -/
def maj (x y z : Word) : Word := (x &&& y) ^^^ (x &&& z) ^^^ (y &&& z)

def bigSigma0 (x : Word) : Word := x.rotateRight 2 ^^^ x.rotateRight 13 ^^^ x.rotateRight 22

def bigSigma1 (x : Word) : Word := x.rotateRight 6 ^^^ x.rotateRight 11 ^^^ x.rotateRight 25

def smallSigma0 (x : Word) : Word := x.rotateRight 7 ^^^ x.rotateRight 18 ^^^ x >>> 3

def smallSigma1 (x : Word) : Word := x.rotateRight 17 ^^^ x.rotateRight 19 ^^^ x >>> 10

/-- The message schedule of a block of sixteen words. -/
def schedule (M : ℕ → Word) (t : ℕ) : Word :=
  if t < 16 then M t
  else smallSigma1 (schedule M (t-2)) + schedule M (t-7) + smallSigma0 (schedule M (t-15)) +
    schedule M (t-16)
termination_by t

/-- The eight working variables after `t` rounds. -/
def rounds (M : ℕ → Word) (H : Words) : ℕ → Words
  | 0 => H
  | t+1 =>
    let r := rounds M H t
    let T1 := r.h + bigSigma1 r.e + ch r.e r.f r.g + constant t + schedule M t
    let T2 := bigSigma0 r.a + maj r.a r.b r.c
    ⟨T1+T2, r.a, r.b, r.c, r.d+T1, r.e, r.f, r.g⟩

/-- Word `t` of a block of 512 bits. -/
def blockWord (block : List Bool) (t : ℕ) : Word := ofBits (slice (t*32) 32 block)

/-- The hash value after a block: the working variables, with the hash value before it added. -/
def compress (H : Words) (block : List Bool) : Words :=
  let r := rounds (blockWord block) H 64
  ⟨r.a+H.a, r.b+H.b, r.c+H.c, r.d+H.d, r.e+H.e, r.f+H.f, r.g+H.g, r.h+H.h⟩

/-- One bit, then zeros up to 64 bits before the end of a block, then the length of the message. -/
def pad (message : List Bool) : List Bool :=
  message ++ true :: List.replicate ((959 - message.length % 512) % 512) false ++
    wordBits (BitVec.ofNat 64 message.length)

def hash (v : Variant) (message : List Bool) : Words :=
  processAll 512 compress (initialHash v) (pad message)

/-- The digest: the first bits of the hash value. -/
def digest (size : ℕ) (H : Words) : List Bool := (H.toList.flatMap wordBits).take (8*size)

def sha256 (message : List Bool) : List Bool := digest 32 (hash .sha256 message)

/-! ### The code's tables and word functions -/

lemma initialHash_eq (v : Variant) : v.H0 = initialHash v := by
  cases v <;> decide +kernel

lemma constant_table : K = (List.range 64).map constant := by decide +kernel

lemma constant_eq {t : ℕ} (ht : t < 64) : K.getD t 0 = constant t := by
  rw [constant_table, List.getD_eq_getElem _ _ (by simpa using ht), List.getElem_map,
    List.getElem_range]

lemma shaCh_eq (x y z : Word) : shaCh x y z = ch x y z := rfl

lemma shaMaj_eq (x y z : Word) : shaMaj x y z = maj x y z := rfl

lemma sha256Rotr_eq {bits : ℕ} (h : bits < 32) (x : Word) :
    sha256Rotr bits x = x.rotateRight bits := by
  rw [BitVec.rotateRight_def, Nat.mod_eq_of_lt h, sha256Rotr]

lemma sha256SIGMA0_eq (x : Word) : sha256SIGMA0 x = bigSigma0 x := by
  simp only [sha256SIGMA0, bigSigma0, sha256Rotr_eq, Nat.reduceLT]

lemma sha256SIGMA1_eq (x : Word) : sha256SIGMA1 x = bigSigma1 x := by
  simp only [sha256SIGMA1, bigSigma1, sha256Rotr_eq, Nat.reduceLT]

lemma sha256sigma0_eq (x : Word) : sha256sigma0 x = smallSigma0 x := by
  simp only [sha256sigma0, smallSigma0, sha256Rotr_eq, sha256Shr, Nat.reduceLT]

lemma sha256sigma1_eq (x : Word) : sha256sigma1 x = smallSigma1 x := by
  simp only [sha256sigma1, smallSigma1, sha256Rotr_eq, sha256Shr, Nat.reduceLT]

/-! ### Bits of words and bytes -/

@[simp] lemma wordBits_length {n : ℕ} (w : BitVec n) : (wordBits w).length = n := by simp [wordBits]

lemma wordBits_append {m n : ℕ} (x : BitVec m) (y : BitVec n) :
    wordBits (x ++ y) = wordBits x ++ wordBits y := by
  rw [wordBits, List.range_add, List.map_append, List.map_map]
  congr 1
  · apply List.map_congr_left
    intro i hi
    rw [BitVec.getMsbD_append, if_neg (by simpa using hi)]
  · apply List.map_congr_left
    intro i hi
    rw [Function.comp_apply, BitVec.getMsbD_append, if_pos (by omega), Nat.add_sub_cancel_left]

lemma ofBits_wordBits (w : Word) : ofBits (wordBits w) = w := by
  apply BitVec.eq_of_getMsbD_eq
  intro i hi
  rw [ofBits, BitVec.getMsbD_setWidth, BitVec.getMsbD_ofBoolListBE, wordBits_length, Nat.sub_self,
    Nat.add_sub_cancel, wordBits, List.getD_eq_getElem _ _ (by simpa using hi)]
  simp

lemma bitsOf_eq_flatten (bytes : List UInt8) :
    bitsOf bytes = (bytes.map fun b => wordBits b.toBitVec).flatten := List.flatMap_def

lemma byteBits_length (bytes : List UInt8) :
    ∀ bs ∈ bytes.map fun b => wordBits b.toBitVec, bs.length = 8 := by
  simp

@[simp] lemma bitsOf_append (xs ys : List UInt8) : bitsOf (xs ++ ys) = bitsOf xs ++ bitsOf ys :=
  List.flatMap_append

@[simp] lemma bitsOf_length (bytes : List UInt8) : (bitsOf bytes).length = 8*bytes.length := by
  rw [bitsOf_eq_flatten, length_flatten_blocks _ (byteBits_length bytes), List.length_map,
    Nat.mul_comm]

@[simp] lemma bitsOf_cons (b : UInt8) (bs : List UInt8) :
    bitsOf (b :: bs) = wordBits b.toBitVec ++ bitsOf bs := rfl

lemma wordBits_injective {n : ℕ} {x y : BitVec n} (h : wordBits x = wordBits y) : x = y := by
  apply BitVec.eq_of_getMsbD_eq
  intro i hi
  exact List.map_inj_left.mp h i (List.mem_range.mpr hi)

lemma bitsOf_injective {xs ys : List UInt8} (h : bitsOf xs = bitsOf ys) : xs = ys := by
  have hlen := congrArg List.length h
  rw [bitsOf_length, bitsOf_length] at hlen
  induction xs generalizing ys with
  | nil => exact (List.eq_nil_of_length_eq_zero (by simpa using hlen.symm)).symm
  | cons x xs ih =>
    cases ys with
    | nil => simp at hlen
    | cons y ys =>
      rw [bitsOf_cons, bitsOf_cons] at h
      obtain ⟨hx, hxs⟩ := List.append_inj h (by rw [wordBits_length, wordBits_length])
      rw [UInt8.toBitVec_inj.mp (wordBits_injective hx), ih hxs (by simpa using hlen)]

lemma bitsOf_drop (i : ℕ) (bytes : List UInt8) :
    bitsOf (bytes.drop i) = (bitsOf bytes).drop (8*i) := by
  induction i generalizing bytes with
  | zero => rfl
  | succ i ih =>
    cases bytes with
    | nil => simp [bitsOf]
    | cons b bs =>
      have hlen := wordBits_length b.toBitVec
      rw [List.drop_succ_cons, ih, bitsOf_cons, Nat.mul_succ, Nat.add_comm, ← List.drop_drop,
        List.drop_left' hlen]

lemma bitsOf_take (i : ℕ) (bytes : List UInt8) :
    bitsOf (bytes.take i) = (bitsOf bytes).take (8*i) := by
  induction i generalizing bytes with
  | zero => rfl
  | succ i ih =>
    cases bytes with
    | nil => simp [bitsOf]
    | cons b bs =>
      have htake : (wordBits b.toBitVec ++ bitsOf bs).take ((wordBits b.toBitVec).length + 8*i) =
          _ :=
        List.take_length_add_append _
      rw [wordBits_length] at htake
      rw [List.take_succ_cons, bitsOf_cons, ih, bitsOf_cons, Nat.mul_succ, Nat.add_comm, htake]

lemma bitsOf_slice (i n : ℕ) (bytes : List UInt8) :
    bitsOf (slice i n bytes) = slice (8*i) (8*n) (bitsOf bytes) := by
  rw [slice, slice, bitsOf_take, bitsOf_drop]

lemma byteWords_eq (a b c d : UInt8) :
    byteWord a <<< 24 ||| byteWord b <<< 16 ||| byteWord c <<< 8 ||| byteWord d =
      (a.toBitVec ++ b.toBitVec ++ c.toBitVec ++ d.toBitVec : BitVec (8+8+8+8)) := by
  apply BitVec.eq_of_getLsbD_eq
  intro i hi
  have hge : ∀ (x : UInt8) (j : ℕ), 8 ≤ j → x.toBitVec.getLsbD j = false :=
    fun x j hj => BitVec.getLsbD_of_ge _ _ hj
  rw [BitVec.getLsbD_append, BitVec.getLsbD_append, BitVec.getLsbD_append]
  simp only [byteWord, BitVec.getLsbD_or, BitVec.getLsbD_shiftLeft, BitVec.getLsbD_setWidth]
  grind

/-- A word is its four bytes as the code takes them out. -/
lemma word_eq_append (w : Word) :
    w = ((w >>> 24).setWidth 8 ++ (w >>> 16).setWidth 8 ++ (w >>> 8).setWidth 8 ++ w.setWidth 8 :
      BitVec (8+8+8+8)) := by
  apply BitVec.eq_of_getLsbD_eq
  intro i hi
  rw [BitVec.getLsbD_append, BitVec.getLsbD_append, BitVec.getLsbD_append]
  simp only [BitVec.getLsbD_setWidth, BitVec.getLsbD_ushiftRight]
  grind

lemma bitsOf_wordBytes (w : Word) :
    bitsOf [.ofBitVec ((w >>> 24).setWidth 8), .ofBitVec ((w >>> 16).setWidth 8),
      .ofBitVec ((w >>> 8).setWidth 8), .ofBitVec (w.setWidth 8)] = wordBits w := by
  conv_rhs => rw [word_eq_append w]
  rw [wordBits_append, wordBits_append, wordBits_append]
  simp [bitsOf]

/-! ### The compression of one block -/

section Block

variable {block : List UInt8} (hblock : block.length = 64)
include hblock

lemma slice_four {i : ℕ} (h : i + 4 ≤ block.length) :
    slice i 4 block =
      [block.getD i 0, block.getD (i+1) 0, block.getD (i+2) 0, block.getD (i+3) 0] := by
  rw [slice, List.drop_eq_getElem_cons (by omega), List.drop_eq_getElem_cons (by omega),
    List.drop_eq_getElem_cons (by omega), List.drop_eq_getElem_cons (by omega)]
  simp only [List.take_succ_cons, List.take_zero]
  repeat rw [List.getD_eq_getElem _ _ (by omega)]

lemma firstWords_eq :
    firstWords block = (List.range 16).map (schedule (blockWord (bitsOf block))) := by
  apply List.map_congr_left
  intro t ht
  have ht : t < 16 := List.mem_range.mp ht
  have hslice : slice (t*32) 32 (bitsOf block) = bitsOf (slice (4*t) 4 block) := by
    rw [bitsOf_slice]
    congr 1
    omega
  rw [schedule, if_pos ht, blockWord, hslice, slice_four hblock (by omega), byteWords_eq]
  conv_lhs =>
    rw [← ofBits_wordBits (_ ++ _ : BitVec (8+8+8+8)), wordBits_append, wordBits_append,
      wordBits_append]
  simp [bitsOf]

lemma extendWords_eq (n : ℕ) : extendWords^[n] (firstWords block) =
    (List.range (16+n)).map (schedule (blockWord (bitsOf block))) := by
  induction n with
  | zero => exact firstWords_eq hblock
  | succ n ih =>
    have hget : ∀ {j : ℕ}, j < 16+n →
        ((List.range (16+n)).map (schedule (blockWord (bitsOf block)))).getD j 0 =
          schedule (blockWord (bitsOf block)) j := by
      intro j hj
      rw [List.getD_eq_getElem _ _ (by simpa using hj), List.getElem_map, List.getElem_range]
    rw [Function.iterate_succ_apply', ih, extendWords, ← Nat.add_assoc, List.range_succ,
      List.map_append, List.map_singleton, nextWord, List.length_map, List.length_range,
      hget (by omega), hget (by omega),
      hget (by omega), hget (by omega), sha256sigma0_eq, sha256sigma1_eq]
    conv_rhs => rw [schedule, if_neg (by omega)]

lemma words_getD {t : ℕ} (ht : t < 64) :
    (words block).getD t 0 = schedule (blockWord (bitsOf block)) t := by
  rw [words, extendWords_eq hblock, List.getD_eq_getElem _ _ (by simpa using ht), List.getElem_map,
    List.getElem_range]

lemma foldl_round_eq (H : Words) {n : ℕ} (hn : n ≤ 64) :
    (List.range n).foldl (shaRound (words block)) H = rounds (blockWord (bitsOf block)) H n := by
  induction n with
  | zero => rfl
  | succ n ih =>
    rw [List.range_succ, List.foldl_append, ih (by omega), List.foldl_cons, List.foldl_nil,
      shaRound, words_getD hblock (by omega), constant_eq (by omega), sha256SIGMA0_eq,
      sha256SIGMA1_eq, shaCh_eq, shaMaj_eq]
    rfl

lemma processBlock_eq (H : Words) : processBlock H block = compress H (bitsOf block) := by
  rw [processBlock, foldl_round_eq hblock H le_rfl, compress, Words.add]
  simp only [BitVec.add_comm]

end Block

/-! ### Whole messages -/

lemma blocks_bitsOf (bytes : List UInt8) :
    blocks 512 (bitsOf bytes) = (blocks 64 bytes).map bitsOf := by
  have hcount : (bitsOf bytes).length/512 = bytes.length/64 := by
    rw [bitsOf_length]
    omega
  rw [blocks, blocks, hcount, List.map_map]
  apply List.map_congr_left
  intro i hi
  rw [Function.comp_apply, bitsOf_slice]
  congr 1
  omega

lemma processAll_bitsOf (H : Words) (bytes : List UInt8) :
    processAll 512 compress H (bitsOf bytes) = processAll 64 processBlock H bytes := by
  rw [processAll, blocks_bitsOf, List.foldl_map, processAll]
  apply List.foldl_ext
  intro H block hblock
  exact (processBlock_eq (mem_blocks_length hblock) H).symm

/-- The final byte of the code: the last bits of the message, then a one. -/
lemma finalByte_bits (b : UInt8) {length : ℕ} (h : length < 8) :
    wordBits (b &&& masks.getD length 0 ||| markbit.getD length 0).toBitVec =
      (wordBits b.toBitVec).take length ++ true :: List.replicate (7-length) false := by
  interval_cases length <;> simp [wordBits, List.range_succ, masks, markbit, List.replicate_succ]

lemma bitsOf_zeros (n : ℕ) : bitsOf (List.replicate n 0) = List.replicate (8*n) false := by
  induction n with
  | zero => rfl
  | succ n ih =>
    rw [List.replicate_succ, bitsOf_cons, ih, Nat.mul_succ, Nat.add_comm, List.replicate_add]
    congr 1

/-- The bytes that the code processes for a message whose last bits are in `final`. -/
def paddedBytes (message : List UInt8) (final : UInt8) (length : List UInt8) : List UInt8 :=
  message ++ final :: List.replicate ((119 - message.length % 64) % 64) 0 ++ length

lemma bitsOf_paddedBytes (message : List UInt8) (b : UInt8) {length : ℕ} (h : length < 8)
    {lengthBytes : List UInt8}
    (hl : bitsOf lengthBytes = wordBits (BitVec.ofNat 64 (8*message.length + length))) :
    bitsOf (paddedBytes message (b &&& masks.getD length 0 ||| markbit.getD length 0) lengthBytes) =
      pad (bitsOf message ++ (wordBits b.toBitVec).take length) := by
  have hlen : (bitsOf message ++ (wordBits b.toBitVec).take length).length =
      8*message.length + length := by
    rw [List.length_append, bitsOf_length, List.length_take, wordBits_length]
    omega
  have hzeros : (959 - (8*message.length + length) % 512) % 512 =
      7-length + 8*((119 - message.length % 64) % 64) := by omega
  rw [pad, hlen, hzeros, paddedBytes, bitsOf_append, bitsOf_append, bitsOf_cons, finalByte_bits b h,
    bitsOf_zeros, hl, List.replicate_add]
  simp only [List.append_assoc, List.cons_append]

end IronSafe.Fips
