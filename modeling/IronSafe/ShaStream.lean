import IronSafe.ShaSpec

/-! A hash context against the standard. Whatever calls are made on a context that has been reset,
and however a message is cut into pieces, the codes and digests are those of a machine that
remembers the message and hashes it by the standard, and no byte is written behind the message
block. -/
namespace IronSafe.Sha
open Bytes BlockStream Fips

/-! ### The message block -/

/-- The context has reached the hash value `H` and holds the bytes `rest` of a block. -/
structure Holds (H : Words) (rest : List UInt8) (context : Sha256Context) : Prop where
  hash : context.intermediateHash = H
  index : context.messageBlockIndex = rest.length
  block : context.messageBlock.val.take rest.length = rest

/-- The length and the flags, which the steps on the message block leave alone. -/
structure SameStatus (context context' : Sha256Context) : Prop where
  low : context'.lengthLow = context.lengthLow
  high : context'.lengthHigh = context.lengthHigh
  computed : context'.computed = context.computed
  corrupted : context'.corrupted = context.corrupted

lemma SameStatus.refl (context : Sha256Context) : SameStatus context context := ⟨rfl, rfl, rfl, rfl⟩

lemma SameStatus.trans {c₁ c₂ c₃ : Sha256Context} (h : SameStatus c₁ c₂) (h' : SameStatus c₂ c₃) :
    SameStatus c₁ c₃ :=
  ⟨h'.low.trans h.low, h'.high.trans h.high, h'.computed.trans h.computed,
    h'.corrupted.trans h.corrupted⟩

variable {H H0 : Words} {rest message : List UInt8} {context : Sha256Context}

lemma sameStatus_putByte (context : Sha256Context) (b : UInt8) :
    SameStatus context (context.putByte b) :=
  ⟨rfl, rfl, rfl, rfl⟩

lemma sameStatus_blockDone (context : Sha256Context) (hash : Words) :
    SameStatus context (context.blockDone hash) :=
  ⟨rfl, rfl, rfl, rfl⟩

lemma holds_blockDone (context : Sha256Context) (hash : Words) :
    Holds hash [] (context.blockDone hash) :=
  ⟨rfl, rfl, List.take_zero⟩

lemma sameStatus_processMessageBlock (context : Sha256Context) :
    SameStatus context (sha224256ProcessMessageBlock context) := sameStatus_blockDone _ _

lemma Holds.put (h : Holds H rest context) (hrest : rest.length < 64) (b : UInt8) :
    context.put b = .ok (context.putByte b) ∧ Holds H (rest ++ [b]) (context.putByte b) := by
  have hlen : rest.length < context.messageBlock.val.length := by rwa [context.messageBlock.2]
  refine ⟨if_pos (by rwa [h.index]), h.hash, ?_, ?_⟩
  · show context.messageBlockIndex + 1 = _
    rw [h.index, List.length_append, List.length_singleton]
  · show (context.messageBlock.val.set context.messageBlockIndex b).take _ = _
    rw [h.index, List.length_append, List.length_singleton, List.take_add_one,
      List.take_set_of_le le_rfl, h.block, List.getElem?_set_self hlen, Option.toList_some]

lemma Holds.process (h : Holds H rest context) (hrest : rest.length = 64) :
    Holds (processBlock H rest) [] (sha224256ProcessMessageBlock context) := by
  have hblock : context.messageBlock.val = rest := by
    rw [← h.block, hrest]
    exact (List.take_of_length_le context.messageBlock.2.le).symm
  rw [sha224256ProcessMessageBlock, h.hash, hblock]
  exact holds_blockDone _ _

lemma Holds.putZeros (h : Holds H rest context) {left : ℕ} (hleft : rest.length + left ≤ 64) :
    ∃ context', Sha.putZeros left context = .ok context' ∧
      Holds H (rest ++ List.replicate left 0) context' ∧ SameStatus context context' := by
  induction left generalizing rest context with
  | zero => exact ⟨context, rfl, by simpa using h, .refl context⟩
  | succ left ih =>
    obtain ⟨hput, hput'⟩ := h.put (by omega) 0
    obtain ⟨context', hrun, hholds, hsame⟩ :=
      ih hput' (by simp only [List.length_append, List.length_singleton]; omega)
    refine ⟨context', ?_, ?_, (sameStatus_putByte context 0).trans hsame⟩
    · rw [Sha.putZeros, hput]
      exact hrun
    · simpa [List.replicate_succ] using hholds

lemma Holds.padTo (h : Holds H rest context) {index : ℕ} (hrest : rest.length ≤ index)
    (hindex : index ≤ 64) : ∃ context', context.padTo index = .ok context' ∧
      Holds H (rest ++ List.replicate (index - rest.length) 0) context' ∧
        SameStatus context context' := by
  rw [Sha256Context.padTo, h.index]
  exact h.putZeros (by omega)

/-! ### The length -/

def Sha256Context.bitLength (context : Sha256Context) : ℕ :=
  context.lengthHigh.toNat*2^32 + context.lengthLow.toNat

lemma Sha256Context.bitLength_lt (context : Sha256Context) : context.bitLength < 2^64 := by
  have hlow := context.lengthLow.isLt
  have hhigh := context.lengthHigh.isLt
  rw [Sha256Context.bitLength]
  omega

lemma SameStatus.bitLength {context context' : Sha256Context} (h : SameStatus context context') :
    context'.bitLength = context.bitLength := by
  rw [Sha256Context.bitLength, Sha256Context.bitLength, h.low, h.high]

lemma lengthWords_toNat (context : Sha256Context) :
    (context.lengthHigh ++ context.lengthLow).toNat = context.bitLength := by
  rw [BitVec.toNat_append, ← Nat.shiftLeft_add_eq_or_of_lt context.lengthLow.isLt, Nat.shiftLeft_eq,
    Sha256Context.bitLength]

lemma bitsOf_lengthBytes (context : Sha256Context) :
    bitsOf (lengthBytes context) = wordBits (BitVec.ofNat (32+32) context.bitLength) := by
  rw [← lengthWords_toNat, BitVec.ofNat_toNat, BitVec.setWidth_eq,
    wordBits_append, ← bitsOf_wordBytes, ← bitsOf_wordBytes, ← bitsOf_append, lengthBytes]
  rfl

section Length

variable {length : ℕ} (hlength : length < 2^32)
include hlength

lemma lengthLow_add_toNat (low : Word) :
    (low + BitVec.ofNat 32 length).toNat = (low.toNat + length) % 2^32 := by
  rw [BitVec.toNat_add, BitVec.toNat_ofNat, Nat.mod_eq_of_lt hlength]

lemma lengthLow_wraps_iff (low : Word) :
    low + BitVec.ofNat 32 length < low ↔ 2^32 ≤ low.toNat + length := by
  have hlow := low.isLt
  rw [BitVec.lt_def, lengthLow_add_toNat hlength]
  omega

lemma addLength_fits (h : context.bitLength + length < 2^64) :
    (sha224256AddLength context length).bitLength = context.bitLength + length ∧
      (sha224256AddLength context length).corrupted = .success := by
  have hlow := context.lengthLow.isLt
  have hsum := lengthLow_add_toNat hlength context.lengthLow
  rw [Sha256Context.bitLength] at h ⊢
  by_cases hwrap : context.lengthLow + BitVec.ofNat 32 length < context.lengthLow
  · have hge := (lengthLow_wraps_iff hlength _).mp hwrap
    have hhigh : (context.lengthHigh + 1).toNat = context.lengthHigh.toNat + 1 := by
      rw [BitVec.toNat_add, show (1 : Word).toNat = 1 from rfl]
      omega
    have hne : context.lengthHigh + 1 ≠ 0 := by
      intro h0
      rw [h0] at hhigh
      exact absurd hhigh (Nat.succ_ne_zero _).symm
    simp only [sha224256AddLength, if_pos hwrap, if_neg hne, hhigh, hsum, and_true,
      Sha256Context.bitLength]
    omega
  · have hlt := mt (lengthLow_wraps_iff hlength _).mpr hwrap
    simp only [sha224256AddLength, if_neg hwrap, hsum, and_true, Sha256Context.bitLength]
    omega

lemma addLength_overflow (h : 2^64 ≤ context.bitLength + length) :
    (sha224256AddLength context length).corrupted = .null := by
  have hlow := context.lengthLow.isLt
  have hhigh := context.lengthHigh.isLt
  rw [Sha256Context.bitLength] at h
  have hwrap : context.lengthLow + BitVec.ofNat 32 length < context.lengthLow :=
    (lengthLow_wraps_iff hlength _).mpr (by omega)
  have hzero : context.lengthHigh + 1 = 0 := by
    apply BitVec.eq_of_toNat_eq
    rw [BitVec.toNat_add, show (1 : Word).toNat = 1 from rfl, show (0 : Word).toNat = 0 from rfl]
    omega
  simp only [sha224256AddLength, if_pos hwrap, if_pos hzero]

end Length

@[simp] lemma addLength_computed (context : Sha256Context) (length : ℕ) :
    (sha224256AddLength context length).computed = context.computed := by
  rw [sha224256AddLength]
  split <;> rfl

lemma Holds.addLength (h : Holds H rest context) (length : ℕ) :
    Holds H rest (sha224256AddLength context length) := by
  rw [sha224256AddLength]
  split
  all_goals exact ⟨h.hash, h.index, h.block⟩

/-! ### The input -/

/-- The context has taken in the message so far. -/
structure Absorbing (H0 : Words) (message : List UInt8) (context : Sha256Context) : Prop extends
    Holds (processAll 64 processBlock H0 message) (remainder 64 message) context where
  length : context.bitLength = 8*message.length
  computed : context.computed = false
  corrupted : context.corrupted = .success

lemma absorbing_reset (context : Sha256Context) (H0 : Words) :
    Absorbing H0 [] (sha224256Reset context H0) := by
  refine ⟨?_, by simp [Sha256Context.bitLength, sha224256Reset], rfl, rfl⟩
  rw [processAll_nil, remainder_nil]
  exact ⟨rfl, rfl, List.take_zero⟩

lemma remainder_lt (message : List UInt8) : (remainder 64 message).length < 64 := by
  rw [remainder_length]
  exact Nat.mod_lt _ (by decide)

/-- A byte enters the block, and a full block is processed. -/
lemma Absorbing.inputByte (h : Absorbing H0 message context) (b : UInt8)
    (hfits : 8*(message.length+1) < 2^64) :
    ∃ context', context.inputByte b = .ok context' ∧ Absorbing H0 (message ++ [b]) context' := by
  obtain ⟨hput, hholds⟩ := h.put (remainder_lt message) b
  have hbits : (context.putByte b).bitLength + 8 < 2^64 := by
    rw [(sameStatus_putByte context b).bitLength, h.length]
    omega
  obtain ⟨hlen, hcorr⟩ := addLength_fits (by decide) hbits
  have hcomp : (sha224256AddLength (context.putByte b) 8).computed = false := by
    rw [addLength_computed, (sameStatus_putByte context b).computed, h.computed]
  rw [(sameStatus_putByte context b).bitLength, h.length] at hlen
  replace hholds := hholds.addLength 8
  have hrest : (remainder 64 message ++ [b]).length = message.length % 64 + 1 := by
    rw [List.length_append, remainder_length, List.length_singleton]
  rw [Sha256Context.inputByte, hput]
  by_cases hfull : message.length % 64 + 1 = 64
  · have hsame := sameStatus_processMessageBlock (sha224256AddLength (context.putByte b) 8)
    refine ⟨_, if_pos ⟨hcorr, by rw [hholds.index, hrest, hfull]; rfl⟩, ?_, ?_,
      hsame.computed.trans hcomp, hsame.corrupted.trans hcorr⟩
    · rw [processAll_append_full (by decide) hfull, remainder_append_full (by decide) hfull]
      exact hholds.process (hrest.trans hfull)
    · rw [hsame.bitLength, hlen, List.length_append, List.length_singleton, Nat.mul_add]
  · have hopen : message.length % 64 + [b].length < 64 := by
      rw [List.length_singleton]
      omega
    refine ⟨_, if_neg fun hc => hfull ?_, ?_, ?_, hcomp, hcorr⟩
    · rw [← hrest, ← hholds.index]
      exact hc.2
    · rwa [processAll_append_open (by decide) hopen, remainder_append_open (by decide) hopen]
    · rw [hlen, List.length_append, List.length_singleton, Nat.mul_add]

/-- The byte with which the length of the message overflows leaves the code of a null pointer. -/
lemma Absorbing.inputByte_overflow (h : Absorbing H0 message context) (b : UInt8)
    (hover : 2^64 ≤ 8*(message.length+1)) :
    ∃ context', context.inputByte b = .ok context' ∧ context'.computed = false ∧
      context'.corrupted = .null := by
  obtain ⟨hput, -⟩ := h.put (remainder_lt message) b
  have hcorr : (sha224256AddLength (context.putByte b) 8).corrupted = .null := by
    apply addLength_overflow (by decide)
    rw [(sameStatus_putByte context b).bitLength, h.length]
    omega
  have hcomp : (sha224256AddLength (context.putByte b) 8).computed = false := by
    rw [addLength_computed, (sameStatus_putByte context b).computed, h.computed]
  rw [Sha256Context.inputByte, hput]
  refine ⟨_, if_neg fun hc => ?_, hcomp, hcorr⟩
  rw [hcorr] at hc
  exact absurd hc.1 (by decide)

lemma inputLoop_cons (h : context.corrupted = .success) (b : UInt8) (bytes : List UInt8) :
    inputLoop (b :: bytes) context = context.inputByte b >>= inputLoop bytes :=
  if_neg fun hc => hc h

lemma inputLoop_corrupted (h : context.corrupted ≠ .success) (bytes : List UInt8) :
    inputLoop bytes context = .ok context := by
  cases bytes with
  | nil => rfl
  | cons b bytes => exact if_pos h

lemma Absorbing.inputLoop (h : Absorbing H0 message context) {bytes : List UInt8}
    (hfits : 8*(message ++ bytes).length < 2^64) :
    ∃ context', Sha.inputLoop bytes context = .ok context' ∧
      Absorbing H0 (message ++ bytes) context' := by
  induction bytes generalizing message context with
  | nil => exact ⟨context, rfl, by rwa [List.append_nil]⟩
  | cons b bytes ih =>
    have hlen := hfits
    rw [List.length_append, List.length_cons] at hlen
    obtain ⟨context₁, hbyte, h₁⟩ := h.inputByte b (by omega)
    rw [List.append_cons] at hfits ⊢
    rw [inputLoop_cons h.corrupted, hbyte]
    exact ih h₁ hfits

lemma Absorbing.inputLoop_overflow (h : Absorbing H0 message context) {bytes : List UInt8}
    (hover : 2^64 ≤ 8*(message ++ bytes).length) :
    ∃ context', Sha.inputLoop bytes context = .ok context' ∧ context'.computed = false ∧
      context'.corrupted = .null := by
  induction bytes generalizing message context with
  | nil =>
    -- the length of what has been taken in is still below the bound
    have hlt := context.bitLength_lt
    rw [h.length] at hlt
    rw [List.append_nil] at hover
    omega
  | cons b bytes ih =>
    rw [inputLoop_cons h.corrupted]
    by_cases hfits : 8*(message.length+1) < 2^64
    · obtain ⟨context₁, hbyte, h₁⟩ := h.inputByte b hfits
      rw [List.append_cons] at hover
      rw [hbyte]
      exact ih h₁ hover
    · obtain ⟨context₁, hbyte, hcomp, hcorr⟩ := h.inputByte_overflow b (by omega)
      refine ⟨context₁, ?_, hcomp, hcorr⟩
      rw [hbyte]
      exact inputLoop_corrupted (by rw [hcorr]; decide) bytes

/-! ### The padding -/

lemma sameStatus_storeLength (context : Sha256Context) : SameStatus context context.storeLength :=
  ⟨rfl, rfl, rfl, rfl⟩

lemma Holds.storeLength (h : Holds H rest context) (hrest : rest.length = 56) :
    context.storeLength.messageBlock.val = rest ++ lengthBytes context := by
  have hlen := context.messageBlock.2
  show overwrite context.messageBlock.val 56 (lengthBytes context) = _
  rw [overwrite, ← hrest, h.block, List.drop_of_length_le, List.append_nil]
  rw [hlen, hrest]
  rfl

/-- A block with room for the length is filled with zeros, ends with the length and is processed. -/
lemma Holds.lastBlock (h : Holds H rest context) (hrest : rest.length ≤ 56) :
    ∃ context', context.padTo 56 = .ok context' ∧ SameStatus context context' ∧
      Holds (processBlock H (rest ++ List.replicate (56 - rest.length) 0 ++ lengthBytes context)) []
        (sha224256ProcessMessageBlock context'.storeLength) := by
  obtain ⟨context', hrun, hholds, hsame⟩ := h.padTo hrest (by decide)
  refine ⟨context', hrun, hsame, ?_⟩
  have hblock := hholds.storeLength (by rw [List.length_append, List.length_replicate]; omega)
  have hlength : lengthBytes context' = lengthBytes context := by
    rw [lengthBytes, lengthBytes, hsame.low, hsame.high]
  rw [sha224256ProcessMessageBlock, hblock, hlength,
    show context'.storeLength.intermediateHash = H from hholds.hash]
  exact holds_blockDone _ _

/-- The message with the final byte, and with zeros up to the end of a block without room for the
length. -/
def openedBytes (message : List UInt8) (padByte : UInt8) : List UInt8 :=
  message ++
    padByte :: List.replicate (if message.length % 64 < 56 then 0 else 63 - message.length % 64) 0

lemma openedBytes_length (message : List UInt8) (padByte : UInt8) :
    (openedBytes message padByte).length % 64 = if message.length % 64 < 56 then
      message.length % 64 + 1 else 0 := by
  rw [openedBytes, List.length_append, List.length_cons, List.length_replicate]
  split_ifs <;> omega

lemma paddedBytes_eq (message : List UInt8) (padByte : UInt8) (length : List UInt8) :
    paddedBytes message padByte length = openedBytes message padByte ++
      (List.replicate (56 - (openedBytes message padByte).length % 64) 0 ++ length) := by
  have hzeros : (119 - message.length % 64) % 64 =
      (if message.length % 64 < 56 then 0 else 63 - message.length % 64) +
        (56 - (openedBytes message padByte).length % 64) := by
    rw [openedBytes_length]
    split_ifs <;> omega
  rw [paddedBytes, hzeros, List.replicate_add, openedBytes]
  simp only [List.append_assoc, List.cons_append]

lemma Holds.openLastBlock
    (h : Holds (processAll 64 processBlock H0 message) (remainder 64 message) context)
    (padByte : UInt8) :
    ∃ context', context.openLastBlock padByte = .ok context' ∧ SameStatus context context' ∧
      Holds (processAll 64 processBlock H0 (openedBytes message padByte))
        (remainder 64 (openedBytes message padByte)) context' := by
  obtain ⟨hput, hholds⟩ := h.put (remainder_lt message) padByte
  have hrest : (remainder 64 message ++ [padByte]).length = message.length % 64 + 1 := by
    rw [List.length_append, remainder_length, List.length_singleton]
  have hindex := h.index
  rw [remainder_length] at hindex
  by_cases hroom : message.length % 64 < 56
  · refine ⟨context.putByte padByte, ?_, sameStatus_putByte context padByte, ?_⟩
    · rw [Sha256Context.openLastBlock, if_neg (by rw [hindex]; exact Nat.not_le.mpr hroom), hput]
    · have hopen : message.length % 64 + [padByte].length < 64 := by
        rw [List.length_singleton]
        omega
      rwa [openedBytes, if_pos hroom, List.replicate_zero, processAll_append_open (by decide) hopen,
        remainder_append_open (by decide) hopen]
  · have hfull : message.length % 64 +
        (padByte :: List.replicate (63 - message.length % 64) (0 : UInt8)).length = 64 := by
      rw [List.length_cons, List.length_replicate]
      omega
    have hle : (remainder 64 message ++ [padByte]).length ≤ 64 := by
      rw [hrest]
      omega
    obtain ⟨context₁, hpad, hholds₁, hsame₁⟩ := hholds.padTo hle le_rfl
    refine ⟨sha224256ProcessMessageBlock context₁, ?_,
      ((sameStatus_putByte context padByte).trans hsame₁).trans
      (sameStatus_processMessageBlock context₁), ?_⟩
    · rw [Sha256Context.openLastBlock, if_pos (by rw [hindex]; exact Nat.not_lt.mp hroom), hput]
      show (context.putByte padByte).padTo 64 >>= _ = _
      rw [hpad]
      rfl
    · rw [openedBytes, if_neg hroom, processAll_append_full (by decide) hfull,
        remainder_append_full (by decide) hfull]
      rw [hrest, List.append_assoc, List.singleton_append, show 64 - (message.length % 64 + 1) =
        63 - message.length % 64 by omega] at hholds₁
      apply hholds₁.process
      rw [List.length_append, remainder_length, hfull]

/-- The padding leaves the hash value of the padded message. -/
lemma Holds.padMessage
    (h : Holds (processAll 64 processBlock H0 message) (remainder 64 message) context)
    (padByte : UInt8) : ∃ context', sha224256PadMessage context padByte = .ok context' ∧
      SameStatus context context' ∧ context'.intermediateHash =
        processAll 64 processBlock H0 (paddedBytes message padByte (lengthBytes context)) := by
  obtain ⟨context₁, hopen, hsame₁, hholds₁⟩ := h.openLastBlock padByte
  have hroom : (openedBytes message padByte).length % 64 ≤ 56 := by
    rw [openedBytes_length]
    split_ifs <;> omega
  obtain ⟨context₂, hpad, hsame₂, hholds₂⟩ := hholds₁.lastBlock (by rwa [remainder_length])
  refine ⟨sha224256ProcessMessageBlock context₂.storeLength, ?_,
    ((hsame₁.trans hsame₂).trans (sameStatus_storeLength _)).trans
    (sameStatus_processMessageBlock _), ?_⟩
  · rw [sha224256PadMessage, hopen]
    show context₁.padTo 56 >>= _ = _
    rw [hpad]
    rfl
  · have hlength : lengthBytes context₁ = lengthBytes context := by
      rw [lengthBytes, lengthBytes, hsame₁.low, hsame₁.high]
    have hfull : (openedBytes message padByte).length % 64 +
        (List.replicate (56 - (openedBytes message padByte).length % 64) (0 : UInt8) ++
          lengthBytes context).length =
          64 := by
      rw [List.length_append, List.length_replicate, show (lengthBytes context).length = 8 from rfl]
      omega
    rw [hholds₂.hash, paddedBytes_eq, processAll_append_full (by decide) hfull, remainder_length,
      hlength, List.append_assoc]

lemma Holds.finalize
    (h : Holds (processAll 64 processBlock H0 message) (remainder 64 message) context)
    (padByte : UInt8) : ∃ context', sha224256Finalize context padByte = .ok context' ∧
      context'.computed = true ∧ context'.corrupted = context.corrupted ∧
        context'.intermediateHash =
        processAll 64 processBlock H0 (paddedBytes message padByte (lengthBytes context)) := by
  obtain ⟨context', hpad, hsame, hhash⟩ := h.padMessage padByte
  rw [sha224256Finalize, hpad]
  exact ⟨_, rfl, rfl, hsame.corrupted, hhash⟩

/-- With `length` further bits, the hash value is that of the standard. -/
lemma hash_paddedBytes (v : Variant) (b : UInt8) {length : ℕ} (hlength : length < 8)
    (hbits : context.bitLength = 8*message.length + length) :
    processAll 64 processBlock v.H0
        (paddedBytes message (b &&& masks.getD length 0 ||| markbit.getD length 0)
          (lengthBytes context)) =
      Fips.hash v (bitsOf message ++ (wordBits b.toBitVec).take length) := by
  rw [Fips.hash, ← bitsOf_paddedBytes message b hlength (by rw [bitsOf_lengthBytes, hbits]),
    processAll_bitsOf, initialHash_eq]

end IronSafe.Sha
