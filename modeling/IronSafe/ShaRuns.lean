import IronSafe.ShaStream

/-! All calls on a hash context. The abstract machine remembers the message and how far its hash has
come; every sequence of calls on the context has the codes and the digests of that machine. -/
namespace IronSafe.Sha
open Bytes BlockStream Fips
open Merkle (Crash)

/-- The calls on a context; the two variants share all of them but the reset and the result. -/
inductive ShaOp
  | reset (v : Variant)
  | input (messageArray : Option (List UInt8)) (length : ℕ)
  | finalBits (messageBits : UInt8) (length : ℕ)
  | result (v : Variant) (messageDigest : Bool)

abbrev Answer (δ : Type) := ShaCode × Option δ

def ShaOp.run (context : Sha256Context) : ShaOp → Except Crash (Answer (List UInt8) × Sha256Context)
  | .reset v => .ok ((.success, none), sha224256Reset context v.H0)
  | .input messageArray length => do
    let (code, context) ← sha256Input context messageArray length
    return ((code, none), context)
  | .finalBits messageBits length => do
    let (code, context) ← sha256FinalBits context messageBits length
    return ((code, none), context)
  | .result v messageDigest => do
    let (code, digest, context) ← sha224256ResultN context messageDigest v.hashSize
    return ((code, digest), context)

def runOps : List ShaOp → Sha256Context → Except Crash (List (Answer (List UInt8)) × Sha256Context)
  | [], context => .ok ([], context)
  | op :: ops, context => do
    let (answer, context) ← op.run context
    let (answers, context) ← runOps ops context
    return (answer :: answers, context)

/-- A context as its users see it: it takes in a message, has the hash of a message, or is
spoilt. -/
inductive Hasher
  | absorbing (v : Variant) (message : List UInt8)
  | finished (v : Variant) (message : List Bool)
  | broken (code : ShaCode)

/-- A message of 2⁶⁴ bits or more spoils the hasher, in a call that reports success. -/
def Hasher.input (bytes : List UInt8) : Hasher → ShaCode × Hasher
  | .absorbing v message =>
    (.success, if 8*(message ++ bytes).length < 2^64 then .absorbing v (message ++ bytes)
      else .broken .null)
  | .finished _ _ => (.stateError, .broken .stateError)
  | .broken code => (code, .broken code)

def Hasher.finalBits (bits : List Bool) : Hasher → ShaCode × Hasher
  | .absorbing v message => (.success, .finished v (bitsOf message ++ bits))
  | .finished _ _ => (.stateError, .broken .stateError)
  | .broken code => (code, .broken code)

/-- The result of the other variant is the hash of this variant, cut to the other's size. -/
def Hasher.result (size : ℕ) : Hasher → Answer (List Bool) × Hasher
  | .absorbing v message =>
      ((.success, some (digest size (Fips.hash v (bitsOf message)))), .finished v (bitsOf message))
  | .finished v message =>
    ((.success, some (digest size (Fips.hash v message))), .finished v message)
  | .broken code => ((code, none), .broken code)

def Hasher.step (s : Hasher) : ShaOp → Answer (List Bool) × Hasher
  | .reset v => ((.success, none), .absorbing v [])
  | .input none length => if length = 0 then ((.success, none), s) else ((.null, none), s)
  | .input (some bytes) length =>
    if length = 0 then ((.success, none), s)
    else (((s.input (bytes.take length)).1, none), (s.input (bytes.take length)).2)
  | .finalBits messageBits length =>
    if length = 0 then ((.success, none), s)
    else if 8 ≤ length then ((.stateError, none), .broken .stateError)
    else
      let bits := (wordBits messageBits.toBitVec).take length
      (((s.finalBits bits).1, none), (s.finalBits bits).2)
  | .result v messageDigest => if messageDigest then s.result v.hashSize else ((.null, none), s)

def Hasher.run : List ShaOp → Hasher → List (Answer (List Bool)) × Hasher
  | [], s => ([], s)
  | op :: ops, s => ((s.step op).1 :: (run ops (s.step op).2).1, (run ops (s.step op).2).2)

/-- The context is in the state that the hasher describes. -/
def Simulates (context : Sha256Context) : Hasher → Prop
  | .absorbing v message => Absorbing v.H0 message context
  | .finished v message =>
    context.intermediateHash = Fips.hash v message ∧ context.computed = true ∧
      context.corrupted = .success
  | .broken code =>
    context.corrupted = code ∧ code ≠ .success ∧ (context.computed = true → code = .stateError)

/-- The digest of an answer by its bits. -/
def Answer.bits (answer : Answer (List UInt8)) : Answer (List Bool) :=
  (answer.1, answer.2.map bitsOf)

variable {context : Sha256Context} {s : Hasher}

lemma simulates_stateError (context : Sha256Context) :
    Simulates { context with corrupted := .stateError } (.broken .stateError) :=
  ⟨rfl, by decide, fun _ => rfl⟩

/-! ### One call -/

lemma sha256Input_absorbing {H0 : Words} {message : List UInt8} (h : Absorbing H0 message context)
    {length : ℕ} (hlength : length ≠ 0) (bytes : List UInt8) :
    sha256Input context (some bytes) length =
      inputLoop (bytes.take length) context >>= fun context => .ok (.success, context) := by
  rw [sha256Input, if_neg hlength, if_neg (by simp [h.computed]), if_neg (not_not.mpr h.corrupted)]
  rfl

lemma Absorbing.input {H0 : Words} {message : List UInt8} (h : Absorbing H0 message context)
    {length : ℕ} (hlength : length ≠ 0) {bytes : List UInt8}
    (hfits : 8*(message ++ bytes.take length).length < 2^64) :
    ∃ context', sha256Input context (some bytes) length = .ok (.success, context') ∧
      Absorbing H0 (message ++ bytes.take length) context' := by
  obtain ⟨context', hrun, h'⟩ := h.inputLoop hfits
  refine ⟨context', ?_, h'⟩
  rw [sha256Input_absorbing h hlength, hrun]
  rfl

lemma Simulates.input (h : Simulates context s) {length : ℕ} (hlength : length ≠ 0)
    (bytes : List UInt8) :
    ∃ context',
      sha256Input context (some bytes) length = .ok ((s.input (bytes.take length)).1, context') ∧
      Simulates context' (s.input (bytes.take length)).2 := by
  cases s with
  | absorbing v message =>
    have h : Absorbing v.H0 message context := h
    rw [Hasher.input]
    by_cases hfits : 8*(message ++ bytes.take length).length < 2^64
    · rw [if_pos hfits]
      exact h.input hlength hfits
    · obtain ⟨context', hrun, hcomp, hcorr⟩ := h.inputLoop_overflow (Nat.le_of_not_lt hfits)
      rw [sha256Input_absorbing h hlength, hrun, if_neg hfits]
      exact ⟨context', rfl, hcorr, by decide, fun hc => absurd (hcomp.symm.trans hc) (by decide)⟩
  | finished v message =>
    obtain ⟨-, hcomp, -⟩ := h
    rw [sha256Input, if_neg hlength]
    exact ⟨_, if_pos hcomp, simulates_stateError context⟩
  | broken code =>
    obtain ⟨rfl, hne, hcomp⟩ := h
    rw [sha256Input, if_neg hlength]
    by_cases hc : context.computed = true
    · rw [if_pos hc, hcomp hc]
      exact ⟨_, rfl, simulates_stateError context⟩
    · rw [if_neg hc, if_pos hne]
      exact ⟨context, rfl, rfl, hne, hcomp⟩

lemma Simulates.finalBits (h : Simulates context s) (messageBits : UInt8) {length : ℕ}
    (hlength : length ≠ 0) (hlt : length < 8) :
    ∃ context', sha256FinalBits context messageBits length =
        .ok ((s.finalBits ((wordBits messageBits.toBitVec).take length)).1, context') ∧
      Simulates context' (s.finalBits ((wordBits messageBits.toBitVec).take length)).2 := by
  rw [sha256FinalBits, if_neg hlength]
  cases s with
  | absorbing v message =>
    have h : Absorbing v.H0 message context := h
    have hnot : ¬ (context.computed = true ∨ 8 ≤ length) := by
      rw [h.computed]
      simpa using hlt
    have hbound : context.bitLength + length < 2^64 := by
      -- the length so far is a multiple of eight
      have hlt64 := context.bitLength_lt
      have hbits := h.length
      omega
    obtain ⟨hlen, hcorr⟩ := addLength_fits (by omega) hbound
    obtain ⟨context', hfin, hcomp, hcorr', hhash⟩ := (h.toHolds.addLength length).finalize
      (messageBits &&& masks.getD length 0 ||| markbit.getD length 0)
    rw [if_neg hnot, if_neg (by simp [h.corrupted]), hfin]
    refine ⟨context', rfl, ?_, hcomp, hcorr'.trans hcorr⟩
    rw [hhash, hash_paddedBytes v messageBits hlt (by rw [hlen, h.length])]
  | finished v message =>
    obtain ⟨-, hcomp, -⟩ := h
    exact ⟨_, if_pos (.inl hcomp), simulates_stateError context⟩
  | broken code =>
    obtain ⟨rfl, hne, hcomp⟩ := h
    by_cases hc : context.computed = true
    · rw [if_pos (.inl hc)]
      simp only [Hasher.finalBits, hcomp hc]
      exact ⟨_, rfl, simulates_stateError context⟩
    · rw [if_neg (by simp [hc, hlt]), if_pos hne]
      exact ⟨context, rfl, rfl, hne, hcomp⟩

lemma bitsOf_digest (H : Words) {size : ℕ} (h : size ≤ 32) :
    bitsOf ((List.range size).map (digestByte H)) = digest size H := by
  have hfull : bitsOf ((List.range 32).map (digestByte H)) = H.toList.flatMap wordBits := by
    simp only [Words.toList, List.flatMap_cons,
      List.flatMap_nil, ← bitsOf_wordBytes, ← bitsOf_append, List.append_nil]
    rfl
  have htake :
      (List.range size).map (digestByte H) = ((List.range 32).map (digestByte H)).take size := by
    rw [← List.map_take, List.take_range, Nat.min_eq_left h]
  rw [htake, bitsOf_take, hfull, digest]

lemma Variant.hashSize_le (v : Variant) : v.hashSize ≤ 32 := by cases v <;> decide

lemma Absorbing.finalizeOnce {v : Variant} {message : List UInt8}
    (h : Absorbing v.H0 message context) :
    ∃ context', context.finalizeOnce = .ok context' ∧ context'.computed = true ∧
      context'.corrupted = .success ∧ context'.intermediateHash = Fips.hash v (bitsOf message) := by
  obtain ⟨context', hfin, hcomp, hcorr, hhash⟩ :=
    h.finalize (0 &&& masks.getD 0 0 ||| markbit.getD 0 0)
  rw [hash_paddedBytes v 0 (by decide) h.length, List.take_zero, List.append_nil] at hhash
  refine ⟨context', ?_, hcomp, hcorr.trans h.corrupted, hhash⟩
  rw [Sha256Context.finalizeOnce, h.computed]
  exact hfin

lemma resultN_of_success (hcorr : context.corrupted = .success) {context' : Sha256Context}
    (hfin : context.finalizeOnce = .ok context') (size : ℕ) :
    sha224256ResultN context true size =
      .ok (.success, some ((List.range size).map (digestByte context'.intermediateHash)),
        context') := by
  rw [sha224256ResultN, if_neg (by decide), if_neg (not_not.mpr hcorr), hfin]
  rfl

lemma answer_bits_digest {H H' : Words} (h : H = H') {size : ℕ} (hsize : size ≤ 32) :
    Answer.bits (.success, some ((List.range size).map (digestByte H))) =
      (.success, some (digest size H')) := by
  rw [Answer.bits, Option.map_some, bitsOf_digest H hsize, h]

lemma Simulates.result (h : Simulates context s) {size : ℕ} (hsize : size ≤ 32) :
    ∃ answer context', sha224256ResultN context true size = .ok (answer.1, answer.2, context') ∧
      Answer.bits answer = (s.result size).1 ∧ Simulates context' (s.result size).2 := by
  cases s with
  | absorbing v message =>
    obtain ⟨context', hfin, hcomp, hcorr, hhash⟩ := Absorbing.finalizeOnce h
    exact ⟨_, context', resultN_of_success (Absorbing.corrupted h) hfin size,
      answer_bits_digest hhash hsize, hhash, hcomp, hcorr⟩
  | finished v message =>
    obtain ⟨hhash, hcomp, hcorr⟩ := h
    exact ⟨_, context, resultN_of_success hcorr (if_pos hcomp) size, answer_bits_digest hhash hsize,
      hhash, hcomp, hcorr⟩
  | broken code =>
    obtain ⟨rfl, hne, hcomp⟩ := h
    refine ⟨(context.corrupted, none), context, ?_, rfl, rfl, hne, hcomp⟩
    rw [sha224256ResultN, if_neg (by decide), if_pos hne]

lemma Simulates.run (h : Simulates context s) (op : ShaOp) :
    ∃ answer context', op.run context = .ok (answer, context') ∧ answer.bits = (s.step op).1 ∧
      Simulates context' (s.step op).2 := by
  cases op with
  | reset v => exact ⟨_, _, rfl, rfl, absorbing_reset context v.H0⟩
  | input messageArray length =>
    rw [ShaOp.run]
    by_cases hzero : length = 0
    · rw [show sha256Input context messageArray length = .ok (.success, context) from if_pos hzero]
      refine ⟨_, context, rfl, ?_⟩
      cases messageArray <;> rw [Hasher.step, if_pos hzero] <;> exact ⟨rfl, h⟩
    cases messageArray with
    | none =>
      rw [sha256Input, if_neg hzero, Hasher.step, if_neg hzero]
      exact ⟨_, context, rfl, rfl, h⟩
    | some bytes =>
      obtain ⟨context', hrun, h'⟩ := h.input hzero bytes
      rw [hrun, Hasher.step, if_neg hzero]
      exact ⟨_, context', rfl, rfl, h'⟩
  | finalBits messageBits length =>
    rw [ShaOp.run, Hasher.step]
    by_cases hzero : length = 0
    · rw [sha256FinalBits, if_pos hzero, if_pos hzero]
      exact ⟨_, context, rfl, rfl, h⟩
    rw [if_neg hzero]
    by_cases hlong : 8 ≤ length
    · rw [sha256FinalBits, if_neg hzero, if_pos (.inr hlong), if_pos hlong]
      exact ⟨_, _, rfl, rfl, simulates_stateError context⟩
    · obtain ⟨context', hrun, h'⟩ := h.finalBits messageBits hzero (Nat.lt_of_not_le hlong)
      rw [hrun, if_neg hlong]
      exact ⟨_, context', rfl, rfl, h'⟩
  | result v messageDigest =>
    rw [ShaOp.run, Hasher.step]
    cases messageDigest with
    | false => exact ⟨_, context, rfl, rfl, h⟩
    | true =>
      obtain ⟨answer, context', hrun, hbits, h'⟩ := h.result v.hashSize_le
      rw [hrun]
      exact ⟨answer, context', rfl, hbits, h'⟩

/-! ### All calls -/

lemma Simulates.runOps (h : Simulates context s) (ops : List ShaOp) :
    ∃ answers context', Sha.runOps ops context = .ok (answers, context') ∧
      answers.map Answer.bits = (s.run ops).1 ∧ Simulates context' (s.run ops).2 := by
  induction ops generalizing context s with
  | nil => exact ⟨[], context, rfl, rfl, h⟩
  | cons op ops ih =>
    obtain ⟨answer, context₁, hop, hbits, h₁⟩ := h.run op
    obtain ⟨answers, context', hops, hbits', h'⟩ := ih h₁
    refine ⟨answer :: answers, context', ?_, ?_, h'⟩
    · rw [Sha.runOps, hop]
      show Sha.runOps ops context₁ >>= _ = _
      rw [hops]
      rfl
    · rw [List.map_cons, hbits, hbits']
      rfl

/-- From the reset on, whatever the context held before, every sequence of calls returns the codes
and the digests of the hasher, and none of them writes behind the message block. -/
theorem runOps_eq_hasher (context : Sha256Context) (v : Variant) (ops : List ShaOp) :
    ∃ answers context', Sha.runOps (.reset v :: ops) context = .ok (answers, context') ∧
      answers.map Answer.bits = (.success, none) :: (Hasher.run ops (.absorbing v [])).1 := by
  obtain ⟨answers, context', hrun, hbits, -⟩ :=
    Simulates.runOps (s := .absorbing v []) (absorbing_reset context v.H0) ops
  refine ⟨(.success, none) :: answers, context', ?_, ?_⟩
  · rw [Sha.runOps]
    show Sha.runOps ops (sha224256Reset context v.H0) >>= _ = _
    rw [hrun]
    rfl
  · rw [List.map_cons, hbits]
    rfl

end IronSafe.Sha
