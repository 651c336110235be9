import IronSafe.MerkleList

/-! SHA-224 and SHA-256 as in `sha224-256.c`. A context takes a message piece by piece and
compresses each full block of 64 bytes; `Corrupted` holds the code of the first failure. A write
behind the end of the message block is a crash. -/
namespace IronSafe.Sha
open Merkle (Crash)

abbrev Word := BitVec 32

/-- The codes returned by all functions. -/
inductive ShaCode
  | success | null | inputTooLong | stateError | badParam
  deriving DecidableEq

def sha256Shr (bits : ℕ) (word : Word) : Word := word >>> bits

def sha256Rotr (bits : ℕ) (word : Word) : Word := word >>> bits ||| word <<< (32-bits)

def sha256SIGMA0 (word : Word) : Word :=
  sha256Rotr 2 word ^^^ sha256Rotr 13 word ^^^ sha256Rotr 22 word

def sha256SIGMA1 (word : Word) : Word :=
  sha256Rotr 6 word ^^^ sha256Rotr 11 word ^^^ sha256Rotr 25 word

def sha256sigma0 (word : Word) : Word :=
  sha256Rotr 7 word ^^^ sha256Rotr 18 word ^^^ sha256Shr 3 word

def sha256sigma1 (word : Word) : Word :=
  sha256Rotr 17 word ^^^ sha256Rotr 19 word ^^^ sha256Shr 10 word

def shaCh (x y z : Word) : Word := x &&& y ^^^ ~~~x &&& z

def shaMaj (x y z : Word) : Word := x &&& y ^^^ x &&& z ^^^ y &&& z

def K : List Word :=
  [0x428a2f98, 0x71374491, 0xb5c0fbcf, 0xe9b5dba5, 0x3956c25b, 0x59f111f1, 0x923f82a4, 0xab1c5ed5,
   0xd807aa98, 0x12835b01, 0x243185be, 0x550c7dc3, 0x72be5d74, 0x80deb1fe, 0x9bdc06a7, 0xc19bf174,
   0xe49b69c1, 0xefbe4786, 0x0fc19dc6, 0x240ca1cc, 0x2de92c6f, 0x4a7484aa, 0x5cb0a9dc, 0x76f988da,
   0x983e5152, 0xa831c66d, 0xb00327c8, 0xbf597fc7, 0xc6e00bf3, 0xd5a79147, 0x06ca6351, 0x14292967,
   0x27b70a85, 0x2e1b2138, 0x4d2c6dfc, 0x53380d13, 0x650a7354, 0x766a0abb, 0x81c2c92e, 0x92722c85,
   0xa2bfe8a1, 0xa81a664b, 0xc24b8b70, 0xc76c51a3, 0xd192e819, 0xd6990624, 0xf40e3585, 0x106aa070,
   0x19a4c116, 0x1e376c08, 0x2748774c, 0x34b0bcb5, 0x391c0cb3, 0x4ed8aa4a, 0x5b9cca4f, 0x682e6ff3,
   0x748f82ee, 0x78a5636f, 0x84c87814, 0x8cc70208, 0x90befffa, 0xa4506ceb, 0xbef9a3f7, 0xc67178f2]

/-- Eight words: the hash value between two blocks, and the word buffers of the rounds. -/
structure Words where
  a : Word
  b : Word
  c : Word
  d : Word
  e : Word
  f : Word
  g : Word
  h : Word
  deriving DecidableEq

def Words.toList (r : Words) : List Word := [r.a, r.b, r.c, r.d, r.e, r.f, r.g, r.h]

def sha224H0 : Words :=
  ⟨0xC1059ED8, 0x367CD507, 0x3070DD17, 0xF70E5939, 0xFFC00B31, 0x68581511, 0x64F98FA7, 0xBEFA4FA4⟩

def sha256H0 : Words :=
  ⟨0x6A09E667, 0xBB67AE85, 0x3C6EF372, 0xA54FF53A, 0x510E527F, 0x9B05688C, 0x1F83D9AB, 0x5BE0CD19⟩

def messageBlockSize : ℕ := 64

structure Sha256Context where
  intermediateHash : Words
  lengthLow : Word
  lengthHigh : Word
  messageBlockIndex : ℕ
  messageBlock : {bs : List UInt8 // bs.length = messageBlockSize}
  computed : Bool
  corrupted : ShaCode

def byteWord (b : UInt8) : Word := b.toBitVec.setWidth 32

/-- `W[0]` to `W[15]`: four bytes each, most significant first. -/
def firstWords (block : List UInt8) : List Word :=
  (List.range 16).map fun t =>
    byteWord (block.getD (4*t) 0) <<< 24 ||| byteWord (block.getD (4*t+1) 0) <<< 16 |||
      byteWord (block.getD (4*t+2) 0) <<< 8 ||| byteWord (block.getD (4*t+3) 0)

/-- The word that is put behind those made so far. -/
def nextWord (W : List Word) : Word :=
  let t := W.length
  sha256sigma1 (W.getD (t-2) 0) + W.getD (t-7) 0 + sha256sigma0 (W.getD (t-15) 0) + W.getD (t-16) 0

def extendWords (W : List Word) : List Word := W ++ [nextWord W]

def words (block : List UInt8) : List Word := extendWords^[48] (firstWords block)

def shaRound (W : List Word) (r : Words) (t : ℕ) : Words :=
  let temp1 := r.h + sha256SIGMA1 r.e + shaCh r.e r.f r.g + K.getD t 0 + W.getD t 0
  let temp2 := sha256SIGMA0 r.a + shaMaj r.a r.b r.c
  ⟨temp1+temp2, r.a, r.b, r.c, r.d+temp1, r.e, r.f, r.g⟩

def Words.add (x y : Words) : Words :=
  ⟨x.a+y.a, x.b+y.b, x.c+y.c, x.d+y.d, x.e+y.e, x.f+y.f, x.g+y.g, x.h+y.h⟩

def processBlock (hash : Words) (block : List UInt8) : Words :=
  hash.add ((List.range 64).foldl (shaRound (words block)) hash)

/-- The new hash value is stored and the block is empty. -/
def Sha256Context.blockDone (context : Sha256Context) (hash : Words) : Sha256Context :=
  { context with intermediateHash := hash, messageBlockIndex := 0 }

def sha224256ProcessMessageBlock (context : Sha256Context) : Sha256Context :=
  context.blockDone (processBlock context.intermediateHash context.messageBlock.val)

def sha224256Reset (context : Sha256Context) (H0 : Words) : Sha256Context :=
  { context with
    lengthLow := 0, lengthHigh := 0, messageBlockIndex := 0, intermediateHash := H0
    computed := false, corrupted := .success }

lemma length_set_block (bs : {bs : List UInt8 // bs.length = messageBlockSize}) (i : ℕ)
    (b : UInt8) : (bs.val.set i b).length = messageBlockSize := by rw [List.length_set, bs.2]

/-- `Message_Block[Message_Block_Index++] = b`. -/
def Sha256Context.putByte (context : Sha256Context) (b : UInt8) : Sha256Context :=
  { context with
    messageBlock :=
    ⟨context.messageBlock.val.set context.messageBlockIndex b, length_set_block _ _ _⟩
    messageBlockIndex := context.messageBlockIndex + 1 }

def Sha256Context.put (context : Sha256Context) (b : UInt8) : Except Crash Sha256Context :=
  if context.messageBlockIndex < messageBlockSize then .ok (context.putByte b)
  else .error .outOfBounds

/-- The macro assigns `Corrupted` every time: one, which is the code of a null pointer, if the
length of the message overflows, and zero otherwise. -/
def sha224256AddLength (context : Sha256Context) (length : ℕ) : Sha256Context :=
  let low := context.lengthLow + BitVec.ofNat 32 length
  if low < context.lengthLow then
    let high := context.lengthHigh + 1
    { context with
        lengthLow := low, lengthHigh := high, corrupted := if high = 0 then .null else .success }
  else { context with lengthLow := low, corrupted := .success }

/-- One byte of the loop of `SHA256Input`. -/
def Sha256Context.inputByte (context : Sha256Context) (b : UInt8) : Except Crash Sha256Context := do
  let context ← context.put b
  let context := sha224256AddLength context 8
  if context.corrupted = .success ∧ context.messageBlockIndex = messageBlockSize then
    return sha224256ProcessMessageBlock context
  else return context

def inputLoop : List UInt8 → Sha256Context → Except Crash Sha256Context
  | [], context => .ok context
  | b :: messageArray, context =>
    if context.corrupted ≠ .success then .ok context
    else do
      let context ← context.inputByte b
      inputLoop messageArray context

/-- `none` is a null pointer; otherwise the array has at least `length` bytes. -/
def sha256Input (context : Sha256Context) (messageArray : Option (List UInt8)) (length : ℕ) :
    Except Crash (ShaCode × Sha256Context) :=
  if length = 0 then .ok (.success, context)
  else match messageArray with
  | none => .ok (.null, context)
  | some bytes =>
    if context.computed then .ok (.stateError, { context with corrupted := .stateError })
    else if context.corrupted ≠ .success then .ok (context.corrupted, context)
    else do
      let context ← inputLoop (bytes.take length) context
      return (.success, context)

/-- The loops that put zeros up to an index. -/
def putZeros : ℕ → Sha256Context → Except Crash Sha256Context
  | 0, context => .ok context
  | left+1, context => do
    let context ← context.put 0
    putZeros left context

def Sha256Context.padTo (context : Sha256Context) (index : ℕ) : Except Crash Sha256Context :=
  putZeros (index - context.messageBlockIndex) context

/-- The eight bytes of the message length at the end of the block. -/
def lengthBytes (context : Sha256Context) : List UInt8 :=
  [UInt8.ofBitVec ((context.lengthHigh >>> 24).setWidth 8),
    UInt8.ofBitVec ((context.lengthHigh >>> 16).setWidth 8),
   UInt8.ofBitVec ((context.lengthHigh >>> 8).setWidth 8),
   UInt8.ofBitVec (context.lengthHigh.setWidth 8),
   UInt8.ofBitVec ((context.lengthLow >>> 24).setWidth 8),
   UInt8.ofBitVec ((context.lengthLow >>> 16).setWidth 8),
   UInt8.ofBitVec ((context.lengthLow >>> 8).setWidth 8),
   UInt8.ofBitVec (context.lengthLow.setWidth 8)]

lemma length_storeLength (bs : {bs : List UInt8 // bs.length = messageBlockSize})
    (context : Sha256Context) :
    (Bytes.overwrite bs.val 56 (lengthBytes context)).length = messageBlockSize := by
  rw [Bytes.overwrite_length _ _ (by rw [bs.2]; rfl), bs.2]

def Sha256Context.storeLength (context : Sha256Context) : Sha256Context :=
  { context with messageBlock :=
      ⟨Bytes.overwrite context.messageBlock.val 56 (lengthBytes context), length_storeLength _ _⟩ }

/-- The first step of the padding: a block without room for the length is filled up and
processed. -/
def Sha256Context.openLastBlock (context : Sha256Context) (padByte : UInt8) :
    Except Crash Sha256Context :=
  if messageBlockSize - 8 ≤ context.messageBlockIndex then do
    let context ← context.put padByte
    let context ← context.padTo messageBlockSize
    return sha224256ProcessMessageBlock context
  else context.put padByte

def sha224256PadMessage (context : Sha256Context) (padByte : UInt8) : Except Crash Sha256Context :=
  do
  let context ← context.openLastBlock padByte
  let context ← context.padTo (messageBlockSize-8)
  return sha224256ProcessMessageBlock context.storeLength

def sha224256Finalize (context : Sha256Context) (padByte : UInt8) : Except Crash Sha256Context := do
  let context ← sha224256PadMessage context padByte
  return { context with
    messageBlock := ⟨List.replicate messageBlockSize 0, List.length_replicate⟩
    lengthLow := 0, lengthHigh := 0, computed := true }

def masks : List UInt8 := [0x00, 0x80, 0xC0, 0xE0, 0xF0, 0xF8, 0xFC, 0xFE]

def markbit : List UInt8 := [0x80, 0x40, 0x20, 0x10, 0x08, 0x04, 0x02, 0x01]

def sha256FinalBits (context : Sha256Context) (messageBits : UInt8) (length : ℕ) :
    Except Crash (ShaCode × Sha256Context) :=
  if length = 0 then .ok (.success, context)
  else if context.computed ∨
    8 ≤ length then .ok (.stateError, { context with corrupted := .stateError })
  else if context.corrupted ≠ .success then .ok (context.corrupted, context)
  else do
    let context ← sha224256Finalize (sha224256AddLength context length)
      (messageBits &&& masks.getD length 0 ||| markbit.getD length 0)
    return (.success, context)

/-- Byte `i` of the hash value. -/
def digestByte (hash : Words) (i : ℕ) : UInt8 :=
  UInt8.ofBitVec ((hash.toList.getD (i/4) 0 >>> (8*(3 - i%4))).setWidth 8)

def Sha256Context.finalizeOnce (context : Sha256Context) : Except Crash Sha256Context :=
  if context.computed then .ok context else sha224256Finalize context 0x80

/-- `messageDigest` says whether the pointer for the digest is not null. -/
def sha224256ResultN (context : Sha256Context) (messageDigest : Bool) (hashSize : ℕ) :
    Except Crash (ShaCode × Option (List UInt8) × Sha256Context) :=
  if !messageDigest then .ok (.null, none, context)
  else if context.corrupted ≠ .success then .ok (context.corrupted, none, context)
  else do
    let context ← context.finalizeOnce
    return (.success, some ((List.range hashSize).map (digestByte context.intermediateHash)),
      context)

/-- The two hash functions differ in their initial value and in the bytes that are returned. -/
inductive Variant
  | sha224 | sha256
  deriving DecidableEq

def Variant.H0 : Variant → Words
  | .sha224 => sha224H0
  | .sha256 => sha256H0

def Variant.hashSize : Variant → ℕ
  | .sha224 => 28
  | .sha256 => 32

end IronSafe.Sha
