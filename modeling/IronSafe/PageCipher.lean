import IronSafe.MerkleVerify

/-! The page codec of `sec_sqlite3.c`: a page is ciphertext followed by a reserve area that
holds the initialisation vector, the HMAC and the index of the page's leaf in the tree of
tags. The crypto provider is a parameter; random bytes and the outcome of allocations are
inputs of each call. -/
namespace IronSafe.Page
open Bytes Merkle

inductive CipherMode
  | encrypt | decrypt
  deriving DecidableEq

inductive Rc
  | ok | error
  deriving DecidableEq

/-- The functions and sizes of a crypto provider for its cipher and HMAC algorithm. A
provider call that fails returns `none`. -/
structure Provider where
  ivSz : ℕ
  blockSz : ℕ
  hmacSz : ℕ
  hmac : (hmacKey inp pgnoRaw : List UInt8) → Option (List UInt8)
  cipher : (mode : CipherMode) → (key iv inp : List UInt8) → Option (List UInt8)
  blockSz_pos : 0 < blockSz
  hmac_length : ∀ {k x p h}, hmac k x p = some h → h.length = hmacSz
  cipher_length : ∀ {m k iv x y}, cipher m k iv x = some y → y.length = x.length

structure CipherCtx where
  key : List UInt8
  hmacKey : List UInt8
  deriving DecidableEq

def fileHeaderSz : ℕ := 16

def sqliteFileHeader : List UInt8 :=
  [0x53,0x51,0x4c,0x69,0x74,0x65,0x20,0x66,0x6f,0x72,0x6d,0x61,0x74,0x20,0x33,0x00]

/-- `sqlcipher_codec_ctx_reserve_setup`. -/
def reserveSetup (provider : Provider) (useHmac : Bool) : ℕ :=
  let reserve := provider.ivSz + if useHmac then provider.hmacSz else 0
  (if reserve % provider.blockSz = 0 then reserve
    else (reserve/provider.blockSz + 1)*provider.blockSz) + 4*4

def headerOffset (plaintextHeaderSz pgno : ℕ) : ℕ :=
  if pgno = 1 then (if plaintextHeaderSz ≠ 0 then plaintextHeaderSz else fileHeaderSz) else 0

structure CodecCtx where
  provider : Provider
  pageSz : ℕ
  keySz : ℕ
  plaintextHeaderSz : ℕ
  useHmac : Bool
  lePgno : Bool
  bePgno : Bool
  skipReadHmac : Bool
  readCtx : CipherCtx
  writeCtx : CipherCtx
  kdfSalt : List UInt8
  kdfSalt_length : kdfSalt.length = fileHeaderSz
  fits : headerOffset plaintextHeaderSz 1 + reserveSetup provider useHmac ≤ pageSz

variable (ctx : CodecCtx)

def CodecCtx.reserveSz : ℕ := reserveSetup ctx.provider ctx.useHmac

def CodecCtx.offset (pgno : ℕ) : ℕ := headerOffset ctx.plaintextHeaderSz pgno

def CodecCtx.cipherCtx (forCtx : Bool) : CipherCtx := if forCtx then ctx.writeCtx else ctx.readCtx

/-- What one call takes from outside: the random reserve bytes, if they could be drawn,
and the outcome of the allocation at each tree level. -/
structure Env where
  random : Option {bs : List UInt8 // bs.length = ctx.reserveSz}
  mem : ℕ → Bool

structure PageResult where
  rc : Rc
  out : List UInt8
  tree : MtObj

/-- The page number as it enters the HMAC. -/
def pgnoRaw (pgno : ℕ) : List UInt8 :=
  if ctx.lePgno then le32 pgno else if ctx.bePgno then be32 pgno else le32 pgno

/-- `sqlcipher_page_hmac`. -/
def pageHmac (c : CipherCtx) (pgno : ℕ) (inp : List UInt8) : Option (List UInt8) :=
  ctx.provider.hmac c.hmacKey inp (pgnoRaw ctx pgno)

/-- The exit at label `error`: the output page is wiped. -/
def pageError (pageSz : ℕ) (tree : MtObj) : Except Crash PageResult :=
  .ok ⟨.error, List.replicate pageSz 0, tree⟩

variable (H : MtHash → MtHash → MtHash)

def pageEncrypt (tree : MtObj) (c : CipherCtx) (pgno pageSz : ℕ) (env : Env ctx)
    (inp out : List UInt8) : Except Crash PageResult :=
  let size := pageSz - ctx.reserveSz
  let ivSz := ctx.provider.ivSz
  let hmacSz := ctx.provider.hmacSz
  match env.random with
  | none => pageError pageSz tree
  | some r =>
    let out := overwrite out size r.val
    match ctx.provider.cipher .encrypt c.key (slice size ivSz out) (inp.take size) with
    | none => pageError pageSz tree
    | some body =>
      let out := overwrite out 0 body
      if ctx.useHmac then
        match pageHmac ctx c pgno (out.take (size+ivSz)) with
        | none => pageError pageSz tree
        | some mac =>
          let out := overwrite out (size+ivSz) mac
          let out := overwrite out (size+ivSz+hmacSz) (le32 tree.numBlocks)
          match mtAdd H env.mem tree.mt (slice (size+ivSz) (hmacSz/2) out) with
          | .error crash => .error crash
          | .ok (.success, mt) => .ok ⟨.ok, out, ⟨mt, (tree.numBlocks+1) % 2^32⟩⟩
          | .ok (_, mt) => pageError pageSz ⟨mt, tree.numBlocks⟩
      else .ok ⟨.ok, out, tree⟩

/-- The last step of decryption, on the buffer that already holds the copied vector. -/
def pageDecipher (tree : MtObj) (c : CipherCtx) (pageSz : ℕ) (inp out : List UInt8) :
    Except Crash PageResult :=
  let size := pageSz - ctx.reserveSz
  match ctx.provider.cipher .decrypt c.key (slice size ctx.provider.ivSz out) (inp.take size) with
  | none => pageError pageSz tree
  | some body => .ok ⟨.ok, overwrite out 0 body, tree⟩

def pageDecrypt (tree : MtObj) (c : CipherCtx) (pgno pageSz : ℕ) (inp out : List UInt8) :
    Except Crash PageResult :=
  let size := pageSz - ctx.reserveSz
  let ivSz := ctx.provider.ivSz
  let hmacSz := ctx.provider.hmacSz
  let out := overwrite out size (slice size ivSz inp)
  if ctx.useHmac && !ctx.skipReadHmac then
    match pageHmac ctx c pgno (inp.take (size+ivSz)) with
    | none => pageError pageSz tree
    | some mac =>
      let out := overwrite out (size+ivSz) mac
      if slice (size+ivSz) hmacSz inp ≠ mac then
        if inp.take pageSz = List.replicate pageSz 0 then .ok ⟨.ok, List.replicate pageSz 0, tree⟩
        else pageError pageSz tree
      else
        match mtVerify H tree.mt (slice (size+ivSz) (hmacSz/2) inp)
          (readLe32 (slice (size+ivSz+hmacSz) 4 inp)) with
        | .error crash => .error crash
        | .ok .success => pageDecipher ctx tree c pageSz inp out
        | .ok _ => pageError pageSz tree
  else pageDecipher ctx tree c pageSz inp out

def sqlcipherPageCipher (tree : MtObj) (forCtx : Bool) (pgno : ℕ) (mode : CipherMode)
    (pageSz : ℕ) (env : Env ctx) (inp out : List UInt8) : Except Crash PageResult :=
  if ctx.keySz = 0 then pageError pageSz tree
  else match mode with
  | .encrypt => pageEncrypt ctx H tree (ctx.cipherCtx forCtx) pgno pageSz env inp out
  | .decrypt => pageDecrypt ctx H tree (ctx.cipherCtx forCtx) pgno pageSz inp out

end IronSafe.Page
