import IronSafe.KeyMaterial

/-! The keys of a connection in `sec_sqlite3.c`: a codec context has one cipher context to read with
and one to write with, each with a passphrase, the keys derived from it and a flag that asks for a
derivation at the next use. Allocations succeed; the salt read from the file and the random salt are
inputs of each call. -/
namespace IronSafe.Keys
open Bytes Page

inductive KdfAlgorithm
  | sha1 | sha256 | sha512
  deriving DecidableEq

/-- The key derivation of a provider for keys of `n` bytes: the return code and what the call leaves
in the buffer for the key. -/
structure Kdf (n : ℕ) where
  kdf : KdfAlgorithm → (pass : List UInt8) → Salt → (iter : ℤ) → Rc × KeyBytes n
  hmacSaltMask : UInt8

/-- A context without a passphrase has `pass` empty. -/
structure CipherKeys (n : ℕ) where
  deriveKey : Bool
  pass : List UInt8
  key : KeyBytes n
  hmacKey : KeyBytes n
  keyspec : Option (List UInt8)
  deriving DecidableEq

structure KdfSettings where
  storePass : ℤ
  kdfIter : ℤ
  fastKdfIter : ℤ
  kdfAlgorithm : KdfAlgorithm
  useHmac : Bool
  deriving DecidableEq

/-- What the two cipher contexts of a codec context share. -/
structure CodecShared extends KdfSettings where
  needKdfSalt : Bool
  kdfSalt : Salt
  hmacKdfSalt : Salt
  deriving DecidableEq

structure CodecKeys (n : ℕ) extends CodecShared where
  readCtx : CipherKeys n
  writeCtx : CipherKeys n
  deriving DecidableEq

/-- What a call finds when it needs a salt: the outcome of the read at the start of the file with
the bytes it leaves, if a file is open, and that of the random generator. -/
structure SaltSource where
  read : Option (Rc × Salt)
  random : Rc × Salt

variable {n : ℕ}

def cipherCtxInit : CipherKeys n := ⟨false, [], fill n [], fill n [], none⟩

/-- The passphrase of one context, or of the write context and then of both. -/
inductive ForCtx
  | read | write | readwrite
  deriving DecidableEq

def cipherCtxSetPass (x : CipherKeys n) (zKey : List UInt8) : CipherKeys n :=
  { x with pass := zKey }

def codecCtxSetPass (c : CodecKeys n) (zKey : List UInt8) : ForCtx → CodecKeys n
  | .read => { c with readCtx := { cipherCtxSetPass c.readCtx zKey with deriveKey := true } }
  | .write => { c with writeCtx := { cipherCtxSetPass c.writeCtx zKey with deriveKey := true } }
  | .readwrite =>
    let x := { cipherCtxSetPass c.writeCtx zKey with deriveKey := true }
    { c with readCtx := x, writeCtx := x }

def codecKeyCopy (c : CodecKeys n) (source : Bool) : CodecKeys n :=
  if source then { c with readCtx := c.writeCtx } else { c with writeCtx := c.readCtx }

def setDeriveKey (c : CodecKeys n) : CodecKeys n :=
  { c with
    readCtx := { c.readCtx with deriveKey := true }
    writeCtx := { c.writeCtx with deriveKey := true } }

def codecSetStorePass (c : CodecKeys n) (value : ℤ) : CodecKeys n := { c with storePass := value }

def codecCtxSetKdfIter (c : CodecKeys n) (kdfIter : ℤ) : CodecKeys n :=
  setDeriveKey { c with kdfIter := kdfIter }

def codecCtxSetFastKdfIter (c : CodecKeys n) (fastKdfIter : ℤ) : CodecKeys n :=
  setDeriveKey { c with fastKdfIter := fastKdfIter }

def codecCtxSetUseHmac (c : CodecKeys n) (use : Bool) : CodecKeys n := { c with useHmac := use }

def codecCtxSetKdfAlgorithm (c : CodecKeys n) (algorithm : KdfAlgorithm) : CodecKeys n :=
  { c with kdfAlgorithm := algorithm }

def codecCtxInitKdfSalt (src : SaltSource) (c : CodecShared) : Rc × CodecShared :=
  if c.needKdfSalt = false then (.ok,c)
  else match src.read with
  | some (.ok,salt) => (.ok, { c with kdfSalt := salt, needKdfSalt := false })
  | _ => match src.random with
    | (.ok,salt) => (.ok, { c with kdfSalt := salt, needKdfSalt := false })
    | (.error,salt) => (.error, { c with kdfSalt := salt })

def codecCtxSetKdfSalt (c : CodecKeys n) (salt : List UInt8) : Rc × CodecKeys n :=
  if fileHeaderSz ≤ salt.length then
    (.ok, { c with kdfSalt := fill fileHeaderSz salt, needKdfSalt := false })
  else (.error,c)

/-- The settings a new context starts from; they are global variables of the library. -/
structure Defaults where
  kdfIter : ℤ
  kdfAlgorithm : KdfAlgorithm
  useHmac : Bool

def fastPbkdf2Iter : ℤ := 2

def codecCtxInit (d : Defaults) (zKey : List UInt8) : CodecKeys n :=
  let c : CodecKeys n :=
    ⟨⟨⟨0, d.kdfIter, fastPbkdf2Iter, d.kdfAlgorithm, d.useHmac⟩, true, fill fileHeaderSz [],
      fill fileHeaderSz []⟩, cipherCtxInit, cipherCtxInit⟩
  codecKeyCopy (codecCtxSetPass c zKey .read) false

/-! ### Derivation -/

variable (kdf : Kdf n)

/-- The key of a passphrase and the salt that goes with it. -/
def encryptionKey (c : CodecShared) (pass : List UInt8) : Rc × KeyBytes n × Salt :=
  if isRaw n pass then (.ok, fill n (cipherHex2bin (slice 2 (2*n) pass)), c.kdfSalt)
  else if isRaw (n+fileHeaderSz) pass then
    (.ok, fill n (cipherHex2bin (slice 2 (2*n) pass)),
      fill fileHeaderSz (cipherHex2bin (slice (2+2*n) (2*fileHeaderSz) pass)))
  else
    let r := kdf.kdf c.kdfAlgorithm pass c.kdfSalt c.kdfIter
    (r.1, r.2, c.kdfSalt)

def maskedSalt (salt : Salt) : Salt :=
  ⟨salt.val.map (· ^^^ kdf.hmacSaltMask), by rw [List.length_map, salt.2]⟩

/-- The key for HMACs, derived from the encryption key; then the request for a derivation is
done. -/
def deriveHmacKey (c : CodecShared) (x : CipherKeys n) : Rc × CodecShared × CipherKeys n :=
  if c.useHmac then
    let c := { c with hmacKdfSalt := maskedSalt kdf c.kdfSalt }
    match kdf.kdf c.kdfAlgorithm x.key.val c.hmacKdfSalt c.fastKdfIter with
    | (.error,hmacKey) => (.error, c, { x with hmacKey := hmacKey })
    | (.ok,hmacKey) => (.ok, c, { x with hmacKey := hmacKey, deriveKey := false })
  else (.ok, c, { x with deriveKey := false })

/-- The derivation once there is a salt. -/
def deriveKeys (c : CodecShared) (x : CipherKeys n) : Rc × CodecShared × CipherKeys n :=
  match encryptionKey kdf c x.pass with
  | (.error,key,_) => (.error, c, { x with key := key })
  | (.ok,key,salt) =>
    deriveHmacKey kdf { c with kdfSalt := salt }
      { x with key := key, keyspec := some (keyspecOf key salt) }

def cipherCtxKeyDerive (src : SaltSource) (c : CodecShared) (x : CipherKeys n) :
    Rc × CodecShared × CipherKeys n :=
  if x.pass = [] then (.error,c,x)
  else match codecCtxInitKdfSalt src c with
  | (.error,c) => (.error,c,x)
  | (.ok,c) => deriveKeys kdf c x

def deriveRead (src : SaltSource) (c : CodecKeys n) : Rc × CodecKeys n :=
  if c.readCtx.deriveKey then
    let r := cipherCtxKeyDerive kdf src c.toCodecShared c.readCtx
    (r.1, ⟨r.2.1, r.2.2, c.writeCtx⟩)
  else (.ok,c)

/-- `sqlcipher_cipher_ctx_cmp` compares the passphrases only. -/
def deriveWrite (src : SaltSource) (c : CodecKeys n) : Rc × CodecKeys n :=
  if c.writeCtx.deriveKey then
    if c.writeCtx.pass = c.readCtx.pass then (.ok, codecKeyCopy c false)
    else
      let r := cipherCtxKeyDerive kdf src c.toCodecShared c.writeCtx
      (r.1, ⟨r.2.1, c.readCtx, r.2.2⟩)
  else (.ok,c)

def wipePass (c : CodecKeys n) : CodecKeys n :=
  if c.storePass ≠ 1 then
    { c with readCtx := cipherCtxSetPass c.readCtx [], writeCtx := cipherCtxSetPass c.writeCtx [] }
  else c

def codecKeyDerive (src : SaltSource) (c : CodecKeys n) : Rc × CodecKeys n :=
  match deriveRead kdf src c with
  | (.error,c) => (.error,c)
  | (.ok,c) => match deriveWrite kdf src c with
    | (.error,c) => (.error,c)
    | (.ok,c) => (.ok, wipePass c)

/-- The key given to a database that is attached without one. -/
def sqlite3CodecGetKey (c : CodecKeys n) : List UInt8 :=
  match c.readCtx.keyspec with
  | some keyspec => if c.storePass = 1 then c.readCtx.pass else keyspec
  | none => c.readCtx.pass

/-- A step of the rewriting, the start of the transaction or one page: whether the codec is called
in it, as it is not for a page that is cached and need not be journaled, and whether the rest of it
succeeded. -/
structure RekeyPage where
  codec : Bool
  io : Bool

def useCodec (src : SaltSource) (codec : Bool) (c : CodecKeys n) : Rc × CodecKeys n :=
  if codec then codecKeyDerive kdf src c else (.ok,c)

/-- The loop of `sqlite3_rekey_v2` over the pages. -/
def rekeyPages (src : SaltSource) : List RekeyPage → CodecKeys n → Bool × CodecKeys n
  | [], c => (true,c)
  | page :: pages, c => match useCodec kdf src page.codec c with
    | (.error,c) => (false,c)
    | (.ok,c) => if page.io then rekeyPages src pages c else (false,c)

/-- The return code of the commit, which may call the codec too, is not looked at. Calls of the
codec in a rollback are uses like any later one. -/
def sqlite3RekeyV2 (src : SaltSource) (pKey : List UInt8) (pages : List RekeyPage) (commit : Bool)
    (c : CodecKeys n) : Rc × CodecKeys n :=
  if pKey = [] then (.error,c)
  else match rekeyPages kdf src pages (codecCtxSetPass c pKey .write) with
  | (true,c) => (.ok, codecKeyCopy (useCodec kdf src commit c).2 true)
  | (false,c) => (.ok,c)

end IronSafe.Keys
