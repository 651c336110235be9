import IronSafe.CodecRekey
import IronSafe.PageCodec
import IronSafe.PageRestart

/-! The codec together with its keys. A process opens a database with a passphrase and writes pages;
another process is given the file, the image of the tree and the passphrase, and reads them. -/
namespace IronSafe.Keys
open Bytes Page Merkle

variable {n : ℕ} {kdf : Kdf n}

/-! ### The salt in the header of page 1 -/

lemma deriveHmacKey_salt (kdf : Kdf n) (c : CodecShared) (x : CipherKeys n) :
    (deriveHmacKey kdf c x).2.1.kdfSalt = c.kdfSalt ∧
      (deriveHmacKey kdf c x).2.1.needKdfSalt = c.needKdfSalt := by
  unfold deriveHmacKey
  split_ifs
  · dsimp only
    split <;> exact ⟨rfl, rfl⟩
  · exact ⟨rfl, rfl⟩

/-- With the salt it ended with, a key comes out the same. -/
lemma encryptionKey_again (kdf : Kdf n) (c : CodecShared) (pass : List UInt8) :
    encryptionKey kdf { c with kdfSalt := (encryptionKey kdf c pass).2.2 } pass =
      encryptionKey kdf c pass := by
  by_cases h₁ : isRaw n pass = true
  · simp only [encryptionKey, if_pos h₁]
  · by_cases h₂ : isRaw (n+fileHeaderSz) pass = true
    · simp only [encryptionKey, if_neg h₁, if_pos h₂]
    · simp only [encryptionKey, if_neg h₁, if_neg h₂]

lemma deriveKeys_again {c c' : CodecShared} {x x' : CipherKeys n}
    (h : deriveKeys kdf c x = (.ok,c',x')) :
    c'.needKdfSalt = c.needKdfSalt ∧
      deriveKeys kdf { c with kdfSalt := c'.kdfSalt } x = (.ok,c',x') := by
  have hagain := encryptionKey_again kdf c x.pass
  unfold deriveKeys at h ⊢
  rcases he : encryptionKey kdf c x.pass with ⟨_ | _, key, salt⟩ <;> rw [he] at h hagain
  · obtain ⟨hsalt, hneed⟩ := deriveHmacKey_salt kdf { c with kdfSalt := salt }
      { x with key := key, keyspec := some (keyspecOf key salt) }
    simp only at h
    rw [h] at hsalt hneed
    cases hsalt
    simp only at hagain
    exact ⟨hneed, by simp only [hagain]; exact h⟩
  · cases h

lemma initKdfSalt_ok {src : SaltSource} {c c' : CodecShared} (hneed : ¬ c.needKdfSalt = false)
    (h : codecCtxInitKdfSalt src c = (.ok,c')) :
    ∃ salt, c' = { c with kdfSalt := salt, needKdfSalt := false } := by
  rw [codecCtxInitKdfSalt, if_neg hneed] at h
  split at h
  · exact ⟨_, (Prod.mk.inj h).2.symm⟩
  · split at h
    · exact ⟨_, (Prod.mk.inj h).2.symm⟩
    · cases h

/-- A derivation can be repeated by any process that finds the salt the first one ended with. -/
lemma cipherCtxKeyDerive_again {src : SaltSource} {c c' : CodecShared} {x x' : CipherKeys n}
    (h : cipherCtxKeyDerive kdf src c x = (.ok,c',x')) :
    c'.needKdfSalt = false ∧ ∀ src', c.needKdfSalt = false ∨ src'.read = some (.ok, c'.kdfSalt) →
      cipherCtxKeyDerive kdf src' c x = (.ok,c',x') := by
  by_cases hp : x.pass = []
  · rw [cipherCtxKeyDerive_no_pass src c hp] at h
    cases h
  simp only [cipherCtxKeyDerive, if_neg hp] at h ⊢
  by_cases hneed : c.needKdfSalt = false
  · have hinit : ∀ src, codecCtxInitKdfSalt src c = (.ok,c) := fun src => if_pos hneed
    simp only [hinit] at h ⊢
    exact ⟨(deriveKeys_again h).1.trans hneed, fun _ _ => h⟩
  · rcases hi : codecCtxInitKdfSalt src c with ⟨_ | _, c₁⟩ <;> rw [hi] at h
    · obtain ⟨salt, rfl⟩ := initKdfSalt_ok hneed hi
      obtain ⟨hno, hagain⟩ := deriveKeys_again h
      refine ⟨hno, fun src' hsrc => ?_⟩
      rw [codecCtxInitKdfSalt, if_neg hneed, hsrc.resolve_left hneed]
      exact hagain
    · cases h

lemma InSync.keyDerive_again {c c' : CodecKeys n} (hs : InSync c) (hf : c.readCtx.deriveKey = true)
    {src : SaltSource} (h : codecKeyDerive kdf src c = (.ok,c')) :
    c'.needKdfSalt = false ∧ ∀ src', c.needKdfSalt = false ∨ src'.read = some (.ok, c'.kdfSalt) →
      codecKeyDerive kdf src' c = (.ok,c') := by
  simp only [hs.keyDerive_eq _ hf] at h ⊢
  rcases hd : cipherCtxKeyDerive kdf src c.toCodecShared c.readCtx with ⟨_ | _, t, x⟩ <;>
    rw [hd] at h
  · cases h
    rw [wipePass_shared]
    obtain ⟨hneed, hagain⟩ := cipherCtxKeyDerive_again hd
    exact ⟨hneed, fun src' hsrc => by rw [hagain src' hsrc]⟩
  · cases h

lemma wipePass_idem (c : CodecKeys n) : wipePass (wipePass c) = wipePass c := by
  by_cases h : c.storePass ≠ 1
  · exact wipePass_of_no_pass (wipePass_pass h).1 (wipePass_pass h).2
  · simp only [wipePass, if_neg h]

/-- Once keys are derived, a use of the codec changes nothing. -/
lemma codecKeyDerive_idem {src src' : SaltSource} {c c' : CodecKeys n}
    (h : codecKeyDerive kdf src c = (.ok,c')) : codecKeyDerive kdf src' c' = (.ok,c') := by
  obtain ⟨-, hr, hw, -⟩ := codecKeyDerive_done h
  obtain ⟨c₁, c₂, -, -, rfl⟩ := codecKeyDerive_ok h
  rw [codecKeyDerive_of_done src' hr hw, wipePass_idem]

/-- Page 1 goes out with the salt of the context at its front. -/
lemma codec_image_salt {ctx : CodecCtx} {H : MtHash → MtHash → MtHash} {tree tree' : MtObj}
    {buffer data image : List UInt8} {forCtx : Bool} {env : CodecEnv ctx}
    (hplain : ctx.plaintextHeaderSz = 0)
    (h : sqlite3Codec ctx H tree buffer data 1 (if forCtx then .write else .journal) env =
      .ok ⟨.ok, some image, tree'⟩) : image.take fileHeaderSz = ctx.kdfSalt := by
  have henc : codecEncrypt ctx H tree buffer data 1 forCtx env = .ok ⟨.ok, some image, tree'⟩ := by
    unfold sqlite3Codec at h
    by_cases hk : (!env.keyDerive) = true
    · rw [if_pos hk] at h
      cases h
    · rw [if_neg hk] at h
      cases forCtx <;> exact h
  have hoff : ctx.offset 1 = fileHeaderSz := by simp [CodecCtx.offset, headerOffset, hplain]
  have hsalt : ctx.kdfSalt.take fileHeaderSz = ctx.kdfSalt := by
    rw [← ctx.kdfSalt_length, List.take_length]
  unfold codecEncrypt at henc
  split_ifs at henc
  · cases henc
  · exact absurd hplain ‹_›
  · obtain ⟨out, -, hpage⟩ := codecReturn_ok henc
    cases hpage
    simp only [copyHeader, if_true, hoff, hsalt, overwrite, List.take_zero, List.nil_append]
    rw [List.take_left' ctx.kdfSalt_length, List.take_left' ctx.kdfSalt_length]

lemma image_salt {ctx : CodecCtx} {H : MtHash → MtHash → MtHash} {tree : MtObj} {log : List Emitted}
    (run : CodecRun ctx H tree log) (hplain : ctx.plaintextHeaderSz = 0) {w : Emitted}
    (hw : w ∈ log) (hone : w.pgno = 1) : w.image.take fileHeaderSz = ctx.kdfSalt := by
  induction run with
  | create => cases hw
  | reopen _ ih => exact ih hw
  | encrypted _ _ _ h ih =>
    rcases List.mem_append.mp hw with hw | hw
    · exact ih hw
    · cases List.mem_singleton.mp hw
      cases hone
      exact codec_image_salt hplain h

/-! ### The codec with its keys -/

lemma round_up_le {b r m : ℕ} (hm : b ∣ m) (hr : r ≤ m) :
    (if r % b = 0 then r else (r/b+1)*b) ≤ m := by
  split_ifs with h
  · exact hr
  · obtain ⟨k, rfl⟩ := hm
    have hne : r ≠ b*k := by
      rintro rfl
      exact h (Nat.mul_mod_right b k)
    have hdiv : r/b < k := Nat.div_lt_of_lt_mul (lt_of_le_of_ne hr hne)
    calc (r/b+1)*b ≤ k*b := Nat.mul_le_mul_right b hdiv
      _ = b*k := Nat.mul_comm k b

lemma dvd_round_up (b r : ℕ) : b ∣ if r % b = 0 then r else (r/b+1)*b := by
  split_ifs with h
  · exact Nat.dvd_of_mod_eq_zero h
  · exact Nat.dvd_mul_left b _

/-- The reserve area is the largest with HMACs. -/
lemma reserveSetup_le (provider : Provider) (useHmac : Bool) :
    reserveSetup provider useHmac ≤ reserveSetup provider true := by
  have hle : provider.ivSz + (if useHmac then provider.hmacSz else 0) ≤
      provider.ivSz + provider.hmacSz := by
    split_ifs <;> omega
  refine Nat.add_le_add_right (round_up_le (dvd_round_up _ _) (hle.trans ?_)) 16
  have hself := le_reserveSetup provider true
  simp only [reserveSetup, if_true] at hself
  exact Nat.le_of_add_le_add_right hself

/-- The part of a codec context that no key and no setting of the key derivation changes. Every page
has room for a reserve area with HMACs. -/
structure PageSetup where
  provider : Provider
  pageSz : ℕ
  plaintextHeaderSz : ℕ
  lePgno : Bool
  bePgno : Bool
  skipReadHmac : Bool
  fits : headerOffset plaintextHeaderSz 1 + reserveSetup provider true ≤ pageSz

lemma PageSetup.fits_any (base : PageSetup) (useHmac : Bool) :
    headerOffset base.plaintextHeaderSz 1 + reserveSetup base.provider useHmac ≤ base.pageSz :=
  (Nat.add_le_add_left (reserveSetup_le base.provider useHmac) _).trans base.fits

/-- The context of the page codec, with the keys, the salt and the use of HMACs of the
connection. -/
def withKeys (base : PageSetup) (c : CodecKeys n) : CodecCtx where
  provider := base.provider
  pageSz := base.pageSz
  keySz := n
  plaintextHeaderSz := base.plaintextHeaderSz
  useHmac := c.useHmac
  lePgno := base.lePgno
  bePgno := base.bePgno
  skipReadHmac := base.skipReadHmac
  readCtx := ⟨c.readCtx.key.val, c.readCtx.hmacKey.val⟩
  writeCtx := ⟨c.writeCtx.key.val, c.writeCtx.hmacKey.val⟩
  kdfSalt := c.kdfSalt.val
  kdfSalt_length := c.kdfSalt.2
  fits := base.fits_any c.useHmac

/-- What a call of the codec takes from outside; how many random bytes it draws depends on the size
of the reserve area. -/
structure CallEnv where
  salt : SaltSource
  random : (size : ℕ) → Option {bs : List UInt8 // bs.length = size}
  mem : ℕ → Bool

/-- The part of it that the page codec takes. -/
def CallEnv.forPages (env : CallEnv) (ctx : CodecCtx) : Env ctx :=
  ⟨env.random ctx.reserveSz, env.mem⟩

/-- `sqlcipher_codec_ctx_get_kdf_salt`, called when page 1 is encrypted. -/
def headerSalt (src : SaltSource) (pgno : ℕ) (mode : CodecMode) (c : CodecKeys n) :
    Rc × CodecKeys n :=
  if pgno = 1 ∧ (mode = .write ∨ mode = .journal) then
    ((codecCtxInitKdfSalt src c.toCodecShared).1,
      { c with toCodecShared := (codecCtxInitKdfSalt src c.toCodecShared).2 })
  else (.ok,c)

/-- `sqlite3Codec` with the derivation of keys it begins with. -/
def keyedCodec (kdf : Kdf n) (base : PageSetup) (H : MtHash → MtHash → MtHash) (c : CodecKeys n)
    (tree : MtObj) (buffer data : List UInt8) (pgno : ℕ) (mode : CodecMode) (env : CallEnv) :
    Except Crash CodecResult × CodecKeys n :=
  match codecKeyDerive kdf env.salt c with
  | (.error,c) =>
    (sqlite3Codec (withKeys base c) H tree buffer data pgno mode ⟨env.forPages _, false, false⟩, c)
  | (.ok,c) =>
    let r := headerSalt env.salt pgno mode c
    (sqlite3Codec (withKeys base r.2) H tree buffer data pgno mode
      ⟨env.forPages _, true, r.1 = .ok⟩, r.2)

/-- Pages written, or put into the journal, by one process from the creation of the database on. -/
inductive KeyedRun (kdf : Kdf n) (base : PageSetup) (H : MtHash → MtHash → MtHash)
    (c₀ : CodecKeys n) : CodecKeys n → MtObj → List Emitted → Prop
  | start : KeyedRun kdf base H c₀ c₀ ⟨mtCreate,0⟩ []
  | encrypted {c c' : CodecKeys n} {tree tree' : MtObj} {log : List Emitted}
      {buffer data image : List UInt8}
      {pgno : ℕ} {forCtx : Bool} {env : CallEnv} (run : KeyedRun kdf base H c₀ c tree log)
      (hd : data.length = base.pageSz) (hb : buffer.length = base.pageSz)
      (h : keyedCodec kdf base H c tree buffer data pgno (if forCtx then .write else .journal) env =
        (.ok ⟨.ok, some image, tree'⟩, c')) :
      KeyedRun kdf base H c₀ c' tree' (log ++ [⟨forCtx,pgno,data,image⟩])

variable {base : PageSetup} {H : MtHash → MtHash → MtHash} {c₀ : CodecKeys n}

lemma headerSalt_of_not_needed {c : CodecKeys n} (h : c.needKdfSalt = false) (src : SaltSource)
    (pgno : ℕ) (mode : CodecMode) : headerSalt src pgno mode c = (.ok,c) := by
  unfold headerSalt
  split_ifs
  · rw [codecCtxInitKdfSalt, if_pos h]
  · rfl

/-- A call on a context with a salt, once the keys are derived. -/
lemma keyedCodec_eq {c c₁ : CodecKeys n} {env : CallEnv}
    (h : codecKeyDerive kdf env.salt c = (.ok,c₁)) (hneed : c₁.needKdfSalt = false) (tree : MtObj)
    (buffer data : List UInt8) (pgno : ℕ) (mode : CodecMode) :
    keyedCodec kdf base H c tree buffer data pgno mode env =
      (sqlite3Codec (withKeys base c₁) H tree buffer data pgno mode ⟨env.forPages _, true, true⟩,
        c₁) := by
  simp only [keyedCodec, h]
  rw [headerSalt_of_not_needed hneed]
  rfl

/-- A call that encrypts a page has derived the keys. -/
lemma keyedCodec_ok {c c' : CodecKeys n} {tree tree' : MtObj} {buffer data image : List UInt8}
    {pgno : ℕ} {mode : CodecMode} {env : CallEnv}
    (h : keyedCodec kdf base H c tree buffer data pgno mode env =
      (.ok ⟨.ok, some image, tree'⟩, c')) :
    ∃ c₁, codecKeyDerive kdf env.salt c = (.ok,c₁) ∧ (c₁.needKdfSalt = false → c' = c₁ ∧
      sqlite3Codec (withKeys base c₁) H tree buffer data pgno mode ⟨env.forPages _, true, true⟩ =
        .ok ⟨.ok, some image, tree'⟩) := by
  rcases hd : codecKeyDerive kdf env.salt c with ⟨_ | _, c₁⟩
  · refine ⟨c₁, rfl, fun hneed => ?_⟩
    rw [keyedCodec_eq hd hneed] at h
    obtain ⟨hcodec, rfl⟩ := Prod.mk.inj h
    exact ⟨rfl, hcodec⟩
  · simp only [keyedCodec, hd] at h
    cases (Prod.mk.inj h).1

/-- The state of the keys in a run: before the first page, or after the one derivation. -/
lemma KeyedRun.codecRun (hs : InSync c₀) (hf : c₀.readCtx.deriveKey = true) {c : CodecKeys n}
    {tree : MtObj} {log : List Emitted} (run : KeyedRun kdf base H c₀ c tree log) :
    (c = c₀ ∧ tree = ⟨mtCreate,0⟩ ∧ log = []) ∨
      ∃ src, codecKeyDerive kdf src c₀ = (.ok,c) ∧ CodecRun (withKeys base c) H tree log := by
  induction run with
  | start => exact .inl ⟨rfl, rfl, rfl⟩
  | encrypted _ hd hb h ih =>
    obtain ⟨c₁, hderive, hnext⟩ := keyedCodec_ok h
    right
    rcases ih with ⟨rfl, rfl, rfl⟩ | ⟨src, hfirst, hrun⟩
    · obtain ⟨rfl, hcodec⟩ := hnext (hs.keyDerive_again hf hderive).1
      exact ⟨_, hderive, .encrypted .create hd hb hcodec⟩
    · rw [codecKeyDerive_idem hfirst] at hderive
      cases hderive
      obtain ⟨rfl, hcodec⟩ := hnext (hs.keyDerive_again hf hfirst).1
      exact ⟨src, hfirst, hrun.encrypted hd hb hcodec⟩

/-! ### Another process -/

lemma fill_eq {k : ℕ} {bs : List UInt8} {key : KeyBytes k} (h : bs.take k = key.val) :
    fill k bs = key := by
  have hl : k ≤ bs.length := by
    have := congrArg List.length h
    rw [List.length_take, key.2] at this
    omega
  apply Subtype.ext
  show (bs ++ List.replicate k 0).take k = key.val
  rw [List.take_append_of_le_length hl, h]

/-- A page of a run goes through the codec of a process that has loaded the tree. -/
lemma codec_readable_restart {ctx : CodecCtx} {tree : MtObj} {log : List Emitted}
    (run : CodecRun ctx H tree log) (hm : ctx.useHmac = true) (hinv : ctx.provider.Inverts)
    (hkeys : ctx.readCtx = ctx.writeCtx) {w : Emitted} (hw : w ∈ log) {buffer : List UInt8}
    (hb : buffer.length = ctx.pageSz) (env : CodecEnv ctx) (hkey : env.keyDerive = true) :
    ∃ page, sqlite3Codec ctx H (restart tree) buffer w.image w.pgno .read env =
        .ok ⟨.ok, some page, restart tree⟩ ∧
      slice (ctx.offset w.pgno) (ctx.usable w.pgno) page =
        slice (ctx.offset w.pgno) (ctx.usable w.pgno) w.data := by
  have hle := offset_add_reserve_le ctx w.pgno
  simp only [sqlite3Codec, hkey, Bool.not_true, Bool.false_eq_true, if_false]
  generalize hbuf : copyHeader ctx w.pgno buffer _ = buf
  have hl : buf.length = ctx.pageSz := by rw [← hbuf, copyHeader_length _ hb]
  have htake : (buf.take (ctx.offset w.pgno)).length = ctx.offset w.pgno := by
    rw [List.length_take]
    omega
  have hdrop : (buf.drop (ctx.offset w.pgno)).length = ctx.cipherSz w.pgno := by
    rw [List.length_drop, hl]
    rfl
  obtain ⟨r, hr, -, hplain⟩ :=
    run.encRun.ok.readable_restart (run.encRun.appended hm).reach.sized hm hinv hkeys
    (List.mem_map_of_mem hw) false env.toEnv hdrop
  refine ⟨buf.take (ctx.offset w.pgno) ++ r, congrArg (codecReturn ctx w.pgno buf) hr, ?_⟩
  rw [slice, List.drop_left' htake]
  exact hplain

lemma settings_inSync {c : CodecKeys n} (hs : InSync c) (hf : c.readCtx.deriveKey = true)
    (settings : List Setting) :
    InSync (settings.foldl Setting.run c) ∧
      (settings.foldl Setting.run c).readCtx.deriveKey = true := by
  induction settings generalizing c with
  | nil => exact ⟨hs, hf⟩
  | cons setting settings ih =>
    refine ih (hs.set setting) ?_
    cases setting with
    | storePass | useHmac | kdfAlgorithm => exact hf
    | kdfIter | fastKdfIter => rfl
    | kdfSalt salt =>
      simp only [Setting.run, codecCtxSetKdfSalt]
      split_ifs <;> exact hf

/-- A process opens a new database with a passphrase and some settings and writes pages. Another one
is given the same passphrase and settings, the image of the tree, and the salt: by a setting, or
with page 1 as the first one has written it. It derives the same keys and reads every page. -/
theorem pages_read_by_another_process {d : Defaults} {zKey : List UInt8} (settings : List Setting)
    (hc₀ : c₀ = settings.foldl Setting.run (codecCtxInit d zKey)) {c : CodecKeys n} {tree : MtObj}
    {log : List Emitted} (run : KeyedRun kdf base H c₀ c tree log) (hm : c₀.useHmac = true)
    (hinv : base.provider.Inverts) (env : CallEnv)
    (hsalt : c₀.needKdfSalt = false ∨ base.plaintextHeaderSz = 0 ∧
      ∃ p ∈ log, p.pgno = 1 ∧ env.salt.read = some (.ok, fill fileHeaderSz p.image))
    {w : Emitted} (hw : w ∈ log) {buffer : List UInt8} (hb : buffer.length = base.pageSz) :
    ∃ page, keyedCodec kdf base H c₀ (restart tree) buffer w.image w.pgno .read env =
        (.ok ⟨.ok, some page, restart tree⟩, c) ∧
      slice ((withKeys base c).offset w.pgno) ((withKeys base c).usable w.pgno) page =
        slice ((withKeys base c).offset w.pgno) ((withKeys base c).usable w.pgno) w.data := by
  obtain ⟨hs, hf⟩ := settings_inSync (c := codecCtxInit d zKey) (.of_eq rfl) rfl settings
  rw [← hc₀] at hs hf
  rcases run.codecRun hs hf with ⟨-, -, rfl⟩ | ⟨src, hderive, hrun⟩
  · cases hw
  have hkeys : (withKeys base c).readCtx = (withKeys base c).writeCtx := by
    simp only [withKeys, hs.keyDerive_keys hderive]
  have hagain : codecKeyDerive kdf env.salt c₀ = (.ok,c) := by
    refine (hs.keyDerive_again hf hderive).2 env.salt (hsalt.imp_right ?_)
    rintro ⟨hplain, p, hp, hone, hread⟩
    rw [hread, fill_eq (image_salt hrun hplain hp hone)]
  have hflag : (withKeys base c).useHmac = true := by
    rw [← hm, ← (codecKeyDerive_done hderive).1]
    rfl
  obtain ⟨page, hpage, hdata⟩ := codec_readable_restart hrun hflag hinv hkeys hw hb
    ⟨env.forPages _, true, true⟩ rfl
  refine ⟨page, ?_, hdata⟩
  rw [keyedCodec_eq hagain (hs.keyDerive_again hf hderive).1, hpage]

def keyedHmac (k x p : List UInt8) : Option (List UInt8) :=
  some ((k ++ p ++ x ++ List.replicate 64 0).take 64)

lemma keyedHmac_length {k x p h : List UInt8} (hk : keyedHmac k x p = some h) : h.length = 64 := by
  cases hk
  simp
  omega

/-- The provider of the samples before, with HMACs that begin with the key. -/
def keyedProvider : Provider :=
  { sampleProvider with hmac := keyedHmac, hmac_length := keyedHmac_length }

lemma keyedSetup_fits : headerOffset 0 1 + reserveSetup keyedProvider true ≤ 512 := by decide

def keyedSetup : PageSetup := ⟨keyedProvider, 512, 0, true, false, false, keyedSetup_fits⟩

def keyedEnv : CallEnv :=
  ⟨sampleSource, fun size => some ⟨List.replicate size 7, List.length_replicate⟩, fun _ => true⟩

def keyedCodecEnv (c : CodecKeys 1) : CodecEnv (withKeys keyedSetup c) :=
  ⟨keyedEnv.forPages _, true, true⟩

lemma keyedProvider_total : keyedProvider.Total := ⟨fun _ _ _ => ⟨_, rfl⟩, fun _ _ _ _ => ⟨_, rfl⟩⟩

/-- With keys, the first page is encrypted. -/
lemma exists_keyedCall {c c₁ : CodecKeys 1}
    (h : codecKeyDerive sampleKdf keyedEnv.salt c = (.ok,c₁)) (hneed : c₁.needKdfSalt = false)
    (pgno : ℕ) : ∃ image tree,
    keyedCodec sampleKdf keyedSetup xorHash c ⟨mtCreate,0⟩ (sampleData 0) (sampleData 5)
      pgno .write keyedEnv = (.ok ⟨.ok, some image, tree⟩, c₁) := by
  have hkey : (withKeys keyedSetup c₁).keySz ≠ 0 := Nat.one_ne_zero
  have htag : keyedProvider.hmacSz/2 ≤ hashLength := by decide
  obtain ⟨image, tree, hcodec⟩ :=
    codec_succeeds (H := xorHash) runOk_create keyedProvider_total hkey htag (by decide)
      (keyedCodecEnv c₁) (Option.some_ne_none _) (fun _ => rfl) rfl rfl
      (sampleData 0) (sampleData 5) pgno true
  refine ⟨image, tree, ?_⟩
  rw [keyedCodec_eq h hneed]
  exact congrArg (·, c₁) hcodec

/-- Page 1 is read by a process that takes the salt from it. -/
theorem pages_read_by_another_process_one : ∃ image tree page,
    KeyedRun sampleKdf keyedSetup xorHash (codecCtxInit sampleDefaults [9]) (sampleOpen [9]) tree
      [⟨true, 1, sampleData 5, image⟩] ∧
    keyedCodec sampleKdf keyedSetup xorHash (codecCtxInit sampleDefaults [9]) (restart tree)
      (sampleData 0) image 1 .read
      ⟨⟨some (.ok, fill fileHeaderSz image), (.error, fill fileHeaderSz [])⟩, fun _ => none,
        fun _ => true⟩ = (.ok ⟨.ok, some page, restart tree⟩, sampleOpen [9]) ∧
    slice 16 400 page = slice 16 400 (sampleData 5) := by
  obtain ⟨image, tree, hcall⟩ := exists_keyedCall sample_derives rfl 1
  have run : KeyedRun sampleKdf keyedSetup xorHash _ _ tree [⟨true, 1, sampleData 5, image⟩] :=
    KeyedRun.start.encrypted (sampleData_length 5) (sampleData_length 0) hcall
  obtain ⟨page, hread, hdata⟩ := pages_read_by_another_process [] rfl run rfl sampleProvider_inverts
    ⟨⟨some (.ok, fill fileHeaderSz image), (.error, fill fileHeaderSz [])⟩, fun _ => none,
      fun _ => true⟩
    (.inr ⟨rfl, _, List.mem_singleton.mpr rfl, rfl, rfl⟩) (List.mem_singleton.mpr rfl)
    (sampleData_length 0)
  exact ⟨image, tree, page, run, hread, hdata⟩

/-! ### After a change of the passphrase that was rolled back -/

end IronSafe.Keys
