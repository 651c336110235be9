import IronSafe.CodecKeys

/-! What holds of the keys of a connection over any sequence of calls: reading and writing use one
key, a derivation that succeeded is not undone by later settings, and what a change of the
passphrase leaves behind. -/
namespace IronSafe.Keys
open Bytes Page

variable {n : ℕ}

/-- A setting that a `PRAGMA` changes. -/
inductive Setting
  | storePass (value : ℤ)
  | kdfIter (iter : ℤ)
  | fastKdfIter (iter : ℤ)
  | useHmac (use : Bool)
  | kdfAlgorithm (algorithm : KdfAlgorithm)
  | kdfSalt (salt : List UInt8)

def Setting.run (c : CodecKeys n) : Setting → CodecKeys n
  | .storePass value => codecSetStorePass c value
  | .kdfIter iter => codecCtxSetKdfIter c iter
  | .fastKdfIter iter => codecCtxSetFastKdfIter c iter
  | .useHmac use => codecCtxSetUseHmac c use
  | .kdfAlgorithm algorithm => codecCtxSetKdfAlgorithm c algorithm
  | .kdfSalt salt => (codecCtxSetKdfSalt c salt).2

/-- The calls on a context other than a change of the passphrase: a setting, `PRAGMA cipher_salt`,
and any use of the codec, which derives keys first. -/
inductive KeyOp
  | set (setting : Setting)
  | getKdfSalt (src : SaltSource)
  | keyDerive (src : SaltSource)

def KeyOp.run (kdf : Kdf n) (c : CodecKeys n) : KeyOp → CodecKeys n
  | .set setting => setting.run c
  | .getKdfSalt src => { c with toCodecShared := (codecCtxInitKdfSalt src c.toCodecShared).2 }
  | .keyDerive src => (codecKeyDerive kdf src c).2

def runOps (kdf : Kdf n) (c : CodecKeys n) (ops : List KeyOp) : CodecKeys n :=
  ops.foldl (KeyOp.run kdf) c

/-- The settings that ask for a new derivation. -/
def Setting.asks : Setting → Bool
  | .kdfIter _ | .fastKdfIter _ => true
  | .storePass _ | .useHmac _ | .kdfAlgorithm _ | .kdfSalt _ => false

def KeyOp.asks : KeyOp → Bool
  | .set setting => setting.asks
  | .getKdfSalt _ | .keyDerive _ => false

/-! ### One derivation -/

lemma initKdfSalt_settings (src : SaltSource) (c : CodecShared) :
    (codecCtxInitKdfSalt src c).2.toKdfSettings = c.toKdfSettings := by
  unfold codecCtxInitKdfSalt
  split_ifs
  · rfl
  · split
    · rfl
    · split <;> rfl

/-- What a derivation does to a context: it takes back the request if it succeeds, and keeps the
passphrase and the settings. -/
structure DeriveEffect (c : CodecShared) (x : CipherKeys n) (r : Rc × CodecShared × CipherKeys n) :
    Prop where
  settings : r.2.1.toKdfSettings = c.toKdfSettings
  pass : r.2.2.pass = x.pass
  done : r.1 = .ok → r.2.2.deriveKey = false
  pending : r.1 = .error → r.2.2.deriveKey = x.deriveKey

lemma deriveHmacKey_effect (kdf : Kdf n) (c : CodecShared) (x : CipherKeys n) :
    DeriveEffect c x (deriveHmacKey kdf c x) := by
  unfold deriveHmacKey
  split_ifs
  · dsimp only
    split
    · exact ⟨rfl, rfl, nofun, fun _ => rfl⟩
    · exact ⟨rfl, rfl, fun _ => rfl, nofun⟩
  · exact ⟨rfl, rfl, fun _ => rfl, nofun⟩

lemma deriveKeys_effect (kdf : Kdf n) (c : CodecShared) (x : CipherKeys n) :
    DeriveEffect c x (deriveKeys kdf c x) := by
  unfold deriveKeys
  split
  · exact ⟨rfl, rfl, nofun, fun _ => rfl⟩
  · obtain ⟨hs, hp, hd, he⟩ := deriveHmacKey_effect kdf _ _
    exact ⟨hs, hp, hd, he⟩

lemma keyDerive_effect (kdf : Kdf n) (src : SaltSource) (c : CodecShared) (x : CipherKeys n) :
    DeriveEffect c x (cipherCtxKeyDerive kdf src c x) := by
  have hsalt := initKdfSalt_settings src c
  unfold cipherCtxKeyDerive
  split_ifs
  · exact ⟨rfl, rfl, nofun, fun _ => rfl⟩
  · split <;> rename_i c' h <;> rw [h] at hsalt
    · exact ⟨hsalt, rfl, nofun, fun _ => rfl⟩
    · obtain ⟨hs, hp, hd, he⟩ := deriveKeys_effect kdf c' x
      exact ⟨hs.trans hsalt, hp, hd, he⟩

variable {kdf : Kdf n}

lemma cipherCtxKeyDerive_no_pass (src : SaltSource) (c : CodecShared) {x : CipherKeys n}
    (h : x.pass = []) : cipherCtxKeyDerive kdf src c x = (.error,c,x) := if_pos h

/-! ### Both contexts -/

lemma setPass_nil {x : CipherKeys n} (h : x.pass = []) : cipherCtxSetPass x [] = x := by
  rw [cipherCtxSetPass, ← h]

lemma wipePass_shared (c : CodecKeys n) : (wipePass c).toCodecShared = c.toCodecShared := by
  unfold wipePass
  split_ifs <;> rfl

lemma wipePass_of_no_pass {c : CodecKeys n} (hr : c.readCtx.pass = []) (hw : c.writeCtx.pass = []) :
    wipePass c = c := by
  unfold wipePass
  rw [setPass_nil hr, setPass_nil hw, ite_self]

lemma wipePass_eq (c : CodecKeys n) (h : c.readCtx = c.writeCtx) :
    (wipePass c).readCtx = (wipePass c).writeCtx := by
  unfold wipePass
  split_ifs
  · exact congrArg (cipherCtxSetPass · []) h
  · exact h

/-- Only the passphrases are wiped. -/
lemma wipePass_keys (c : CodecKeys n) : ∃ p q, (wipePass c).readCtx = cipherCtxSetPass c.readCtx p ∧
    (wipePass c).writeCtx = cipherCtxSetPass c.writeCtx q := by
  unfold wipePass
  split_ifs
  · exact ⟨[], [], rfl, rfl⟩
  · exact ⟨c.readCtx.pass, c.writeCtx.pass, rfl, rfl⟩

lemma wipePass_pass {c : CodecKeys n} (h : c.storePass ≠ 1) :
    (wipePass c).readCtx.pass = [] ∧ (wipePass c).writeCtx.pass = [] := by
  rw [wipePass, if_pos h]
  exact ⟨rfl, rfl⟩

lemma codecKeyDerive_ok {src : SaltSource} {c c' : CodecKeys n}
    (h : codecKeyDerive kdf src c = (.ok,c')) :
    ∃ c₁ c₂, deriveRead kdf src c = (.ok,c₁) ∧ deriveWrite kdf src c₁ = (.ok,c₂) ∧
      c' = wipePass c₂ := by
  unfold codecKeyDerive at h
  rcases hr : deriveRead kdf src c with ⟨_ | _, c₁⟩ <;> rw [hr] at h
  · rcases hw : deriveWrite kdf src c₁ with ⟨_ | _, c₂⟩ <;> simp only [hw] at h
    · exact ⟨c₁, c₂, rfl, hw, (Prod.mk.inj h).2.symm⟩
    · cases h
  · cases h

/-- A context without requests is ready: a use of the codec derives nothing. -/
lemma codecKeyDerive_of_done (src : SaltSource) {c : CodecKeys n} (hr : c.readCtx.deriveKey = false)
    (hw : c.writeCtx.deriveKey = false) : codecKeyDerive kdf src c = (.ok, wipePass c) := by
  simp only [codecKeyDerive, deriveRead, hr, deriveWrite, hw, Bool.false_eq_true, if_false]

lemma deriveRead_effect (src : SaltSource) {c c' : CodecKeys n}
    (h : deriveRead kdf src c = (.ok,c')) :
    c'.toKdfSettings = c.toKdfSettings ∧ c'.readCtx.deriveKey = false ∧
      c'.writeCtx = c.writeCtx := by
  unfold deriveRead at h
  split_ifs at h with hf
  · obtain ⟨hs, -, hd, -⟩ := keyDerive_effect kdf src c.toCodecShared c.readCtx
    obtain ⟨h₁, rfl⟩ := Prod.mk.inj h
    exact ⟨hs, hd h₁, rfl⟩
  · cases h
    exact ⟨rfl, Bool.eq_false_iff.mpr hf, rfl⟩

lemma deriveWrite_effect (src : SaltSource) {c c' : CodecKeys n} (hr : c.readCtx.deriveKey = false)
    (h : deriveWrite kdf src c = (.ok,c')) :
    c'.toKdfSettings = c.toKdfSettings ∧ c'.readCtx = c.readCtx ∧
      c'.writeCtx.deriveKey = false := by
  unfold deriveWrite at h
  split_ifs at h with hf hp
  · cases h
    exact ⟨rfl, rfl, hr⟩
  · obtain ⟨hs, -, hd, -⟩ := keyDerive_effect kdf src c.toCodecShared c.writeCtx
    obtain ⟨h₁, rfl⟩ := Prod.mk.inj h
    exact ⟨hs, rfl, hd h₁⟩
  · cases h
    exact ⟨rfl, rfl, Bool.eq_false_iff.mpr hf⟩

/-- After a successful derivation nothing is asked for, and unless passphrases are stored none is
left. -/
lemma codecKeyDerive_done {src : SaltSource} {c c' : CodecKeys n}
    (h : codecKeyDerive kdf src c = (.ok,c')) :
    c'.toKdfSettings = c.toKdfSettings ∧ c'.readCtx.deriveKey = false ∧
      c'.writeCtx.deriveKey = false ∧
      (c.storePass ≠ 1 → c'.readCtx.pass = [] ∧ c'.writeCtx.pass = []) := by
  obtain ⟨c₁, c₂, hread, hwrite, rfl⟩ := codecKeyDerive_ok h
  obtain ⟨hs₁, hr₁, -⟩ := deriveRead_effect src hread
  obtain ⟨hs₂, hr₂, hw₂⟩ := deriveWrite_effect src hr₁ hwrite
  obtain ⟨p, q, hp, hq⟩ := wipePass_keys c₂
  refine ⟨?_, hp ▸ hr₂ ▸ hr₁, hq ▸ hw₂, fun hp => wipePass_pass ?_⟩
  · rw [wipePass_shared, hs₂, hs₁]
  · rw [hs₂, hs₁]
    exact hp

/-! ### Reading and writing with one key -/

/-- The contexts differ at most in the keys of a derivation that is still asked for. -/
structure InSync (c : CodecKeys n) : Prop where
  pass : c.writeCtx.pass = c.readCtx.pass
  flag : c.writeCtx.deriveKey = c.readCtx.deriveKey
  keys : c.readCtx.deriveKey = false → c.readCtx = c.writeCtx

lemma InSync.of_eq {c : CodecKeys n} (h : c.readCtx = c.writeCtx) : InSync c :=
  ⟨congrArg _ h.symm, congrArg _ h.symm, fun _ => h⟩

lemma InSync.wiped {c : CodecKeys n} (h : InSync c) : InSync (wipePass c) := by
  unfold wipePass
  split_ifs
  · exact ⟨rfl, h.flag, fun hf => congrArg (cipherCtxSetPass · []) (h.keys hf)⟩
  · exact h

/-- While a derivation is asked for, the two contexts get the keys of one derivation. -/
lemma InSync.keyDerive_eq {c : CodecKeys n} (h : InSync c) (src : SaltSource)
    (hf : c.readCtx.deriveKey = true) :
    codecKeyDerive kdf src c = match cipherCtxKeyDerive kdf src c.toCodecShared c.readCtx with
      | (.error,s,x) => (.error, ⟨s, x, c.writeCtx⟩)
      | (.ok,s,x) => (.ok, wipePass ⟨s, x, x⟩) := by
  have heff := keyDerive_effect kdf src c.toCodecShared c.readCtx
  rcases hd : cipherCtxKeyDerive kdf src c.toCodecShared c.readCtx with ⟨_ | _, s, x⟩ <;>
    rw [hd] at heff
  · have hpass : c.writeCtx.pass = x.pass := h.pass.trans heff.pass.symm
    simp only [codecKeyDerive, deriveRead, hf, hd, if_true, deriveWrite, h.flag, if_pos hpass]
    rfl
  · simp only [codecKeyDerive, deriveRead, hf, hd, if_true]

lemma InSync.keyDerive {c : CodecKeys n} (h : InSync c) (src : SaltSource) :
    InSync (codecKeyDerive kdf src c).2 := by
  rcases hf : c.readCtx.deriveKey
  · rw [codecKeyDerive_of_done src hf (h.flag.trans hf)]
    exact h.wiped
  · have heff := keyDerive_effect kdf src c.toCodecShared c.readCtx
    rw [h.keyDerive_eq src hf]
    rcases hd : cipherCtxKeyDerive kdf src c.toCodecShared c.readCtx with ⟨_ | _, s, x⟩ <;>
      rw [hd] at heff
    · exact InSync.wiped (InSync.of_eq (c := ⟨s, x, x⟩) rfl)
    · -- a failed derivation leaves the request, so the keys may differ
      have hx : x.deriveKey = true := (heff.pending rfl).trans hf
      exact ⟨h.pass.trans heff.pass.symm, (h.flag.trans hf).trans hx.symm,
        fun hn => absurd hn (by simp [hx])⟩

lemma InSync.keyDerive_keys {c c' : CodecKeys n} (h : InSync c) {src : SaltSource}
    (hd : codecKeyDerive kdf src c = (.ok,c')) : c'.readCtx = c'.writeCtx := by
  have hsync : InSync (codecKeyDerive kdf src c).2 := h.keyDerive src
  rw [hd] at hsync
  exact hsync.keys (codecKeyDerive_done hd).2.1

lemma InSync.set {c : CodecKeys n} (h : InSync c) (setting : Setting) : InSync (setting.run c) := by
  cases setting with
  | storePass | useHmac | kdfAlgorithm => exact ⟨h.pass, h.flag, h.keys⟩
  | kdfIter | fastKdfIter => exact ⟨h.pass, rfl, nofun⟩
  | kdfSalt salt =>
    simp only [Setting.run, codecCtxSetKdfSalt]
    split_ifs
    · exact ⟨h.pass, h.flag, h.keys⟩
    · exact h

lemma InSync.op {c : CodecKeys n} (h : InSync c) (op : KeyOp) : InSync (op.run kdf c) := by
  cases op with
  | set setting => exact h.set setting
  | getKdfSalt => exact ⟨h.pass, h.flag, h.keys⟩
  | keyDerive src => exact h.keyDerive src

/-- The states of a connection opened with a passphrase, as long as every change of the passphrase
went through all pages. -/
inductive Session (kdf : Kdf n) (d : Defaults) (zKey : List UInt8) : CodecKeys n → Prop
  | attach : Session kdf d zKey (codecCtxInit d zKey)
  | op {c : CodecKeys n} (s : Session kdf d zKey c) (op : KeyOp) : Session kdf d zKey (op.run kdf c)
  | rekeyed {c : CodecKeys n} {src : SaltSource} {pKey : List UInt8} {pages : List RekeyPage}
      {commit : Bool} (s : Session kdf d zKey c)
      (h : (rekeyPages kdf src pages (codecCtxSetPass c pKey .write)).1 = true) :
      Session kdf d zKey (sqlite3RekeyV2 kdf src pKey pages commit c).2

variable {d : Defaults} {zKey : List UInt8} {c : CodecKeys n}

lemma Session.inSync (s : Session kdf d zKey c) : InSync c := by
  induction s with
  | attach => exact .of_eq rfl
  | op _ op ih => exact ih.op op
  | @rekeyed c src pKey pages commit _ h ih =>
    rcases hr : rekeyPages kdf src pages (codecCtxSetPass c pKey .write) with ⟨done, c'⟩
    rw [hr] at h
    cases h
    unfold sqlite3RekeyV2
    split_ifs
    · exact ih
    · rw [hr]
      exact .of_eq rfl

/-- After any use of the codec that could derive keys, reading and writing go with the same keys and
no passphrase is left in memory, unless `PRAGMA cipher_store_pass` asked for it. -/
theorem keys_in_sync (s : Session kdf d zKey c) {src : SaltSource} {c' : CodecKeys n}
    (h : codecKeyDerive kdf src c = (.ok,c')) :
    c'.readCtx = c'.writeCtx ∧ c'.readCtx.deriveKey = false ∧
      (c.storePass ≠ 1 → c'.readCtx.pass = []) := by
  obtain ⟨-, hr, -, hpass⟩ := codecKeyDerive_done h
  exact ⟨s.inSync.keyDerive_keys h, hr, fun hp => (hpass hp).1⟩

def sampleKdf : Kdf 1 := ⟨fun _ pass _ _ => (.ok, fill 1 pass), 0x3a⟩

def sampleDefaults : Defaults := ⟨256000, .sha512, true⟩

def sampleSource : SaltSource := ⟨none, (.ok, fill fileHeaderSz [5])⟩

/-- A connection opened with the passphrase given, after its first use. -/
def sampleOpen (pass : List UInt8) : CodecKeys 1 :=
  (codecKeyDerive sampleKdf sampleSource (codecCtxInit sampleDefaults pass)).2

lemma sample_derives :
    codecKeyDerive sampleKdf sampleSource (codecCtxInit sampleDefaults [9]) =
      (.ok, sampleOpen [9]) := rfl

theorem keys_in_sync_first :
    (sampleOpen [9]).readCtx = (sampleOpen [9]).writeCtx ∧ (sampleOpen [9]).readCtx.pass = [] := by
  obtain ⟨heq, -, hpass⟩ := keys_in_sync .attach sample_derives
  exact ⟨heq, hpass (by decide)⟩

/-! ### Settings after a derivation -/

/-- The contexts hold the given keys and no passphrase; `flag` tells whether a derivation is asked
for. -/
structure Settled (r w : CipherKeys n) (flag : Bool) (c : CodecKeys n) : Prop where
  read : c.readCtx = { r with pass := [], deriveKey := flag }
  write : c.writeCtx = { w with pass := [], deriveKey := flag }

section Settled

variable {r w : CipherKeys n} {flag : Bool}

lemma settled_of_done {c : CodecKeys n} (hr : c.readCtx.deriveKey = false)
    (hw : c.writeCtx.deriveKey = false) (hpr : c.readCtx.pass = []) (hpw : c.writeCtx.pass = []) :
    Settled c.readCtx c.writeCtx false c :=
  ⟨by rw [← hr, ← hpr], by rw [← hw, ← hpw]⟩

lemma Settled.keyDerive (h : Settled r w flag c) (src : SaltSource) :
    codecKeyDerive kdf src c = (if flag then .error else .ok, c) := by
  have hpr : c.readCtx.pass = [] := by rw [h.read]
  have hpw : c.writeCtx.pass = [] := by rw [h.write]
  have hfr : c.readCtx.deriveKey = flag := by rw [h.read]
  have hfw : c.writeCtx.deriveKey = flag := by rw [h.write]
  cases flag with
  | false => rw [codecKeyDerive_of_done src hfr hfw, wipePass_of_no_pass hpr hpw]; rfl
  | true =>
    simp only [codecKeyDerive, deriveRead, hfr, cipherCtxKeyDerive_no_pass src _ hpr, if_true]

/-- A call that leaves both contexts alone. -/
lemma Settled.congr {c' : CodecKeys n} (h : Settled r w flag c) (hr : c'.readCtx = c.readCtx)
    (hw : c'.writeCtx = c.writeCtx) : Settled r w (flag || false) c' := by
  rw [Bool.or_false]
  exact ⟨hr.trans h.read, hw.trans h.write⟩

lemma Settled.asked (h : Settled r w flag c) : Settled r w (flag || true) (setDeriveKey c) := by
  rw [Bool.or_true]
  exact ⟨congrArg (fun x : CipherKeys n => { x with deriveKey := true }) h.read,
    congrArg (fun x : CipherKeys n => { x with deriveKey := true }) h.write⟩

lemma Settled.set (h : Settled r w flag c) (setting : Setting) :
    Settled r w (flag || setting.asks) (setting.run c) := by
  cases setting with
  | kdfIter iter => exact Settled.asked (c := { c with kdfIter := iter }) ⟨h.read, h.write⟩
  | fastKdfIter iter => exact Settled.asked (c := { c with fastKdfIter := iter }) ⟨h.read, h.write⟩
  | storePass | useHmac | kdfAlgorithm => exact h.congr rfl rfl
  | kdfSalt salt =>
    simp only [Setting.run, codecCtxSetKdfSalt]
    split_ifs <;> exact h.congr rfl rfl

lemma Settled.op (h : Settled r w flag c) (op : KeyOp) :
    Settled r w (flag || op.asks) (op.run kdf c) := by
  cases op with
  | set setting => exact h.set setting
  | getKdfSalt src => exact h.congr rfl rfl
  | keyDerive src =>
    rw [KeyOp.run, h.keyDerive src]
    exact h.congr rfl rfl

lemma Settled.run (h : Settled r w flag c) (ops : List KeyOp) :
    Settled r w (flag || ops.any KeyOp.asks) (runOps kdf c ops) := by
  induction ops generalizing c flag with
  | nil => exact h.congr rfl rfl
  | cons op ops ih =>
    rw [List.any_cons, ← Bool.or_assoc]
    exact ih (h.op op)

lemma Settled.run_quiet (h : Settled r w false c) {ops : List KeyOp}
    (hops : ∀ op ∈ ops, op.asks = false) : Settled r w false (runOps kdf c ops) := by
  have hrun : Settled r w _ (runOps kdf c ops) := h.run ops
  rwa [Bool.false_or, show ops.any KeyOp.asks = false by simpa using hops] at hrun

end Settled

/-- Once the keys are derived and the passphrase is gone, no setting changes the keys, neither the
salt nor the algorithm nor the use of HMACs. The two iteration counts ask for a new derivation, and
with them the connection is lost: the codec can be used if and only if neither was set. -/
theorem settings_after_derive {src : SaltSource} {c' : CodecKeys n}
    (h : codecKeyDerive kdf src c = (.ok,c')) (hp : c.storePass ≠ 1) (ops : List KeyOp)
    (src' : SaltSource) :
    ((codecKeyDerive kdf src' (runOps kdf c' ops)).1 = .ok ↔ ∀ op ∈ ops, op.asks = false) ∧
      ∃ flag, (runOps kdf c' ops).readCtx = { c'.readCtx with deriveKey := flag } ∧
        (runOps kdf c' ops).writeCtx = { c'.writeCtx with deriveKey := flag } := by
  obtain ⟨-, hr, hw, hpass⟩ := codecKeyDerive_done h
  obtain ⟨hpr, hpw⟩ := hpass hp
  have hrun : Settled _ _ _ (runOps kdf c' ops) := (settled_of_done hr hw hpr hpw).run ops
  have hany : ops.any KeyOp.asks = false ↔ ∀ op ∈ ops, op.asks = false := by simp
  rw [Bool.false_or] at hrun
  refine ⟨?_, ops.any KeyOp.asks, ?_, ?_⟩
  · rw [hrun.keyDerive src', ← hany]
    cases ops.any KeyOp.asks <;> simp
  · rw [hrun.read, ← hpr]
  · rw [hrun.write, ← hpw]

/-- The connection is lost with a new iteration count. -/
theorem settings_after_derive_lost :
    ¬ (codecKeyDerive sampleKdf sampleSource
      (runOps sampleKdf (sampleOpen [9]) [.set (.kdfIter 64000)])).1 = .ok := by
  obtain ⟨hiff, -⟩ :=
    settings_after_derive sample_derives (by decide) [.set (.kdfIter 64000)] sampleSource
  exact fun hok => absurd (hiff.mp hok _ (List.mem_singleton.mpr rfl)) (by decide)

end IronSafe.Keys
