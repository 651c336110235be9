import IronSafe.CodecKeyRuns

/-! Passing keys on: the key specification given to an attached database, and `sqlite3_rekey_v2`,
which moves a database to another passphrase. -/
namespace IronSafe.Keys
open Bytes Page

variable {n : ℕ} {kdf : Kdf n}

/-! ### Key specifications as passphrases -/

lemma encryptionKey_keyspec (c : CodecShared) (key : KeyBytes n) (salt : Salt) :
    encryptionKey kdf c (keyspecOf key salt) = (.ok, key, salt) := by
  obtain ⟨hnot, hraw⟩ := isRaw_keyspec key salt
  simp only [encryptionKey, hnot, hraw, Bool.false_eq_true, if_false, if_true, slice_keyspec_key,
    slice_keyspec_salt, hex2bin_bin2hex, fill_val]

/-- The keys that a successful derivation leaves belong together. -/
structure Derived (kdf : Kdf n) (c : CodecShared) (x : CipherKeys n) : Prop where
  keyspec : x.keyspec = some (keyspecOf x.key c.kdfSalt)
  hmac : c.useHmac = true →
    kdf.kdf c.kdfAlgorithm x.key.val (maskedSalt kdf c.kdfSalt) c.fastKdfIter = (.ok, x.hmacKey)

lemma deriveHmacKey_ok {c c' : CodecShared} {x x' : CipherKeys n}
    (h : deriveHmacKey kdf c x = (.ok,c',x')) (hx : x.keyspec = some (keyspecOf x.key c.kdfSalt)) :
    Derived kdf c' x' := by
  unfold deriveHmacKey at h
  split_ifs at h with hm
  · dsimp only at h
    split at h
    · cases h
    · rename_i hmacKey hk
      cases h
      exact ⟨hx, fun _ => hk⟩
  · cases h
    exact ⟨hx, fun hm' => absurd hm' hm⟩

lemma deriveKeys_ok {c c' : CodecShared} {x x' : CipherKeys n}
    (h : deriveKeys kdf c x = (.ok,c',x')) : Derived kdf c' x' := by
  unfold deriveKeys at h
  split at h
  · cases h
  · exact deriveHmacKey_ok h rfl

lemma cipherCtxKeyDerive_ok {src : SaltSource} {c c' : CodecShared} {x x' : CipherKeys n}
    (h : cipherCtxKeyDerive kdf src c x = (.ok,c',x')) : Derived kdf c' x' := by
  unfold cipherCtxKeyDerive at h
  split_ifs at h
  · cases h
  · split at h
    · cases h
    · exact deriveKeys_ok h

/-- A key specification as passphrase gives the keys it was made for, under settings that agree on
how the key for HMACs is derived. -/
lemma Derived.again {c s : CodecShared} {x y : CipherKeys n} (h : Derived kdf s y)
    (hp : x.pass = keyspecOf y.key s.kdfSalt) (ha : c.kdfAlgorithm = s.kdfAlgorithm)
    (hm : c.useHmac = s.useHmac) (hi : c.fastKdfIter = s.fastKdfIter) :
    ∃ c' x', deriveKeys kdf c x = (.ok,c',x') ∧ c'.kdfSalt = s.kdfSalt ∧ x'.key = y.key ∧
      x'.keyspec = y.keyspec ∧ (s.useHmac = true → x'.hmacKey = y.hmacKey) := by
  simp only [deriveKeys, hp, encryptionKey_keyspec, deriveHmacKey, ha, hm, hi]
  split_ifs with hs
  · simp only [h.hmac hs]
    exact ⟨_, _, rfl, rfl, rfl, h.keyspec.symm, fun _ => rfl⟩
  · exact ⟨_, _, rfl, rfl, rfl, h.keyspec.symm, fun h' => absurd h' hs⟩

lemma initKdfSalt_random {src : SaltSource} (h : src.random.1 = .ok) (c : CodecShared) :
    ∃ salt need,
      codecCtxInitKdfSalt src c = (.ok, { c with kdfSalt := salt, needKdfSalt := need }) := by
  unfold codecCtxInitKdfSalt
  split_ifs
  · exact ⟨c.kdfSalt, c.needKdfSalt, rfl⟩
  · split
    · exact ⟨_, _, rfl⟩
    · rcases hr : src.random with ⟨rc, salt⟩
      rw [hr] at h
      cases h
      exact ⟨_, _, rfl⟩

/-- A context that is to derive its keys from a key specification gets the keys it was made for. -/
lemma Derived.opens {s : CodecShared} {y : CipherKeys n} (h : Derived kdf s y) {c : CodecKeys n}
    (hsync : InSync c) (hf : c.readCtx.deriveKey = true)
    (hp : c.readCtx.pass = keyspecOf y.key s.kdfSalt) (ha : c.kdfAlgorithm = s.kdfAlgorithm)
    (hm : c.useHmac = s.useHmac) (hi : c.fastKdfIter = s.fastKdfIter) {src : SaltSource}
    (hsrc : src.random.1 = .ok) :
    ∃ c', codecKeyDerive kdf src c = (.ok,c') ∧ c'.readCtx = c'.writeCtx ∧ c'.kdfSalt = s.kdfSalt ∧
      c'.readCtx.key = y.key ∧ c'.readCtx.keyspec = y.keyspec ∧
      (s.useHmac = true → c'.readCtx.hmacKey = y.hmacKey) := by
  obtain ⟨salt, need, hsalt⟩ := initKdfSalt_random hsrc c.toCodecShared
  obtain ⟨t, x, hx, hsalt', hkey, hspec, hhmac⟩ :=
    h.again (c := { c.toCodecShared with kdfSalt := salt, needKdfSalt := need }) hp ha hm hi
  have hderive : cipherCtxKeyDerive kdf src c.toCodecShared c.readCtx = (.ok,t,x) := by
    rw [cipherCtxKeyDerive, if_neg (by rw [hp]; exact keyspec_ne_nil _ _), hsalt]
    exact hx
  obtain ⟨p, q, hread, -⟩ := wipePass_keys ⟨t, x, x⟩
  refine ⟨wipePass ⟨t, x, x⟩, ?_, wipePass_eq _ rfl, ?_⟩
  · rw [hsync.keyDerive_eq src hf, hderive]
  · rw [wipePass_shared, hread]
    exact ⟨hsalt', hkey, hspec, hhmac⟩

section Session

variable {d : Defaults} {zKey : List UInt8} {c₀ c : CodecKeys n} {src : SaltSource}

/-- What a derivation of both contexts leaves. -/
lemma Session.derived (s : Session kdf d zKey c₀) (hf : c₀.readCtx.deriveKey = true)
    (h : codecKeyDerive kdf src c₀ = (.ok,c)) :
    ∃ x, c = wipePass ⟨c.toCodecShared, x, x⟩ ∧ Derived kdf c.toCodecShared x := by
  rw [s.inSync.keyDerive_eq src hf] at h
  rcases hd : cipherCtxKeyDerive kdf src c₀.toCodecShared c₀.readCtx with ⟨_ | _, t, x⟩ <;>
    rw [hd] at h
  · cases h
    rw [wipePass_shared]
    exact ⟨x, rfl, cipherCtxKeyDerive_ok hd⟩
  · cases h

/-- The key that a connection hands out opens a database with the keys and the salt of the
connection. -/
theorem handed_out_key_opens (s : Session kdf d zKey c₀) (hf : c₀.readCtx.deriveKey = true)
    (h : codecKeyDerive kdf src c₀ = (.ok,c)) (hp : c₀.storePass ≠ 1) (d' : Defaults)
    (ha : d'.kdfAlgorithm = c₀.kdfAlgorithm) (hm : d'.useHmac = c₀.useHmac)
    (hi : fastPbkdf2Iter = c₀.fastKdfIter) (src' : SaltSource) (hsrc : src'.random.1 = .ok) :
    ∃ e : CodecKeys n, codecKeyDerive kdf src' (codecCtxInit d' (sqlite3CodecGetKey c)) = (.ok,e) ∧
      e.readCtx = e.writeCtx ∧ e.kdfSalt = c.kdfSalt ∧ e.readCtx.key = c.readCtx.key ∧
      e.readCtx.keyspec = c.readCtx.keyspec ∧
        (c.useHmac = true → e.readCtx.hmacKey = c.readCtx.hmacKey) := by
  obtain ⟨x, hc, hx⟩ := s.derived hf h
  obtain ⟨hset, -⟩ := codecKeyDerive_done h
  rw [← hset] at ha hm hi hp
  obtain ⟨p, q, hread, -⟩ := wipePass_keys ⟨c.toCodecShared, x, x⟩
  rw [← hc] at hread
  have hkey : sqlite3CodecGetKey c = keyspecOf x.key c.kdfSalt := by
    simp only [sqlite3CodecGetKey, hread, cipherCtxSetPass, hx.keyspec]
    exact if_neg hp
  rw [hread]
  exact hx.opens (.of_eq rfl) rfl hkey ha hm hi hsrc

theorem handed_out_key_opens_first : ∃ e : CodecKeys 1,
    codecKeyDerive sampleKdf sampleSource
      (codecCtxInit sampleDefaults (sqlite3CodecGetKey (sampleOpen [9]))) =
      (.ok,e) ∧ e.readCtx.key = (sampleOpen [9]).readCtx.key := by
  obtain ⟨e, he, -, -, hkey, -⟩ :=
    handed_out_key_opens .attach rfl sample_derives (by decide) sampleDefaults rfl rfl rfl
      sampleSource rfl
  exact ⟨e, he, hkey⟩

end Session

/-! ### Change of the passphrase -/

section Rekey

variable {x r w : CipherKeys n} {c : CodecKeys n} {pKey : List UInt8}

lemma useCodec_settled (h : Settled r w false c) (src : SaltSource) (codec : Bool) :
    useCodec kdf src codec c = (.ok,c) := by
  unfold useCodec
  split_ifs
  · exact h.keyDerive src
  · rfl

lemma rekeyPages_settled (h : Settled r w false c) (src : SaltSource) (pages : List RekeyPage) :
    rekeyPages kdf src pages c = (pages.all RekeyPage.io, c) := by
  induction pages with
  | nil => rfl
  | cons page pages ih =>
    simp only [rekeyPages, useCodec_settled h src, ih, List.all_cons]
    cases page.io <;> rfl

/-- The context with the new passphrase, before its keys are derived. -/
def newPass (x : CipherKeys n) (pKey : List UInt8) : CipherKeys n :=
  { cipherCtxSetPass x pKey with deriveKey := true }

lemma keyDerive_write (h : Settled x x false c) (hp : c.storePass ≠ 1) (hk : pKey ≠ [])
    (src : SaltSource) : codecKeyDerive kdf src (codecCtxSetPass c pKey .write) =
      match cipherCtxKeyDerive kdf src c.toCodecShared (newPass x pKey) with
      | (.error,s,y) => (.error, ⟨s, c.readCtx, y⟩)
      | (.ok,s,y) => (.ok, ⟨s, c.readCtx, cipherCtxSetPass y []⟩) := by
  have hpr : c.readCtx.pass = [] := by rw [h.read]
  have hfr : c.readCtx.deriveKey = false := by rw [h.read]
  have hset : codecCtxSetPass c pKey .write = ⟨c.toCodecShared, c.readCtx, newPass x pKey⟩ := by
    simp only [codecCtxSetPass, h.write]
    rfl
  have hne : ¬ (newPass x pKey).pass = c.readCtx.pass := by
    rw [hpr]
    exact hk
  have hf : (newPass x pKey).deriveKey = true := rfl
  have heff := keyDerive_effect kdf src c.toCodecShared (newPass x pKey)
  simp only [hset, codecKeyDerive, deriveRead, hfr, Bool.false_eq_true, if_false, deriveWrite,
    hf, if_true, if_neg hne]
  generalize cipherCtxKeyDerive kdf src c.toCodecShared (newPass x pKey) = res at heff ⊢
  obtain ⟨_ | _, s, y⟩ := res
  · have hs : s.storePass ≠ 1 := by
      rw [heff.settings]
      exact hp
    simp only [wipePass, if_pos hs, setPass_nil hpr]
  · rfl

lemma keyDerive_readwrite (h : Settled x x false c) (hp : c.storePass ≠ 1) (src : SaltSource) :
    codecKeyDerive kdf src (codecCtxSetPass c pKey .readwrite) =
      match cipherCtxKeyDerive kdf src c.toCodecShared (newPass x pKey) with
      | (.error,s,y) => (.error, ⟨s, y, newPass x pKey⟩)
      | (.ok,s,y) => (.ok, ⟨s, cipherCtxSetPass y [], cipherCtxSetPass y []⟩) := by
  have hset :
      codecCtxSetPass c pKey .readwrite = ⟨c.toCodecShared, newPass x pKey, newPass x pKey⟩ := by
    simp only [codecCtxSetPass, h.write]
    rfl
  have heff := keyDerive_effect kdf src c.toCodecShared (newPass x pKey)
  rw [hset, InSync.keyDerive_eq (.of_eq rfl) src rfl]
  generalize cipherCtxKeyDerive kdf src c.toCodecShared (newPass x pKey) = res at heff ⊢
  obtain ⟨_ | _, s, y⟩ := res
  · have hs : s.storePass ≠ 1 := by
      rw [heff.settings]
      exact hp
    simp only [wipePass, if_pos hs]
  · rfl

/-- The old keys to read, new ones to write. -/
lemma Settled.split {y : CipherKeys n} (h : Settled x x false c) (hy : y.deriveKey = false)
    (t : CodecShared) :
    Settled x (cipherCtxSetPass y []) false ⟨t, c.readCtx, cipherCtxSetPass y []⟩ :=
  ⟨h.read, by rw [← hy]; rfl⟩

/-- The steps before the codec is first called. -/
def uncalled (pages : List RekeyPage) : List RekeyPage := pages.takeWhile fun page => !page.codec

/-- Before the codec is first called the contexts stay as they are. -/
lemma rekeyPages_uncalled (kdf : Kdf n) (src : SaltSource) (pages : List RekeyPage)
    (c : CodecKeys n) : rekeyPages kdf src pages c =
      if (uncalled pages).all RekeyPage.io then
        rekeyPages kdf src (pages.dropWhile fun page => !page.codec) c
      else (false,c) := by
  induction pages with
  | nil => rfl
  | cons page pages ih =>
    cases hcodec : page.codec with
    | true => simp [uncalled, hcodec]
    | false =>
      have huse : useCodec kdf src false c = (.ok,c) := rfl
      simp only [uncalled, List.takeWhile_cons, List.dropWhile_cons, hcodec, Bool.not_false,
        if_true, List.all_cons, rekeyPages, huse, ih]
      cases page.io <;> simp

/-- The loop from the first call of the codec on, in terms of the derivation from the new
passphrase. -/
lemma rekeyPages_called (h : Settled x x false c) (hp : c.storePass ≠ 1) (hk : pKey ≠ [])
    (src : SaltSource) {page : RekeyPage} (hpage : page.codec = true) (pages : List RekeyPage) :
    rekeyPages kdf src (page :: pages) (codecCtxSetPass c pKey .write) =
      match cipherCtxKeyDerive kdf src c.toCodecShared (newPass x pKey) with
      | (.error,s,y) => (false, ⟨s, c.readCtx, y⟩)
      | (.ok,s,y) => ((page :: pages).all RekeyPage.io, ⟨s, c.readCtx, cipherCtxSetPass y []⟩) := by
  have heff := keyDerive_effect kdf src c.toCodecShared (newPass x pKey)
  rw [rekeyPages, useCodec, if_pos hpage, keyDerive_write h hp hk]
  generalize cipherCtxKeyDerive kdf src c.toCodecShared (newPass x pKey) = res at heff ⊢
  obtain ⟨_ | _, t, y⟩ := res
  · -- from the second step on the contexts are settled
    dsimp only
    rw [rekeyPages_settled (h.split (heff.done rfl) t), List.all_cons]
    cases page.io <;> rfl
  · rfl

/-- The first step that calls the codec, if there is one, and how all steps succeed. -/
lemma uncalled_cases (pages : List RekeyPage) :
    (pages.any RekeyPage.codec = false ∧ uncalled pages = pages ∧
      (pages.dropWhile fun page => !page.codec) = []) ∨
    ∃ page rest, page.codec = true ∧ pages.any RekeyPage.codec = true ∧
      (pages.dropWhile fun page => !page.codec) = page :: rest ∧
      pages.all RekeyPage.io =
        ((uncalled pages).all RekeyPage.io && (page :: rest).all RekeyPage.io) := by
  induction pages with
  | nil => exact .inl ⟨rfl, rfl, rfl⟩
  | cons page pages ih =>
    cases hcodec : page.codec with
    | true =>
      exact .inr
        ⟨page, pages, hcodec, by simp [hcodec], by simp [hcodec], by simp [uncalled, hcodec]⟩
    | false =>
      rcases ih with ⟨hany, hlead, hdrop⟩ | ⟨first, rest, hfirst, hany, hdrop, hall⟩
      · refine .inl ⟨by simp [hcodec, hany], ?_, by simp [hcodec, hdrop]⟩
        rw [uncalled, List.takeWhile_cons, hcodec, Bool.not_false, if_pos rfl]
        exact congrArg (page :: ·) hlead
      · refine .inr ⟨first, rest, hfirst, by simp [hcodec, hany], by simp [hcodec, hdrop], ?_⟩
        rw [List.all_cons, hall]
        simp [uncalled, hcodec, Bool.and_assoc]

lemma Session.settled {d : Defaults} {zKey : List UInt8} {c₀ : CodecKeys n} {src : SaltSource}
    (s : Session kdf d zKey c₀) (h : codecKeyDerive kdf src c₀ = (.ok,c)) (hp : c₀.storePass ≠ 1) :
    Settled c.readCtx c.readCtx false c ∧ c.storePass ≠ 1 := by
  obtain ⟨hset, hr, hw, hpass⟩ := codecKeyDerive_done h
  have hs := settled_of_done hr hw (hpass hp).1 (hpass hp).2
  rw [← s.inSync.keyDerive_keys h] at hs
  exact ⟨hs, by rwa [hset]⟩

/-- The keys are `r` to read and `w` to write, and no later calls bring them together, as long as
none asks for a derivation. -/
def SplitKeys (kdf : Kdf n) (r w : CipherKeys n) (c : CodecKeys n) : Prop :=
  ∀ ops : List KeyOp, (∀ op ∈ ops, op.asks = false) → ∀ src,
    (codecKeyDerive kdf src (runOps kdf c ops)).1 = .ok ∧
      (runOps kdf c ops).readCtx = r ∧ (runOps kdf c ops).writeCtx = w

/-- What a change of the passphrase leaves, by the steps that called the codec and those that
failed. The derivation from the new passphrase is compared with one for both contexts at once. -/
def RekeyEnd (kdf : Kdf n) (src : SaltSource) (pKey : List UInt8) (pages : List RekeyPage)
    (commit : Bool) (c c' : CodecKeys n) : Prop :=
  if (uncalled pages).all RekeyPage.io then
    if pages.any RekeyPage.codec || commit then
      match codecKeyDerive kdf src (codecCtxSetPass c pKey .readwrite) with
      | (.ok,fresh) =>
        if pages.all RekeyPage.io then c' = fresh else SplitKeys kdf c.readCtx fresh.writeCtx c'
      | (.error,_) =>
        c'.writeCtx.pass = pKey ∧ c'.writeCtx.deriveKey = true ∧
          c'.readCtx = if pages.any RekeyPage.codec then c.readCtx else c'.writeCtx
    else c' = codecCtxSetPass c pKey .readwrite
  else c' = codecCtxSetPass c pKey .write

lemma Settled.splitKeys {r w : CipherKeys n} (h : Settled r w false c) :
    SplitKeys kdf c.readCtx c.writeCtx c := by
  intro ops hops src
  have hrun : Settled r w false (runOps kdf c ops) := h.run_quiet hops
  exact ⟨congrArg Prod.fst (hrun.keyDerive src), hrun.read.trans h.read.symm,
    hrun.write.trans h.write.symm⟩

/-- The outcome if the codec was called during the steps. -/
lemma rekeyEnd_called (h : Settled x x false c) (hp : c.storePass ≠ 1) (hk : pKey ≠ [])
    (src : SaltSource) {pages rest : List RekeyPage} {page : RekeyPage} (hpage : page.codec = true)
    (hany : pages.any RekeyPage.codec = true) (hlead : (uncalled pages).all RekeyPage.io = true)
    (hdrop : (pages.dropWhile fun page => !page.codec) = page :: rest)
    (hall : pages.all RekeyPage.io = (page :: rest).all RekeyPage.io) (commit : Bool) :
    ∃ c', sqlite3RekeyV2 kdf src pKey pages commit c = (.ok,c') ∧
      RekeyEnd kdf src pKey pages commit c c' := by
  have heff := keyDerive_effect kdf src c.toCodecShared (newPass x pKey)
  have hcalled : (pages.any RekeyPage.codec || commit) = true := by rw [hany, Bool.true_or]
  have hloop := rekeyPages_uncalled kdf src pages (codecCtxSetPass c pKey .write)
  rw [if_pos hlead, hdrop, rekeyPages_called h hp hk src hpage] at hloop
  simp only [sqlite3RekeyV2, if_neg hk, hloop, RekeyEnd, if_pos hlead, if_pos hcalled,
    if_pos hany, hall, keyDerive_readwrite h hp]
  generalize cipherCtxKeyDerive kdf src c.toCodecShared (newPass x pKey) = res at heff ⊢
  obtain ⟨_ | _, t, y⟩ := res
  · have ht := h.split (heff.done rfl) t
    cases (page :: rest).all RekeyPage.io with
    | true => exact ⟨_, rfl, by simp only [useCodec_settled ht]; rfl⟩
    | false => exact ⟨_, rfl, ht.splitKeys⟩
  · exact ⟨_, rfl, heff.pass, heff.pending rfl, rfl⟩

/-- The outcome if no step called the codec. Then the keys are derived in the commit, if at all. -/
lemma rekeyEnd_uncalled (h : Settled x x false c) (hp : c.storePass ≠ 1) (hk : pKey ≠ [])
    (src : SaltSource) {pages : List RekeyPage} (hany : pages.any RekeyPage.codec = false)
    (hlead : (uncalled pages).all RekeyPage.io = true) (hall : uncalled pages = pages)
    (hdrop : (pages.dropWhile fun page => !page.codec) = []) (commit : Bool) :
    ∃ c', sqlite3RekeyV2 kdf src pKey pages commit c = (.ok,c') ∧
      RekeyEnd kdf src pKey pages commit c c' := by
  have heff := keyDerive_effect kdf src c.toCodecShared (newPass x pKey)
  have hio : pages.all RekeyPage.io = true := by rwa [hall] at hlead
  have hloop := rekeyPages_uncalled kdf src pages (codecCtxSetPass c pKey .write)
  rw [if_pos hlead, hdrop, rekeyPages] at hloop
  simp only [sqlite3RekeyV2, if_neg hk, hloop, RekeyEnd, if_pos hlead, hany, Bool.false_or,
    if_pos hio]
  cases commit with
  | false => exact ⟨_, rfl, rfl⟩
  | true =>
    simp only [useCodec, if_true, keyDerive_write h hp hk, keyDerive_readwrite h hp]
    generalize cipherCtxKeyDerive kdf src c.toCodecShared (newPass x pKey) = res at heff ⊢
    obtain ⟨_ | _, t, y⟩ := res
    · exact ⟨_, rfl, rfl⟩
    · exact ⟨_, rfl, heff.pass, heff.pending rfl, rfl⟩

/-- A change of the passphrase, on a connection that has its keys and does not store passphrases. An
empty one is refused. Otherwise no error is returned, whatever happens. If the codec is called and
every step succeeds, the connection is where it would be had it been given the new passphrase at
once. If a step fails after the codec was called, it is left with the old key to read and the new
one to write, and no later call brings them together. If the new keys cannot be derived, the old key
to read is lost when that happens in the commit, and kept when it happens before. If the codec is
not called at all, no key is derived yet. -/
theorem rekey_outcome {d : Defaults} {zKey : List UInt8} {c₀ : CodecKeys n} {src₀ : SaltSource}
    (s : Session kdf d zKey c₀) (h : codecKeyDerive kdf src₀ c₀ = (.ok,c)) (hp : c₀.storePass ≠ 1)
    (src : SaltSource) (pKey : List UInt8) (pages : List RekeyPage) (commit : Bool) :
    (pKey = [] → sqlite3RekeyV2 kdf src pKey pages commit c = (.error,c)) ∧
      (pKey ≠ [] → ∃ c', sqlite3RekeyV2 kdf src pKey pages commit c = (.ok,c') ∧
        RekeyEnd kdf src pKey pages commit c c') := by
  obtain ⟨hs, hp⟩ := s.settled h hp
  refine ⟨fun hk => if_pos hk, fun hk => ?_⟩
  by_cases hlead : (uncalled pages).all RekeyPage.io = true
  · rcases uncalled_cases pages with ⟨hany, hall, hdrop⟩ | ⟨page, rest, hpage, hany, hdrop, hall⟩
    · exact rekeyEnd_uncalled hs hp hk src hany hlead hall hdrop commit
    · rw [hlead, Bool.true_and] at hall
      exact rekeyEnd_called hs hp hk src hpage hany hlead hdrop hall commit
  · refine ⟨codecCtxSetPass c pKey .write, ?_, ?_⟩
    · rw [sqlite3RekeyV2, if_neg hk, rekeyPages_uncalled, if_neg hlead]
    · rw [RekeyEnd, if_neg hlead]

/-- The second page fails, and the connection reads and writes with different keys. -/
theorem rekey_outcome_split : ∃ c',
    sqlite3RekeyV2 sampleKdf sampleSource [8] [⟨false,true⟩, ⟨true,true⟩, ⟨true,false⟩] true
      (sampleOpen [9]) = (.ok,c') ∧ c'.readCtx.key = fill 1 [9] ∧ c'.writeCtx.key = fill 1 [8] := by
  have hk : ([8] : List UInt8) ≠ [] := by decide
  obtain ⟨-, hrekey⟩ := rekey_outcome .attach sample_derives (by decide) sampleSource [8]
    [⟨false,true⟩, ⟨true,true⟩, ⟨true,false⟩] true
  obtain ⟨c', hc', hsplit⟩ := hrekey hk
  obtain ⟨-, hr, hw⟩ := hsplit [] (by simp) sampleSource
  exact ⟨c', hc', congrArg CipherKeys.key hr, congrArg CipherKeys.key hw⟩

end Rekey

end IronSafe.Keys
