import IronSafe.PageCipher

/-! What one call of `sqlcipher_page_cipher` does: the layout of the page that a successful
encryption emits, and the two ways in which a decryption can return without error. -/
namespace IronSafe.Page
open Bytes Merkle

variable {ctx : CodecCtx} {H : MtHash → MtHash → MtHash}

/-- Number of page bytes that are enciphered. -/
def CodecCtx.usable (ctx : CodecCtx) (pgno : ℕ) : ℕ := ctx.pageSz - ctx.offset pgno - ctx.reserveSz

/-- Number of bytes of a page that are handed to `sqlcipher_page_cipher`. -/
def CodecCtx.cipherSz (ctx : CodecCtx) (pgno : ℕ) : ℕ := ctx.pageSz - ctx.offset pgno

lemma offset_add_reserve_le (ctx : CodecCtx) (pgno : ℕ) :
    ctx.offset pgno + ctx.reserveSz ≤ ctx.pageSz := by
  have h := ctx.fits
  unfold CodecCtx.offset CodecCtx.reserveSz
  by_cases hp : pgno = 1
  · rw [hp]
    exact h
  · simp only [headerOffset, if_neg hp]
    omega

lemma usable_add_reserve (ctx : CodecCtx) (pgno : ℕ) :
    ctx.usable pgno + ctx.reserveSz = ctx.cipherSz pgno := by
  have h := offset_add_reserve_le ctx pgno
  unfold CodecCtx.usable CodecCtx.cipherSz
  omega

lemma le_reserveSetup (provider : Provider) (useHmac : Bool) :
    provider.ivSz + (if useHmac then provider.hmacSz else 0) + 16 ≤
      reserveSetup provider useHmac := by
  simp only [reserveSetup]
  generalize provider.ivSz + (if useHmac then provider.hmacSz else 0) = n
  have hb := provider.blockSz_pos
  have h1 := Nat.div_add_mod n provider.blockSz
  have h2 := Nat.mod_lt n hb
  split_ifs with h
  · omega
  · rw [Nat.add_mul, Nat.one_mul, Nat.mul_comm (n/provider.blockSz)]
    omega

/-- Vector, HMAC and leaf index lie one after the other inside the reserve area. -/
lemma trailer_le_reserve (h : ctx.useHmac = true) :
    ctx.provider.ivSz + ctx.provider.hmacSz + 4 ≤ ctx.reserveSz := by
  have := le_reserveSetup ctx.provider ctx.useHmac
  simp only [h, if_true] at this
  simp only [CodecCtx.reserveSz, h]
  omega

lemma ivSz_le_reserve (ctx : CodecCtx) : ctx.provider.ivSz ≤ ctx.reserveSz := by
  have := le_reserveSetup ctx.provider ctx.useHmac
  simp only [CodecCtx.reserveSz]
  omega

/-- The parts of a page image as the codec addresses them. -/
def bodyOf (ctx : CodecCtx) (pgno : ℕ) (image : List UInt8) : List UInt8 :=
  image.take (ctx.usable pgno)

def ivOf (ctx : CodecCtx) (pgno : ℕ) (image : List UInt8) : List UInt8 :=
  slice (ctx.usable pgno) ctx.provider.ivSz image

/-- The bytes under the HMAC: ciphertext and vector. -/
def macedOf (ctx : CodecCtx) (pgno : ℕ) (image : List UInt8) : List UInt8 :=
  image.take (ctx.usable pgno + ctx.provider.ivSz)

def macOf (ctx : CodecCtx) (pgno : ℕ) (image : List UInt8) : List UInt8 :=
  slice (ctx.usable pgno + ctx.provider.ivSz) ctx.provider.hmacSz image

def tagOf (ctx : CodecCtx) (pgno : ℕ) (image : List UInt8) : List UInt8 :=
  slice (ctx.usable pgno + ctx.provider.ivSz) (ctx.provider.hmacSz/2) image

def indexOf (ctx : CodecCtx) (pgno : ℕ) (image : List UInt8) : ℕ :=
  readLe32 (slice (ctx.usable pgno + ctx.provider.ivSz + ctx.provider.hmacSz) 4 image)

lemma bodyOf_eq_take (pgno : ℕ) (image : List UInt8) :
    bodyOf ctx pgno image = (macedOf ctx pgno image).take (ctx.usable pgno) := by
  rw [bodyOf, macedOf, List.take_take, Nat.min_eq_left (by omega)]

lemma ivOf_eq_drop (pgno : ℕ) (image : List UInt8) :
    ivOf ctx pgno image = (macedOf ctx pgno image).drop (ctx.usable pgno) := by
  rw [ivOf, macedOf, slice, List.drop_take]
  congr 1
  omega

/-- A page image as a successful encryption leaves it. -/
structure Sealed (ctx : CodecCtx) (c : CipherCtx) (pgno index : ℕ) (plain image : List UInt8) :
    Prop where
  length : image.length = ctx.cipherSz pgno
  cipher : ctx.provider.cipher .encrypt c.key (ivOf ctx pgno image) plain =
    some (bodyOf ctx pgno image)
  mac : ctx.useHmac = true →
    pageHmac ctx c pgno (macedOf ctx pgno image) = some (macOf ctx pgno image)
  index : ctx.useHmac = true → indexOf ctx pgno image = index

lemma Sealed.reindex {c : CipherCtx} {pgno i j : ℕ} {plain image : List UInt8}
    (h : Sealed ctx c pgno i plain image) (hij : ctx.useHmac = true → i = j) :
    Sealed ctx c pgno j plain image :=
  ⟨h.length, h.cipher, h.mac, fun hm => (h.index hm).trans (hij hm)⟩

lemma Sealed.tag_length {c : CipherCtx} {pgno i : ℕ} {plain image : List UInt8}
    (h : Sealed ctx c pgno i plain image) (hm : ctx.useHmac = true) :
    (tagOf ctx pgno image).length = ctx.provider.hmacSz/2 := by
  have hs := usable_add_reserve ctx pgno
  have ht := trailer_le_reserve hm
  exact slice_length _ (by rw [h.length]; omega)

/-- The image before the HMAC is added: random reserve bytes, then the ciphertext in front. -/
lemma cipher_layout {pgno : ℕ} {out r body : List UInt8} (ho : out.length = ctx.cipherSz pgno)
    (hr : r.length = ctx.reserveSz) (hb : body.length = ctx.usable pgno) :
    let image := overwrite (overwrite out (ctx.usable pgno) r) 0 body
    image.length = ctx.cipherSz pgno ∧ bodyOf ctx pgno image = body ∧
      ivOf ctx pgno image = ivOf ctx pgno (overwrite out (ctx.usable pgno) r) := by
  have hs := usable_add_reserve ctx pgno
  have h1 : (overwrite out (ctx.usable pgno) r).length = ctx.cipherSz pgno := by
    rw [overwrite_length _ _ (by omega), ho]
  refine ⟨by rw [overwrite_length _ _ (by omega), h1], ?_, ?_⟩
  · have hs0 : slice 0 (ctx.usable pgno) (overwrite (overwrite out (ctx.usable pgno) r) 0 body) =
        body :=
      slice_overwrite_self _ body hb (by omega)
    simpa [bodyOf] using hs0
  · exact slice_overwrite_of_disjoint _ _ (by omega) (Or.inr (by omega))

/-- Adding HMAC and leaf index changes none of the bytes under the HMAC. -/
lemma mac_layout (hmac : ctx.useHmac = true) {pgno : ℕ} (index : ℕ) {page mac : List UInt8}
    (hp : page.length = ctx.cipherSz pgno) (hm : mac.length = ctx.provider.hmacSz) :
    let size := ctx.usable pgno
    let ivSz := ctx.provider.ivSz
    let image := overwrite (overwrite page (size+ivSz) mac)
      (size+ivSz+ctx.provider.hmacSz) (le32 index)
    image.length = ctx.cipherSz pgno ∧ macedOf ctx pgno image = macedOf ctx pgno page ∧
      macOf ctx pgno image = mac ∧ indexOf ctx pgno image = index % 2^32 := by
  have hs := usable_add_reserve ctx pgno
  have ht := trailer_le_reserve hmac
  set size := ctx.usable pgno
  set ivSz := ctx.provider.ivSz
  have h1 : (overwrite page (size+ivSz) mac).length = ctx.cipherSz pgno := by
    rw [overwrite_length _ _ (by omega), hp]
  have h2 : size + ivSz + ctx.provider.hmacSz + (le32 index).length ≤
      (overwrite page (size+ivSz) mac).length := by
    rw [h1, le32_length]
    omega
  refine ⟨by rw [overwrite_length _ _ h2, h1], ?_, ?_, ?_⟩
  · rw [macedOf, take_overwrite_of_le _ _ h2 (by omega), take_overwrite_of_le _ _ (by omega) le_rfl]
    rfl
  · rw [macOf, slice_overwrite_of_disjoint _ _ h2 (Or.inl (by omega)),
      slice_overwrite_self _ _ hm (by omega)]
  · rw [indexOf, slice_overwrite_self _ _ (le32_length index) h2, readLe32_le32]

/-- The effect of a successful encryption on the tree. -/
def Appended (ctx : CodecCtx) (H : MtHash → MtHash → MtHash) (mem : ℕ → Bool) (tree tree' : MtObj)
    (tag : List UInt8) : Prop :=
  if ctx.useHmac then
    mtAdd H mem tree.mt tag = .ok (.success, tree'.mt) ∧ tree'.numBlocks = (tree.numBlocks+1) % 2^32
  else tree' = tree

/-- The end of `pageEncrypt`, on the page that holds the ciphertext. -/
def sealPage (ctx : CodecCtx) (H : MtHash → MtHash → MtHash) (tree : MtObj) (c : CipherCtx)
    (pgno : ℕ) (mem : ℕ → Bool) (page : List UInt8) : Except Crash PageResult :=
  if ctx.useHmac then
    match pageHmac ctx c pgno (macedOf ctx pgno page) with
    | none => pageError (ctx.cipherSz pgno) tree
    | some mac =>
      let image := overwrite (overwrite page (ctx.usable pgno + ctx.provider.ivSz) mac)
        (ctx.usable pgno + ctx.provider.ivSz + ctx.provider.hmacSz) (le32 tree.numBlocks)
      match mtAdd H mem tree.mt (tagOf ctx pgno image) with
      | .error crash => .error crash
      | .ok (.success, mt) => .ok ⟨.ok, image, ⟨mt, (tree.numBlocks+1) % 2^32⟩⟩
      | .ok (_, mt) => pageError (ctx.cipherSz pgno) ⟨mt, tree.numBlocks⟩
  else .ok ⟨.ok, page, tree⟩

/-- HMAC and index are added behind the bytes that they cover. -/
lemma sealPage_ok {tree tree' : MtObj} {c : CipherCtx} {pgno : ℕ} {mem : ℕ → Bool}
    {page image : List UInt8} (hl : page.length = ctx.cipherSz pgno)
    (h : sealPage ctx H tree c pgno mem page = .ok ⟨.ok,image,tree'⟩) :
    image.length = ctx.cipherSz pgno ∧ macedOf ctx pgno image = macedOf ctx pgno page ∧
      (ctx.useHmac = true →
        pageHmac ctx c pgno (macedOf ctx pgno image) = some (macOf ctx pgno image) ∧
        indexOf ctx pgno image = tree.numBlocks % 2^32) ∧
      Appended ctx H mem tree tree' (tagOf ctx pgno image) := by
  unfold sealPage at h
  unfold Appended
  split_ifs at h ⊢ with hm
  · rcases hmac : pageHmac ctx c pgno (macedOf ctx pgno page) with _ | mac
    · simp [hmac, pageError] at h
    simp only [hmac] at h
    obtain ⟨hl', hmaced, hmacOf, hindex⟩ :=
      mac_layout hm tree.numBlocks hl (ctx.provider.hmac_length hmac)
    set img := overwrite (overwrite page (ctx.usable pgno + ctx.provider.ivSz) mac)
      (ctx.usable pgno + ctx.provider.ivSz + ctx.provider.hmacSz) (le32 tree.numBlocks)
    rcases hadd : mtAdd H mem tree.mt (tagOf ctx pgno img) with crash | ⟨r, mt⟩
    · simp [hadd] at h
    simp only [hadd] at h
    cases r with
    | success =>
      simp only [Except.ok.injEq, PageResult.mk.injEq, true_and] at h
      obtain ⟨rfl, rfl⟩ := h
      exact ⟨hl', hmaced, fun _ => ⟨by rw [hmaced, hmacOf, hmac], hindex⟩, hadd, rfl⟩
    | outOfMemory | illegalParam | illegalState | rootMismatch | unspecified =>
      simp [pageError] at h
  · simp only [Except.ok.injEq, PageResult.mk.injEq, true_and] at h
    obtain ⟨rfl, rfl⟩ := h
    exact ⟨hl, rfl, fun hm' => absurd hm' hm, rfl⟩

/-- A successful encryption emits a sealed page and appends its tag. -/
theorem encrypt_ok {tree tree' : MtObj} {forCtx : Bool} {pgno : ℕ} {env : Env ctx}
    {inp out image : List UInt8} (hi : inp.length = ctx.cipherSz pgno)
    (ho : out.length = ctx.cipherSz pgno)
    (h : sqlcipherPageCipher ctx H tree forCtx pgno .encrypt (ctx.cipherSz pgno) env inp out =
      .ok ⟨.ok,image,tree'⟩) :
    Sealed ctx (ctx.cipherCtx forCtx) pgno (tree.numBlocks % 2^32) (inp.take (ctx.usable pgno))
      image ∧ Appended ctx H env.mem tree tree' (tagOf ctx pgno image) := by
  have hs := usable_add_reserve ctx pgno
  have hsize : ctx.cipherSz pgno - ctx.reserveSz = ctx.usable pgno := by omega
  unfold sqlcipherPageCipher at h
  split_ifs at h with hk
  · simp [pageError] at h
  simp only [pageEncrypt, hsize] at h
  rcases hr : env.random with _ | ⟨r, hrl⟩
  · simp [hr, pageError] at h
  simp only [hr] at h
  rcases hc : ctx.provider.cipher .encrypt (ctx.cipherCtx forCtx).key
    (slice (ctx.usable pgno) ctx.provider.ivSz (overwrite out (ctx.usable pgno) r))
    (inp.take (ctx.usable pgno)) with _ | body
  · simp [hc, pageError] at h
  simp only [hc] at h
  have hb : body.length = ctx.usable pgno := by
    rw [ctx.provider.cipher_length hc, List.length_take]
    omega
  obtain ⟨hl, hbody, hiv⟩ := cipher_layout ho hrl hb
  obtain ⟨hl', hmaced, hmac, happ⟩ := sealPage_ok hl h
  refine ⟨⟨hl', ?_, fun hm => (hmac hm).1, fun hm => (hmac hm).2⟩, happ⟩
  rw [ivOf_eq_drop, bodyOf_eq_take, hmaced, ← ivOf_eq_drop, ← bodyOf_eq_take, hbody, hiv]
  exact hc

lemma keySz_ne_zero_of_ok {tree tree' : MtObj} {forCtx : Bool} {pgno pageSz : ℕ} {mode : CipherMode}
    {env : Env ctx} {inp out image : List UInt8}
    (h : sqlcipherPageCipher ctx H tree forCtx pgno mode pageSz env inp out =
      .ok ⟨.ok,image,tree'⟩) : ctx.keySz ≠ 0 := by
  intro hk
  simp [sqlcipherPageCipher, hk, pageError] at h

/-- The page is all zero and its HMAC does not match: taken for a read past the end of file. -/
def ShortRead (ctx : CodecCtx) (c : CipherCtx) (pgno : ℕ) (p : List UInt8) : Prop :=
  ∃ mac, pageHmac ctx c pgno (macedOf ctx pgno p) = some mac ∧ macOf ctx pgno p ≠ mac ∧
    p = List.replicate (ctx.cipherSz pgno) 0

/-- Both checks of a page pass: its HMAC, and its tag at its index in the tree. -/
def Authentic (ctx : CodecCtx) (H : MtHash → MtHash → MtHash) (tree : MtObj) (c : CipherCtx)
    (pgno : ℕ) (p : List UInt8) : Prop :=
  pageHmac ctx c pgno (macedOf ctx pgno p) = some (macOf ctx pgno p) ∧
    mtVerify H tree.mt (tagOf ctx pgno p) (indexOf ctx pgno p) = .ok .success

/-- Deciphering uses the vector copied from the page, and leaves the plaintext in front. -/
lemma pageDecipher_eq (tree : MtObj) {c : CipherCtx} {pgno : ℕ} {p page plain : List UInt8}
    (hp : p.length = ctx.cipherSz pgno) (hl : page.length = ctx.cipherSz pgno)
    (hiv : ivOf ctx pgno page = ivOf ctx pgno p)
    (hc : ctx.provider.cipher .decrypt c.key (ivOf ctx pgno p) (bodyOf ctx pgno p) = some plain) :
    ∃ r, pageDecipher ctx tree c (ctx.cipherSz pgno) p page = .ok ⟨.ok,r,tree⟩ ∧
      r.length = ctx.cipherSz pgno ∧ r.take (ctx.usable pgno) = plain := by
  have hs := usable_add_reserve ctx pgno
  have hsize : ctx.cipherSz pgno - ctx.reserveSz = ctx.usable pgno := by omega
  have hpl : plain.length = ctx.usable pgno := by
    rw [ctx.provider.cipher_length hc, bodyOf, List.length_take]
    omega
  rw [← hiv] at hc
  refine ⟨overwrite page 0 plain, ?_, ?_, ?_⟩
  · simp only [pageDecipher, hsize]
    rw [show slice (ctx.usable pgno) ctx.provider.ivSz page = ivOf ctx pgno page from rfl,
      show p.take (ctx.usable pgno) = bodyOf ctx pgno p from rfl, hc]
  · rw [overwrite_length _ _ (by omega), hl]
  · have hs0 : slice 0 (ctx.usable pgno) (overwrite page 0 plain) = plain :=
      slice_overwrite_self page plain hpl (by omega)
    simpa using hs0

lemma pageDecipher_none {tree : MtObj} {c : CipherCtx} {pgno : ℕ} {p page : List UInt8}
    (hiv : ivOf ctx pgno page = ivOf ctx pgno p)
    (hc : ctx.provider.cipher .decrypt c.key (ivOf ctx pgno p) (bodyOf ctx pgno p) = none) :
    pageDecipher ctx tree c (ctx.cipherSz pgno) p page = pageError (ctx.cipherSz pgno) tree := by
  have hs := usable_add_reserve ctx pgno
  have hsize : ctx.cipherSz pgno - ctx.reserveSz = ctx.usable pgno := by omega
  rw [← hiv] at hc
  simp only [pageDecipher, hsize]
  rw [show slice (ctx.usable pgno) ctx.provider.ivSz page = ivOf ctx pgno page from rfl,
    show p.take (ctx.usable pgno) = bodyOf ctx pgno p from rfl, hc]

/-- The buffer that decryption works on: vector and computed HMAC of the page. -/
lemma decrypt_buffer (hm : ctx.useHmac = true) {pgno : ℕ} {p out mac : List UInt8}
    (hp : p.length = ctx.cipherSz pgno) (ho : out.length = ctx.cipherSz pgno)
    (hl : mac.length = ctx.provider.hmacSz) :
    let page := overwrite (overwrite out (ctx.usable pgno) (ivOf ctx pgno p))
      (ctx.usable pgno + ctx.provider.ivSz) mac
    page.length = ctx.cipherSz pgno ∧ ivOf ctx pgno page = ivOf ctx pgno p := by
  have hs := usable_add_reserve ctx pgno
  have ht := trailer_le_reserve hm
  have hiv : (ivOf ctx pgno p).length = ctx.provider.ivSz := slice_length _ (by omega)
  have h1 : (overwrite out (ctx.usable pgno) (ivOf ctx pgno p)).length = ctx.cipherSz pgno := by
    rw [overwrite_length _ _ (by omega), ho]
  refine ⟨by rw [overwrite_length _ _ (by omega), h1], ?_⟩
  rw [ivOf, slice_overwrite_of_disjoint _ _ (by omega) (Or.inl le_rfl),
    slice_overwrite_self _ _ hiv (by omega)]

section Decrypt

variable {tree : MtObj} {forCtx : Bool} {pgno : ℕ} {env : Env ctx} {p out : List UInt8}

/-- Decryption with checks on, in terms of the parts of the page. -/
lemma decrypt_eq (hm : ctx.useHmac = true) (hskip : ctx.skipReadHmac = false) (hk : ctx.keySz ≠ 0) :
    sqlcipherPageCipher ctx H tree forCtx pgno .decrypt (ctx.cipherSz pgno) env p out =
      match pageHmac ctx (ctx.cipherCtx forCtx) pgno (macedOf ctx pgno p) with
      | none => pageError (ctx.cipherSz pgno) tree
      | some mac =>
        if macOf ctx pgno p ≠ mac then
          if p.take (ctx.cipherSz pgno) = List.replicate (ctx.cipherSz pgno) 0 then
            .ok ⟨.ok, List.replicate (ctx.cipherSz pgno) 0, tree⟩
          else pageError (ctx.cipherSz pgno) tree
        else
          match mtVerify H tree.mt (tagOf ctx pgno p) (indexOf ctx pgno p) with
          | .error crash => .error crash
          | .ok .success =>
            pageDecipher ctx tree (ctx.cipherCtx forCtx) (ctx.cipherSz pgno) p
              (overwrite (overwrite out (ctx.usable pgno) (ivOf ctx pgno p))
                (ctx.usable pgno + ctx.provider.ivSz) mac)
          | .ok _ => pageError (ctx.cipherSz pgno) tree := by
  have hs := usable_add_reserve ctx pgno
  have hsize : ctx.cipherSz pgno - ctx.reserveSz = ctx.usable pgno := by omega
  simp only [sqlcipherPageCipher, if_neg hk, pageDecrypt, hsize, hm, hskip, Bool.not_false,
    Bool.and_true, if_true]
  rfl

/-- With checks on, a decryption returns without error in two ways only. -/
theorem decrypt_ok {tree' : MtObj} {r : List UInt8} (hm : ctx.useHmac = true)
    (hskip : ctx.skipReadHmac = false) (hp : p.length = ctx.cipherSz pgno)
    (ho : out.length = ctx.cipherSz pgno)
    (h : sqlcipherPageCipher ctx H tree forCtx pgno .decrypt (ctx.cipherSz pgno) env p out =
      .ok ⟨.ok,r,tree'⟩) :
    ShortRead ctx (ctx.cipherCtx forCtx) pgno p ∧ r = List.replicate (ctx.cipherSz pgno) 0 ∨
      Authentic ctx H tree (ctx.cipherCtx forCtx) pgno p ∧
        ctx.provider.cipher .decrypt (ctx.cipherCtx forCtx).key (ivOf ctx pgno p)
          (bodyOf ctx pgno p) = some (r.take (ctx.usable pgno)) := by
  rw [decrypt_eq hm hskip (keySz_ne_zero_of_ok h)] at h
  rcases hmac : pageHmac ctx (ctx.cipherCtx forCtx) pgno (macedOf ctx pgno p) with _ | mac
  · simp [hmac, pageError] at h
  simp only [hmac] at h
  split_ifs at h with hne hz
  · left
    simp only [Except.ok.injEq, PageResult.mk.injEq, true_and] at h
    rw [← hp, List.take_length, hp] at hz
    exact ⟨⟨mac, hmac, hne, hz⟩, h.1.symm⟩
  · simp [pageError] at h
  · right
    simp only [ne_eq, not_not] at hne
    subst hne
    obtain ⟨hl, hiv⟩ := decrypt_buffer hm hp ho (ctx.provider.hmac_length hmac)
    rcases hv : mtVerify H tree.mt (tagOf ctx pgno p) (indexOf ctx pgno p) with crash | e
    · simp [hv] at h
    simp only [hv] at h
    cases e with
    | success =>
      refine ⟨⟨hmac, hv⟩, ?_⟩
      rcases hc : ctx.provider.cipher .decrypt (ctx.cipherCtx forCtx).key (ivOf ctx pgno p)
        (bodyOf ctx pgno p) with _ | plain
      · rw [pageDecipher_none hiv hc] at h
        simp [pageError] at h
      · obtain ⟨r', hr', -, htake⟩ := pageDecipher_eq tree hp hl hiv hc
        simp only [hr', Except.ok.injEq, PageResult.mk.injEq, true_and] at h
        rw [← h.1, htake]
    | outOfMemory => simp [pageError] at h
    | illegalParam => simp [pageError] at h
    | illegalState => simp [pageError] at h
    | rootMismatch => simp [pageError] at h
    | unspecified => simp [pageError] at h

variable (env out)

lemma decrypt_of_shortRead (hm : ctx.useHmac = true) (hskip : ctx.skipReadHmac = false)
    (hk : ctx.keySz ≠ 0) (h : ShortRead ctx (ctx.cipherCtx forCtx) pgno p) :
    sqlcipherPageCipher ctx H tree forCtx pgno .decrypt (ctx.cipherSz pgno) env p out =
      .ok ⟨.ok, List.replicate (ctx.cipherSz pgno) 0, tree⟩ := by
  obtain ⟨mac, hmac, hne, hz⟩ := h
  rw [decrypt_eq hm hskip hk, hmac]
  simp only [if_pos hne]
  rw [if_pos (by rw [hz]; simp)]

variable {out}

lemma decrypt_of_authentic {plain : List UInt8} (hm : ctx.useHmac = true)
    (hskip : ctx.skipReadHmac = false) (hk : ctx.keySz ≠ 0) (hp : p.length = ctx.cipherSz pgno)
    (ho : out.length = ctx.cipherSz pgno) (h : Authentic ctx H tree (ctx.cipherCtx forCtx) pgno p)
    (hc : ctx.provider.cipher .decrypt (ctx.cipherCtx forCtx).key (ivOf ctx pgno p)
      (bodyOf ctx pgno p) = some plain) :
    ∃ r, sqlcipherPageCipher ctx H tree forCtx pgno .decrypt (ctx.cipherSz pgno) env p out =
      .ok ⟨.ok,r,tree⟩ ∧ r.length = ctx.cipherSz pgno ∧ r.take (ctx.usable pgno) = plain := by
  obtain ⟨hmac, hv⟩ := h
  obtain ⟨hl, hiv⟩ := decrypt_buffer hm hp ho (ctx.provider.hmac_length hmac)
  rw [decrypt_eq hm hskip hk, hmac]
  simp only [hv, ne_eq, not_true_eq_false, if_false]
  exact pageDecipher_eq tree hp hl hiv hc

/-- Without the checks a page is only deciphered. -/
lemma decrypt_unchecked {plain : List UInt8} (hs : (ctx.useHmac && !ctx.skipReadHmac) = false)
    (hk : ctx.keySz ≠ 0) (hp : p.length = ctx.cipherSz pgno) (ho : out.length = ctx.cipherSz pgno)
    (hc : ctx.provider.cipher .decrypt (ctx.cipherCtx forCtx).key (ivOf ctx pgno p)
      (bodyOf ctx pgno p) = some plain) :
    ∃ r, sqlcipherPageCipher ctx H tree forCtx pgno .decrypt (ctx.cipherSz pgno) env p out =
      .ok ⟨.ok,r,tree⟩ ∧ r.length = ctx.cipherSz pgno ∧ r.take (ctx.usable pgno) = plain := by
  have hadd := usable_add_reserve ctx pgno
  have hsize : ctx.cipherSz pgno - ctx.reserveSz = ctx.usable pgno := by omega
  have hle := ivSz_le_reserve ctx
  have hiv : (ivOf ctx pgno p).length = ctx.provider.ivSz := slice_length _ (by omega)
  have hl : (overwrite out (ctx.usable pgno) (ivOf ctx pgno p)).length = ctx.cipherSz pgno := by
    rw [overwrite_length _ _ (by omega), ho]
  have hself : ivOf ctx pgno (overwrite out (ctx.usable pgno) (ivOf ctx pgno p)) =
      ivOf ctx pgno p :=
    slice_overwrite_self _ _ hiv (by omega)
  simp only [sqlcipherPageCipher, if_neg hk, pageDecrypt, hsize, hs, Bool.false_eq_true, if_false]
  exact pageDecipher_eq tree hp hl hself hc

end Decrypt

end IronSafe.Page
