import IronSafe.PageSeal

/-! Runs of page encryptions. Along every run the tree represents the tags of the pages
emitted so far, in order, and the index stored in each page is the position of its tag. -/
namespace IronSafe.Page
open Bytes Merkle RaggedTree

/-- One page emitted by an encryption: the context used, the page number, the plaintext
and the image. -/
structure Written where
  forCtx : Bool
  pgno : ℕ
  plain : List UInt8
  image : List UInt8

/-- Runs of `sqlcipher_page_cipher` in encryption mode from the empty tree. Opening the
database again sets the next index from the tree. -/
inductive EncRun (ctx : CodecCtx) (H : MtHash → MtHash → MtHash) : MtObj → List Written → Prop
  | create : EncRun ctx H ⟨mtCreate,0⟩ []
  | reopen {tree : MtObj} {log : List Written} (run : EncRun ctx H tree log) :
      EncRun ctx H ⟨tree.mt, mtGetSize tree.mt⟩ log
  | encrypted {tree tree' : MtObj} {log : List Written} {forCtx : Bool} {pgno : ℕ} {env : Env ctx}
      {inp out image : List UInt8} (run : EncRun ctx H tree log)
      (hi : inp.length = ctx.cipherSz pgno) (ho : out.length = ctx.cipherSz pgno)
      (h : sqlcipherPageCipher ctx H tree forCtx pgno .encrypt (ctx.cipherSz pgno) env inp out =
        .ok ⟨.ok,image,tree'⟩) :
      EncRun ctx H tree' (log ++ [⟨forCtx, pgno, inp.take (ctx.usable pgno), image⟩])

variable {ctx : CodecCtx} {H : MtHash → MtHash → MtHash}

/-- The tags that a run has appended to the tree. -/
def leafTags (ctx : CodecCtx) (log : List Written) : List (List UInt8) :=
  if ctx.useHmac then log.map (fun w => tagOf ctx w.pgno w.image) else []

/-- The leaves of the tree after a run. -/
def leaves (ctx : CodecCtx) (log : List Written) : List MtHash := (leafTags ctx log).map mtInitHash

@[simp] lemma leaves_length (ctx : CodecCtx) (log : List Written) :
    (leaves ctx log).length = (leafTags ctx log).length := by simp [leaves]

lemma leafTags_length (hm : ctx.useHmac = true) (log : List Written) :
    (leafTags ctx log).length = log.length := by simp [leafTags, hm]

lemma leafTags_append (hm : ctx.useHmac = true) (log : List Written) (w : Written) :
    leafTags ctx (log ++ [w]) = leafTags ctx log ++ [tagOf ctx w.pgno w.image] := by
  simp [leafTags, hm]

lemma leafTags_of_not (hm : ¬ ctx.useHmac = true) (log : List Written) : leafTags ctx log = [] := by
  simp [leafTags, hm]

/-- What holds between the tree and the pages emitted. -/
structure RunOk (ctx : CodecCtx) (H : MtHash → MtHash → MtHash) (tree : MtObj)
    (log : List Written) : Prop where
  rep : Represents H tree.mt (leaves ctx log)
  small : (leafTags ctx log).length < mtAlMaxElems
  numBlocks : ctx.useHmac = true → tree.numBlocks = log.length
  tags : ∀ t ∈ leafTags ctx log, t.length ≤ hashLength
  pages : ∀ i w, log[i]? = some w → Sealed ctx (ctx.cipherCtx w.forCtx) w.pgno i w.plain w.image
  key : log ≠ [] → ctx.keySz ≠ 0

lemma runOk_create : RunOk ctx H ⟨mtCreate,0⟩ [] where
  rep := by
    rw [show leaves ctx [] = [] by simp [leaves, leafTags]]
    exact represents_create
  small := by simp [leafTags, mtAlMaxElems]
  numBlocks _ := rfl
  tags := by simp [leafTags]
  pages := by simp
  key := by simp

lemma RunOk.reopen {tree : MtObj} {log : List Written} (h : RunOk ctx H tree log) :
    RunOk ctx H ⟨tree.mt, mtGetSize tree.mt⟩ log where
  rep := h.rep
  small := h.small
  numBlocks hm := by
    have hs := (h.rep.level 0 (by simp [treeLevels])).size
    rw [leaves_length, leafTags_length hm] at hs
    exact hs
  tags := h.tags
  pages := h.pages
  key := h.key

/-- The new page carries the index of its leaf. -/
lemma RunOk.pages_append {tree : MtObj} {log : List Written} (h : RunOk ctx H tree log)
    {w : Written}
    (hseal : Sealed ctx (ctx.cipherCtx w.forCtx) w.pgno (tree.numBlocks % 2^32) w.plain w.image)
    (hlt : ctx.useHmac = true → log.length < 2^32) : ∀ i v, (log ++ [w])[i]? = some v →
      Sealed ctx (ctx.cipherCtx v.forCtx) v.pgno i v.plain v.image := by
  intro i v hv
  rcases Nat.lt_trichotomy i log.length with hl | rfl | hl
  · rw [List.getElem?_append_left hl] at hv
    exact h.pages i v hv
  · rw [List.getElem?_concat_length] at hv
    cases hv
    exact hseal.reindex fun hm => by rw [h.numBlocks hm, Nat.mod_eq_of_lt (hlt hm)]
  · rw [List.getElem?_eq_none (by simp; omega)] at hv
    cases hv

/-- One successful encryption keeps the invariant. -/
lemma RunOk.encrypted {tree tree' : MtObj} {log : List Written} {forCtx : Bool} {pgno : ℕ}
    {env : Env ctx} {inp out image : List UInt8} (hrun : RunOk ctx H tree log)
    (hi : inp.length = ctx.cipherSz pgno) (ho : out.length = ctx.cipherSz pgno)
    (h : sqlcipherPageCipher ctx H tree forCtx pgno .encrypt (ctx.cipherSz pgno) env inp out =
      .ok ⟨.ok,image,tree'⟩) :
    RunOk ctx H tree' (log ++ [⟨forCtx, pgno, inp.take (ctx.usable pgno), image⟩]) := by
  obtain ⟨hseal, happ⟩ := encrypt_ok hi ho h
  have hkey := keySz_ne_zero_of_ok h
  set w : Written := ⟨forCtx, pgno, inp.take (ctx.usable pgno), image⟩ with hw
  have hpages := hrun.pages_append (w := w) hseal
  by_cases hm : ctx.useHmac = true
  · rw [Appended, if_pos hm] at happ
    obtain ⟨hadd, hnum⟩ := happ
    obtain ⟨hlt, htag⟩ := mtAdd_success_lt hrun.rep hadd
    have hlen : (leaves ctx log).length = log.length := by rw [leaves_length, leafTags_length hm]
    have hle : log.length + 1 < 2^32 := by simp only [mtAlMaxElems] at hlt; omega
    obtain ⟨r, mt', hr, -, hrep⟩ := mtAdd_spec env.mem hrun.rep hlt htag
    rw [hadd] at hr
    cases hr
    refine ⟨?_, ?_, fun _ => ?_, ?_, hpages fun _ => by omega, fun _ => hkey⟩
    · rw [leaves, leafTags_append hm, List.map_append]
      exact hrep rfl
    · rw [leafTags_length hm, List.length_append, List.length_singleton]
      omega
    · rw [hnum, hrun.numBlocks hm, Nat.mod_eq_of_lt hle, List.length_append, List.length_singleton]
    · intro t ht
      rw [leafTags_append hm, List.mem_append, List.mem_singleton] at ht
      rcases ht with ht | rfl
      · exact hrun.tags t ht
      · exact htag
  · rw [Appended, if_neg hm] at happ
    subst happ
    have hnil : leafTags ctx (log ++ [w]) = leafTags ctx log := by
      rw [leafTags_of_not hm, leafTags_of_not hm]
    refine ⟨?_, ?_, fun hc => absurd hc hm, ?_, hpages fun hc => absurd hc hm, fun _ => hkey⟩
    · rw [leaves, hnil]
      exact hrun.rep
    · rw [hnil]
      exact hrun.small
    · rw [hnil]
      exact hrun.tags

theorem EncRun.ok {tree : MtObj} {log : List Written} (run : EncRun ctx H tree log) :
    RunOk ctx H tree log := by
  induction run with
  | create => exact runOk_create
  | reopen _ ih => exact ih.reopen
  | encrypted _ hi ho h ih => exact ih.encrypted hi ho h

lemma RunOk.tag_length {tree : MtObj} {log : List Written} (h : RunOk ctx H tree log)
    {t : List UInt8} (ht : t ∈ leafTags ctx log) : t.length = ctx.provider.hmacSz/2 := by
  by_cases hm : ctx.useHmac = true
  · rw [leafTags, if_pos hm, List.mem_map] at ht
    obtain ⟨w, hw, rfl⟩ := ht
    obtain ⟨i, hi⟩ := List.mem_iff_getElem?.mp hw
    exact (h.pages i w hi).tag_length hm
  · rw [leafTags_of_not hm] at ht
    cases ht

lemma mtVerify_tag_length {mt : Mt} {tag : List UInt8} {i : ℕ}
    (hv : mtVerify H mt tag i = .ok .success) : tag.length ≤ hashLength := by
  by_contra hlong
  rw [mtVerify, if_neg (by omega)] at hv
  cases hv

/-- An accepted tag is the tag stored at the index. -/
lemma RunOk.verify_sound {tree : MtObj} {log : List Written} (h : RunOk ctx H tree log)
    {tag : List UInt8} (ht : tag.length = ctx.provider.hmacSz/2) {i : ℕ}
    (hc : NoCollision H (leaves ctx log) i (mtInitHash tag))
    (hv : mtVerify H tree.mt tag i = .ok .success) : (leafTags ctx log)[i]? = some tag := by
  have hlen := mtVerify_tag_length hv
  have hleaf := mtVerify_sound h.rep (by rw [leaves_length]; exact h.small) hlen hc hv
  rw [leaves, List.getElem?_map, Option.map_eq_some_iff] at hleaf
  obtain ⟨t, ht', heq⟩ := hleaf
  have hl := h.tag_length (List.mem_of_getElem? ht')
  rw [ht', mtInitHash_injective (by omega) (by omega) heq]

lemma RunOk.verify_complete {tree : MtObj} {log : List Written} (h : RunOk ctx H tree log)
    {tag : List UInt8} {i : ℕ} (hi : (leafTags ctx log)[i]? = some tag) :
    mtVerify H tree.mt tag i = .ok .success :=
  mtVerify_complete h.rep (by rw [leaves_length]; exact h.small)
    (h.tags tag (List.mem_of_getElem? hi)) (by rw [leaves, List.getElem?_map, hi]; rfl)

/-- A provider whose calls never fail. -/
structure Provider.Total (provider : Provider) : Prop where
  hmac : ∀ k x p, ∃ h, provider.hmac k x p = some h
  cipher : ∀ m k iv x, ∃ y, provider.cipher m k iv x = some y

/-- Below the leaf limit an encryption succeeds whenever its provider does and memory is
available. -/
lemma RunOk.encrypt_succeeds {tree : MtObj} {log : List Written} (hrun : RunOk ctx H tree log)
    (htot : ctx.provider.Total) (hk : ctx.keySz ≠ 0) (ht : ctx.provider.hmacSz/2 ≤ hashLength)
    (hn : log.length + 1 < mtAlMaxElems) (env : Env ctx) (hr : env.random ≠ none)
    (hmem : ∀ k, env.mem k = true) (forCtx : Bool) (pgno : ℕ) (inp out : List UInt8) :
    ∃ image tree', sqlcipherPageCipher ctx H tree forCtx pgno .encrypt (ctx.cipherSz pgno) env
      inp out = .ok ⟨.ok,image,tree'⟩ := by
  obtain ⟨r, hr⟩ := Option.ne_none_iff_exists'.mp hr
  simp only [sqlcipherPageCipher, if_neg hk, pageEncrypt, hr]
  obtain ⟨body, hb⟩ := htot.cipher .encrypt (ctx.cipherCtx forCtx).key
    (slice (ctx.cipherSz pgno - ctx.reserveSz) ctx.provider.ivSz
      (overwrite out (ctx.cipherSz pgno - ctx.reserveSz) r.val))
    (inp.take (ctx.cipherSz pgno - ctx.reserveSz))
  simp only [hb]
  split_ifs with hm
  · obtain ⟨mac, hmac⟩ := htot.hmac (ctx.cipherCtx forCtx).hmacKey
      ((overwrite (overwrite out (ctx.cipherSz pgno - ctx.reserveSz) r.val) 0 body).take
        (ctx.cipherSz pgno - ctx.reserveSz + ctx.provider.ivSz)) (pgnoRaw ctx pgno)
    simp only [pageHmac, hmac]
    generalize hout : overwrite (overwrite (overwrite (overwrite out _ r.val) 0 body) _ mac) _
      (le32 tree.numBlocks) = page
    have hlen : (slice (ctx.cipherSz pgno - ctx.reserveSz + ctx.provider.ivSz)
        (ctx.provider.hmacSz/2) page).length ≤ hashLength := (List.length_take_le _ _).trans ht
    have hlt : (leaves ctx log).length + 1 < mtAlMaxElems := by
      rw [leaves_length, leafTags_length hm]
      exact hn
    obtain ⟨e, mt', hadd, hall, -⟩ := mtAdd_spec env.mem hrun.rep hlt hlen
    rw [hadd, hall hmem]
    exact ⟨_, _, rfl⟩
  · exact ⟨_, _, rfl⟩

/-- Every sequence of pages below the leaf limit can be encrypted in a run. -/
theorem exists_run (ctx : CodecCtx) (H : MtHash → MtHash → MtHash) (htot : ctx.provider.Total)
    (hk : ctx.keySz ≠ 0) (ht : ctx.provider.hmacSz/2 ≤ hashLength) (pages : List (ℕ × List UInt8))
    (hlen : ∀ p ∈ pages, p.2.length = ctx.cipherSz p.1) (hn : pages.length < mtAlMaxElems) :
    ∃ tree log, EncRun ctx H tree log ∧
      log.map (fun w => (w.pgno, w.plain)) =
        pages.map (fun p => (p.1, p.2.take (ctx.usable p.1))) := by
  induction pages using List.reverseRecOn with
  | nil => exact ⟨_, _, .create, rfl⟩
  | append_singleton pages p ih =>
    rw [List.length_append, List.length_singleton] at hn
    obtain ⟨tree, log, hrun, hlog⟩ := ih (fun q hq => hlen q (by simp [hq])) (by omega)
    have hl : log.length = pages.length := by simpa using congrArg List.length hlog
    let env : Env ctx := ⟨some ⟨List.replicate ctx.reserveSz 0, by simp⟩, fun _ => true⟩
    obtain ⟨image, tree', h⟩ := hrun.ok.encrypt_succeeds htot hk ht (by omega) env (by simp [env])
      (fun _ => rfl) true p.1 p.2 (List.replicate (ctx.cipherSz p.1) 0)
    exact ⟨_, _, hrun.encrypted (hlen p (by simp)) (by simp) h, by simp [hlog]⟩

/-- The freshness check of decryption is exact: it accepts a tag at an index if and only
if that leaf exists and holds the tag, and no lookup on its path is missing. -/
theorem freshness_check_exact {tree : MtObj} {log : List Written} (run : EncRun ctx H tree log)
    {tag : List UInt8} (ht : tag.length = ctx.provider.hmacSz/2) {i : ℕ}
    (hc : NoCollision H (leaves ctx log) i (mtInitHash tag)) :
    (mtVerify H tree.mt tag i = .ok .success ↔
        ∃ h : i < (leafTags ctx log).length, tag = (leafTags ctx log)[i]) ∧
      (i < (leafTags ctx log).length → PathPresent tree.mt (leafTags ctx log).length i) := by
  have ok := run.ok
  refine ⟨⟨fun hv => ?_, fun ⟨hi, heq⟩ => ?_⟩, fun hi => ?_⟩
  · obtain ⟨hi, heq⟩ := List.getElem?_eq_some_iff.mp (ok.verify_sound ht hc hv)
    exact ⟨hi, heq.symm⟩
  · exact ok.verify_complete (List.getElem?_eq_some_iff.mpr ⟨hi, heq.symm⟩)
  · rw [← leaves_length]
    exact ok.rep.pathPresent (by rw [leaves_length]; exact ok.small)
      (by rw [leaves_length]; exact hi)

/-- Decryption undoes encryption under the same key and vector. -/
def Provider.Inverts (provider : Provider) : Prop :=
  ∀ k iv x y, provider.cipher .encrypt k iv x = some y → provider.cipher .decrypt k iv y = some x

lemma cipherCtx_eq (hkeys : ctx.readCtx = ctx.writeCtx) (a b : Bool) :
    ctx.cipherCtx a = ctx.cipherCtx b := by
  cases a <;> cases b <;> simp [CodecCtx.cipherCtx, hkeys]

/-- A page emitted in a run passes both checks in the state reached, and deciphers to its
plaintext. -/
lemma RunOk.page_authentic {tree : MtObj} {log : List Written} (h : RunOk ctx H tree log)
    (hm : ctx.useHmac = true) {i : ℕ} {w : Written} (hw : log[i]? = some w) :
    Authentic ctx H tree (ctx.cipherCtx w.forCtx) w.pgno w.image := by
  have hpage := h.pages i w hw
  refine ⟨hpage.mac hm, ?_⟩
  rw [hpage.index hm]
  exact h.verify_complete (by rw [leafTags, if_pos hm, List.getElem?_map, hw]; rfl)

lemma RunOk.page_readable {tree : MtObj} {log : List Written} (h : RunOk ctx H tree log)
    (hinv : ctx.provider.Inverts) (hkeys : ctx.readCtx = ctx.writeCtx) {w : Written} (hw : w ∈ log)
    (forCtx : Bool) (env : Env ctx) {out : List UInt8} (ho : out.length = ctx.cipherSz w.pgno) :
    ∃ r, sqlcipherPageCipher ctx H tree forCtx w.pgno .decrypt (ctx.cipherSz w.pgno)
      env w.image out =
      .ok ⟨.ok,r,tree⟩ ∧ r.length = ctx.cipherSz w.pgno ∧ r.take (ctx.usable w.pgno) = w.plain := by
  obtain ⟨i, hi⟩ := List.mem_iff_getElem?.mp hw
  have hpage := h.pages i w hi
  have hk := h.key (List.ne_nil_of_mem hw)
  have hc := hinv _ _ _ _ hpage.cipher
  rw [cipherCtx_eq hkeys w.forCtx forCtx] at hc
  by_cases hs : (ctx.useHmac && !ctx.skipReadHmac) = true
  · simp only [Bool.and_eq_true, Bool.not_eq_true'] at hs
    have hauth := h.page_authentic hs.1 hi
    rw [cipherCtx_eq hkeys w.forCtx forCtx] at hauth
    exact decrypt_of_authentic _ hs.1 hs.2 hk hpage.length ho hauth hc
  · exact decrypt_unchecked _ (by simpa using hs) hk hpage.length ho hc

/-- A provider with the sizes of AES-256 and HMAC-SHA512: the cipher masks every byte, the
HMAC is the page number followed by the first bytes of its input. -/
def sampleProvider : Provider where
  ivSz := 16
  blockSz := 16
  hmacSz := 64
  hmac _ x p := some ((p ++ x ++ List.replicate 64 0).take 64)
  cipher _ _ _ x := some (x.map (· ^^^ 0x5a))
  blockSz_pos := by decide
  hmac_length h := by
    cases h
    simp
    omega
  cipher_length h := by
    cases h
    simp

def sampleCtx : CodecCtx where
  provider := sampleProvider
  pageSz := 512
  keySz := 32
  plaintextHeaderSz := 0
  useHmac := true
  lePgno := true
  bePgno := false
  skipReadHmac := false
  readCtx := ⟨List.replicate 32 1, List.replicate 32 2⟩
  writeCtx := ⟨List.replicate 32 1, List.replicate 32 2⟩
  kdfSalt := List.replicate 16 3
  kdfSalt_length := rfl
  fits := by decide

lemma sampleProvider_total : sampleProvider.Total where
  hmac _ _ _ := ⟨_, rfl⟩
  cipher _ _ _ _ := ⟨_, rfl⟩

lemma sampleProvider_inverts : sampleProvider.Inverts := by
  intro k iv x y h
  cases h
  simp [sampleProvider, Function.comp_def]

def xorHash (a b : MtHash) : MtHash := ⟨List.zipWith (· ^^^ ·) a.val b.val, by simp [a.2, b.2]⟩

lemma xorHash_comm (a b : MtHash) : xorHash a b = xorHash b a :=
  Subtype.ext (by simp only [xorHash]; rw [List.zipWith_comm]; simp only [UInt8.xor_comm])

lemma zipWith_xor_cancel (s x y : List UInt8) (hx : x.length = s.length) (hy : y.length = s.length)
    (h : List.zipWith (· ^^^ ·) s x = List.zipWith (· ^^^ ·) s y) : x = y := by
  apply List.ext_getElem (by omega)
  intro i h1 h2
  have := congrArg (fun l => l[i]?) h
  simpa [List.getElem?_zipWith, h1, h2, show i < s.length by omega] using this

lemma xorHash_left_cancel (a b c : MtHash) (h : xorHash a b = xorHash a c) : b = c :=
  Subtype.ext (zipWith_xor_cancel a.val b.val c.val (by rw [a.2, b.2]) (by rw [a.2, c.2])
    (congrArg Subtype.val h))

lemma noCollision_xorHash (ls : List MtHash) (i : ℕ) (d : MtHash) : NoCollision xorHash ls i d :=
  fun _ _ l _ => pathPair_cancel xorHash xorHash_left_cancel
    (fun a b c h => xorHash_left_cancel c a b (by rw [xorHash_comm c a, h, xorHash_comm b c]))
      ls i l

/-- A tree with one leaf. -/
lemma exists_one_leaf : ∃ mt, mtAdd xorHash (fun _ => true) mtCreate [1] = .ok (.success,mt) ∧
    Represents xorHash mt [mtInitHash [1]] := by
  obtain ⟨r, mt, hadd, hall, hrep⟩ := mtAdd_spec (H := xorHash) (fun _ => true) represents_create
    (show [].length + 1 < mtAlMaxElems by decide) (show [1].length ≤ hashLength by decide)
  obtain rfl := hall fun _ => rfl
  exact ⟨mt, hadd, hrep rfl⟩

def samplePage (pgno : ℕ) (b : UInt8) : ℕ × List UInt8 :=
  (pgno, List.replicate (sampleCtx.cipherSz pgno) b)

/-- Pages with the given numbers, each filled with one byte, can be encrypted one after the other. -/
lemma exists_sampleRun (pages : List (ℕ × UInt8)) (hn : pages.length < mtAlMaxElems) :
    ∃ tree log, EncRun sampleCtx xorHash tree log ∧ log.length = pages.length ∧
      log.map (fun w => (w.pgno, w.plain)) =
        pages.map fun p => (p.1, (samplePage p.1 p.2).2.take (sampleCtx.usable p.1)) := by
  have hlen : ∀ p ∈ pages.map fun p => samplePage p.1 p.2, p.2.length = sampleCtx.cipherSz p.1 := by
    simp only [List.forall_mem_map]
    exact fun p _ => List.length_replicate
  obtain ⟨tree, log, run, hlog⟩ := exists_run sampleCtx xorHash sampleProvider_total (by decide)
    (by decide) (pages.map fun p => samplePage p.1 p.2) hlen (by simpa using hn)
  rw [List.map_map] at hlog
  exact ⟨tree, log, run, by simpa using congrArg List.length hlog, hlog⟩

/-- Three encryptions; the check accepts the tag of the last page at its own index only. -/
theorem freshness_check_exact_three : ∃ tree log, EncRun sampleCtx xorHash tree log ∧
    ∃ h : 2 < (leafTags sampleCtx log).length,
      mtVerify xorHash tree.mt (leafTags sampleCtx log)[2] 2 = .ok .success ∧
        mtVerify xorHash tree.mt (leafTags sampleCtx log)[2] 3 ≠ .ok .success := by
  obtain ⟨tree, log, run, hl, -⟩ := exists_sampleRun [(2,1), (1,2), (2,3)] (by decide)
  have hl : (leafTags sampleCtx log).length = 3 := (leafTags_length rfl log).trans hl
  have h2 : 2 < (leafTags sampleCtx log).length := by omega
  have ht := run.ok.tag_length (List.getElem_mem h2)
  refine ⟨tree, log, run, h2, ?_, ?_⟩
  · exact (freshness_check_exact run ht (noCollision_xorHash _ 2 _)).1.mpr ⟨h2, rfl⟩
  · intro hv
    obtain ⟨h3, -⟩ := (freshness_check_exact run ht (noCollision_xorHash _ 3 _)).1.mp hv
    omega

end IronSafe.Page
