import IronSafe.PageRuns

/-! Outcomes of page encryptions in full: what a call leaves behind when an allocation fails, and
where a long run ends. -/
namespace IronSafe.Page
open Bytes Merkle RaggedTree

/-- One call of `sqlcipher_page_cipher` in encryption mode. -/
structure EncCall (ctx : CodecCtx) where
  forCtx : Bool
  pgno : ℕ
  env : Env ctx
  inp : List UInt8
  out : List UInt8
  inp_length : inp.length = ctx.cipherSz pgno
  out_length : out.length = ctx.cipherSz pgno

variable {ctx : CodecCtx}

def EncCall.run (call : EncCall ctx) (H : MtHash → MtHash → MtHash) (tree : MtObj) :
    Except Crash PageResult :=
  sqlcipherPageCipher ctx H tree call.forCtx call.pgno .encrypt (ctx.cipherSz call.pgno)
    call.env call.inp call.out

/-- The page with the random bytes and the ciphertext, if the call gets so far. -/
def EncCall.page? (call : EncCall ctx) : Option (List UInt8) :=
  if ctx.keySz = 0 then none
  else match call.env.random with
  | none => none
  | some r =>
    let page := overwrite call.out (ctx.usable call.pgno) r.val
    (ctx.provider.cipher .encrypt (ctx.cipherCtx call.forCtx).key (ivOf ctx call.pgno page)
      (call.inp.take (ctx.usable call.pgno))).map (overwrite page 0)

/-- The tag that the call hands to `mt_add`, if it gets there. -/
def EncCall.tag? (call : EncCall ctx) : Option (List UInt8) :=
  if ctx.useHmac then
    match call.page? with
    | none => none
    | some page =>
      (pageHmac ctx (ctx.cipherCtx call.forCtx) call.pgno (macedOf ctx call.pgno page)).map
        fun mac => mac.take (ctx.provider.hmacSz/2)
  else none

/-- The call gets to `mt_add` with a tag that is accepted. -/
def EncCall.reaches (call : EncCall ctx) : Bool :=
  match call.tag? with
  | none => false
  | some tag => tag.length ≤ hashLength

/-- The end of an encryption, after `mt_add`. -/
def afterAdd (ctx : CodecCtx) (pgno : ℕ) (tree : MtObj) (image : List UInt8) :
    Except Crash (MtError × Mt) → Except Crash PageResult
  | .error crash => .error crash
  | .ok (.success, mt) => .ok ⟨.ok, image, ⟨mt, (tree.numBlocks+1) % 2^32⟩⟩
  | .ok (_, mt) => pageError (ctx.cipherSz pgno) ⟨mt, tree.numBlocks⟩

section Call

variable {H : MtHash → MtHash → MtHash} {call : EncCall ctx} {tree : MtObj}

lemma EncCall.reaches_iff :
    call.reaches = true ↔ ∃ tag, call.tag? = some tag ∧ tag.length ≤ hashLength := by
  cases h : call.tag? <;> simp [EncCall.reaches, h]

lemma tagOf_eq_take (pgno : ℕ) (image : List UInt8) :
    tagOf ctx pgno image = (macOf ctx pgno image).take (ctx.provider.hmacSz/2) := by
  rw [tagOf, macOf, slice, slice, List.take_take, Nat.min_eq_left (Nat.div_le_self _ _)]

/-- The end of an encryption in terms of the tag. -/
lemma sealPage_eq (hm : ctx.useHmac = true) {c : CipherCtx} {pgno : ℕ} {mem : ℕ → Bool}
    {page mac : List UInt8} (hl : page.length = ctx.cipherSz pgno)
    (hmac : pageHmac ctx c pgno (macedOf ctx pgno page) = some mac) :
    ∃ image, sealPage ctx H tree c pgno mem page =
      afterAdd ctx pgno tree image (mtAdd H mem tree.mt (mac.take (ctx.provider.hmacSz/2))) := by
  have hlayout := mac_layout hm tree.numBlocks hl (ctx.provider.hmac_length hmac)
  set image := overwrite (overwrite page (ctx.usable pgno + ctx.provider.ivSz) mac)
    (ctx.usable pgno + ctx.provider.ivSz + ctx.provider.hmacSz) (le32 tree.numBlocks) with himage
  have htag : tagOf ctx pgno image = mac.take (ctx.provider.hmacSz/2) := by
    rw [tagOf_eq_take, hlayout.2.2.1]
  refine ⟨image, ?_⟩
  rw [sealPage, if_pos hm, hmac]
  simp only [← himage, htag]
  rfl

/-- An encryption up to the point where the page holds the ciphertext. -/
lemma EncCall.run_eq (H : MtHash → MtHash → MtHash) (tree : MtObj) : call.run H tree =
    match call.page? with
    | none => pageError (ctx.cipherSz call.pgno) tree
    | some page => sealPage ctx H tree (ctx.cipherCtx call.forCtx) call.pgno call.env.mem page := by
  by_cases hk : ctx.keySz = 0
  · rw [EncCall.run, sqlcipherPageCipher, if_pos hk, EncCall.page?, if_pos hk]
  have hs := usable_add_reserve ctx call.pgno
  have hsize : ctx.cipherSz call.pgno - ctx.reserveSz = ctx.usable call.pgno := by omega
  simp only [EncCall.run, sqlcipherPageCipher, EncCall.page?, if_neg hk, pageEncrypt, hsize]
  rcases call.env.random with _ | r
  · rfl
  simp only [ivOf]
  rcases ctx.provider.cipher .encrypt (ctx.cipherCtx call.forCtx).key
    (slice (ctx.usable call.pgno) ctx.provider.ivSz
      (overwrite call.out (ctx.usable call.pgno) r.val))
    (call.inp.take (ctx.usable call.pgno)) with _ | body <;> rfl

lemma EncCall.page?_length {page : List UInt8} (h : call.page? = some page) :
    page.length = ctx.cipherSz call.pgno := by
  rw [EncCall.page?] at h
  split_ifs at h
  rcases hr : call.env.random with _ | ⟨r, hrl⟩
  · simp [hr] at h
  simp only [hr, Option.map_eq_some_iff] at h
  obtain ⟨body, hc, rfl⟩ := h
  have hb : body.length = ctx.usable call.pgno := by
    have hs := usable_add_reserve ctx call.pgno
    rw [ctx.provider.cipher_length hc, List.length_take, call.inp_length]
    omega
  exact (cipher_layout call.out_length hrl hb).1

/-- A call that does not get to `mt_add` leaves the tree as it was. -/
lemma EncCall.run_of_none (hm : ctx.useHmac = true) (h : call.tag? = none) :
    call.run H tree = pageError (ctx.cipherSz call.pgno) tree := by
  rw [EncCall.run_eq]
  rcases hp : call.page? with _ | page
  · rfl
  simp only [EncCall.tag?, if_pos hm, hp, Option.map_eq_none_iff] at h
  dsimp only
  rw [sealPage, if_pos hm, h]

/-- A call that gets to `mt_add` ends as that does. -/
lemma EncCall.run_of_some (H : MtHash → MtHash → MtHash) (tree : MtObj) {tag : List UInt8}
    (h : call.tag? = some tag) :
    tag.length = ctx.provider.hmacSz/2 ∧
      ∃ image, call.run H tree =
        afterAdd ctx call.pgno tree image (mtAdd H call.env.mem tree.mt tag) := by
  rw [EncCall.tag?] at h
  split_ifs at h with hm
  rw [EncCall.run_eq]
  rcases hp : call.page? with _ | page
  · simp [hp] at h
  simp only [hp, Option.map_eq_some_iff] at h
  obtain ⟨mac, hmac, rfl⟩ := h
  refine ⟨?_, sealPage_eq hm (EncCall.page?_length hp) hmac⟩
  rw [List.length_take, ctx.provider.hmac_length hmac]
  omega

/-- Without HMACs a page is only enciphered. -/
lemma EncCall.run_unchecked (call : EncCall ctx) (hm : ¬ ctx.useHmac = true)
    (H : MtHash → MtHash → MtHash) (tree : MtObj) : call.run H tree = match call.page? with
      | none => pageError (ctx.cipherSz call.pgno) tree
      | some page => .ok ⟨.ok, page, tree⟩ := by
  rw [EncCall.run_eq]
  rcases call.page? with _ | page
  · rfl
  · exact if_neg hm

lemma EncCall.run_refused {tag : List UInt8} (h : call.tag? = some tag)
    (ht : hashLength < tag.length) : call.run H tree = pageError (ctx.cipherSz call.pgno) tree := by
  obtain ⟨-, image, hrun⟩ := EncCall.run_of_some H tree h
  rw [hrun, mtAdd, if_pos ht]
  rfl

/-- At the limit a call that gets to `mt_add` ends the process. -/
lemma EncCall.run_at_limit {ls : List MtHash} (h : call.reaches = true)
    (hrep : Represents H tree.mt ls) (hn : mtAlMaxElems ≤ ls.length + 1) :
    call.run H tree = .error .assertion := by
  obtain ⟨tag, htag, ht⟩ := EncCall.reaches_iff.mp h
  obtain ⟨-, image, hrun⟩ := EncCall.run_of_some H tree htag
  rw [hrun, mtAdd_at_limit call.env.mem hrep hn ht]
  rfl

/-- With HMACs on, a call that appends no leaf fails and leaves the tree as it was. -/
lemma EncCall.run_of_not_reaches (hm : ctx.useHmac = true) (h : ¬ call.reaches = true) :
    call.run H tree = pageError (ctx.cipherSz call.pgno) tree := by
  rw [EncCall.reaches_iff] at h
  rcases htag : call.tag? with _ | tag
  · exact EncCall.run_of_none hm htag
  · exact EncCall.run_refused htag (Nat.lt_of_not_le fun ht => h ⟨tag, htag, ht⟩)

/-- A call that appends no leaf returns with the tree as it was. -/
lemma EncCall.run_keeps_tree (H : MtHash → MtHash → MtHash) (tree : MtObj)
    (h : ¬ call.reaches = true) : ∃ rc image, call.run H tree = .ok ⟨rc,image,tree⟩ := by
  by_cases hm : ctx.useHmac = true
  · exact ⟨_, _, EncCall.run_of_not_reaches hm h⟩
  · rw [call.run_unchecked hm]
    rcases call.page? with _ | page
    · exact ⟨_, _, rfl⟩
    · exact ⟨_, _, rfl⟩

/-- With total functions and random bytes a call gets to `mt_add`. -/
lemma EncCall.tag?_of_total (call : EncCall ctx) (htot : ctx.provider.Total) (hk : ctx.keySz ≠ 0)
    (hm : ctx.useHmac = true) (hr : call.env.random ≠ none) :
    ∃ tag, call.tag? = some tag ∧ tag.length = ctx.provider.hmacSz/2 := by
  obtain ⟨r, hr⟩ := Option.ne_none_iff_exists'.mp hr
  obtain ⟨body, hc⟩ := htot.cipher .encrypt (ctx.cipherCtx call.forCtx).key
    (ivOf ctx call.pgno (overwrite call.out (ctx.usable call.pgno) r.val))
      (call.inp.take (ctx.usable call.pgno))
  have hpage :
      call.page? = some (overwrite (overwrite call.out (ctx.usable call.pgno) r.val) 0 body) := by
    simp [EncCall.page?, hk, hr, hc]
  obtain ⟨mac, hmac⟩ : ∃ mac,
    pageHmac ctx (ctx.cipherCtx call.forCtx) call.pgno (macedOf ctx call.pgno
      (overwrite (overwrite call.out (ctx.usable call.pgno) r.val) 0 body)) = some mac :=
      htot.hmac _ _ _
  have htag : call.tag? = some (mac.take (ctx.provider.hmacSz/2)) := by
    simp [EncCall.tag?, hm, hpage, hmac]
  exact ⟨_, htag, (EncCall.run_of_some (fun x _ => x) ⟨mtCreate,0⟩ htag).1⟩

end Call

/-- The tree is well formed over its leaves, and the index of the next page is their number. -/
structure Ready (H : MtHash → MtHash → MtHash) (tree : MtObj) (ls : List MtHash) : Prop where
  rep : Represents H tree.mt ls
  numBlocks : tree.numBlocks = ls.length

/-- An encryption appends one leaf at the index stored in the page, or fails and changes nothing. -/
def EncCall.Atomic (call : EncCall ctx) (H : MtHash → MtHash → MtHash) (tree : MtObj)
    (ls : List MtHash) : Prop :=
  (∃ image tree', call.run H tree = .ok ⟨.ok,image,tree'⟩ ∧
    indexOf ctx call.pgno image = ls.length ∧
      Ready H tree' (ls ++ [mtInitHash (tagOf ctx call.pgno image)])) ∨
    ∃ image, call.run H tree = .ok ⟨.error,image,tree⟩

/-- The next page that is encrypted passes the checks that are made when it is read. -/
def EncCall.NextReads (call : EncCall ctx) (H : MtHash → MtHash → MtHash) (tree : MtObj) : Prop :=
  ∀ r, call.run H tree = .ok r → ∀ (next : EncCall ctx) image tree',
    next.run H r.tree = .ok ⟨.ok,image,tree'⟩ →
    ctx.useHmac = true → Authentic ctx H tree' (ctx.cipherCtx next.forCtx) next.pgno image

section Atomic

variable {H : MtHash → MtHash → MtHash} {call : EncCall ctx} {tree : MtObj} {ls : List MtHash}

/-- A successful encryption in a ready state. -/
lemma Ready.encrypted (h : Ready H tree ls) (hm : ctx.useHmac = true) {image : List UInt8}
    {tree' : MtObj} (hrun : call.run H tree = .ok ⟨.ok,image,tree'⟩) :
    pageHmac ctx (ctx.cipherCtx call.forCtx) call.pgno (macedOf ctx call.pgno image) =
        some (macOf ctx call.pgno image) ∧
      indexOf ctx call.pgno image = ls.length ∧ (tagOf ctx call.pgno image).length ≤ hashLength ∧
      ls.length + 1 < mtAlMaxElems ∧
        Ready H tree' (ls ++ [mtInitHash (tagOf ctx call.pgno image)]) := by
  have hmax : mtAlMaxElems = 4194304 := rfl
  obtain ⟨hseal, happ⟩ := encrypt_ok call.inp_length call.out_length hrun
  rw [Appended, if_pos hm] at happ
  obtain ⟨hadd, hnum⟩ := happ
  obtain ⟨hlt, ht⟩ := mtAdd_success_lt h.rep hadd
  obtain ⟨r, mt', hr, -, hrep⟩ := mtAdd_spec call.env.mem h.rep hlt ht
  rw [hadd] at hr
  cases hr
  refine ⟨hseal.mac hm, ?_, ht, hlt, hrep rfl, ?_⟩
  · rw [hseal.index hm, h.numBlocks, Nat.mod_eq_of_lt (by omega)]
  · rw [hnum, h.numBlocks, List.length_append, List.length_singleton, Nat.mod_eq_of_lt (by omega)]

lemma Ready.authentic (h : Ready H tree ls) (hm : ctx.useHmac = true) {image : List UInt8}
    {tree' : MtObj} (hrun : call.run H tree = .ok ⟨.ok,image,tree'⟩) :
    Authentic ctx H tree' (ctx.cipherCtx call.forCtx) call.pgno image := by
  obtain ⟨hmac, hindex, ht, hlt, hready⟩ := h.encrypted hm hrun
  refine ⟨hmac, ?_⟩
  rw [hindex]
  exact mtVerify_complete hready.rep (by rw [List.length_append, List.length_singleton]; exact hlt)
    ht (by simp)

lemma EncCall.Atomic.nextReads (h : call.Atomic H tree ls) (hready : Ready H tree ls) :
    call.NextReads H tree := by
  intro r hr next image tree' hnext hm
  rcases h with ⟨page, after, hrun, -, hafter⟩ | ⟨page, hrun⟩
  · rw [hrun] at hr
    cases hr
    exact hafter.authentic hm hnext
  · rw [hrun] at hr
    cases hr
    exact hready.authentic hm hnext

/-- Below the limit a call with an accepted tag is atomic unless memory runs out above the leaf. -/
lemma Ready.atomic_iff (h : Ready H tree ls) (hm : ctx.useHmac = true) {tag : List UInt8}
    (htag : call.tag? = some tag) (ht : tag.length ≤ hashLength)
    (hn : ls.length + 1 < mtAlMaxElems) : call.Atomic H tree ls ↔
      ((Grows ls.length → call.env.mem 0 = true) → ∀ l, ¬ Starves call.env.mem ls.length l) := by
  obtain ⟨-, image, hrun⟩ := EncCall.run_of_some H tree htag
  obtain ⟨r, mt', hadd, hiff, -, hleaf, hkeep⟩ := mtAdd_outcome call.env.mem h.rep hn ht
  rw [hadd] at hrun
  by_cases hr : r = .success
  · subst hr
    exact iff_of_true (.inl ⟨_, _, hrun, (h.encrypted hm hrun).2.1, (h.encrypted hm hrun).2.2.2.2⟩)
      fun _ => (hiff.mp rfl).2
  · have hfail : call.run H tree = pageError (ctx.cipherSz call.pgno) ⟨mt', tree.numBlocks⟩ := by
      rw [hrun]
      cases r <;> first | exact absurd rfl hr | rfl
    by_cases hmem : Grows ls.length → call.env.mem 0 = true
    · -- The leaf is in the tree, but the next index has not changed.
      have hnot : ¬ call.Atomic H tree ls := by
        rintro (⟨_, _, hok, -⟩ | ⟨_, herr⟩)
        · rw [hfail, pageError] at hok
          cases hok
        · rw [hfail, pageError] at herr
          have htree : (⟨mt', tree.numBlocks⟩ : MtObj) = tree :=
            congrArg PageResult.tree (Except.ok.inj herr)
          have helems := congrArg (fun t => t.mt.elems) htree
          simp only [hleaf hmem, h.rep.elems] at helems
          omega
      exact iff_of_false hnot fun hc => hr (hiff.mpr ⟨hmem, hc hmem⟩)
    · refine iff_of_true (.inr ⟨List.replicate (ctx.cipherSz call.pgno) 0, ?_⟩) fun hc =>
        absurd hc hmem
      rw [hfail, hkeep hmem, pageError]

/-- Without HMACs no leaf is appended, so only a call that fails is atomic. -/
lemma Ready.atomic_unchecked (h : Ready H tree ls) (hm : ¬ ctx.useHmac = true) :
    call.Atomic H tree ls ↔ call.page? = none := by
  have hrun := call.run_unchecked hm H tree
  rcases hp : call.page? with _ | page
  · rw [hp] at hrun
    exact iff_of_true (.inr ⟨_, hrun⟩) rfl
  · rw [hp] at hrun
    refine iff_of_false ?_ (Option.some_ne_none page)
    rintro (⟨_, _, hok, -, hready⟩ | ⟨_, herr⟩)
    · rw [hrun] at hok
      cases hok
      have helems := hready.rep.elems
      rw [h.rep.elems, List.length_append, List.length_singleton] at helems
      omega
    · rw [hrun] at herr
      cases herr

end Atomic

/-- A failed encryption changes nothing, and pages stay readable, if and only if the tree is below
its limit and the memory for the new inner node is there whenever the memory for the leaf is.
Without HMACs there is no leaf to append. -/
theorem encryption_atomic_iff (H : MtHash → MtHash → MtHash) (call : EncCall ctx) {tree : MtObj}
    {ls : List MtHash} (h : Ready H tree ls) : (call.Atomic H tree ls ∧ call.NextReads H tree) ↔
      if ctx.useHmac = true then call.reaches = true →
        ls.length + 1 < mtAlMaxElems ∧
          ((Grows ls.length → call.env.mem 0 = true) → ∀ l, ¬ Starves call.env.mem ls.length l)
      else call.page? = none := by
  have hboth : (call.Atomic H tree ls ∧ call.NextReads H tree) ↔ call.Atomic H tree ls :=
    ⟨And.left, fun ha => ⟨ha, ha.nextReads h⟩⟩
  rw [hboth]
  split_ifs with hm
  · by_cases hreach : call.reaches = true
    · obtain ⟨tag, htag, ht⟩ := EncCall.reaches_iff.mp hreach
      by_cases hn : ls.length + 1 < mtAlMaxElems
      · rw [h.atomic_iff hm htag ht hn]
        simp [hreach, hn]
      · refine iff_of_false ?_ fun hc => hn (hc hreach).1
        have hrun := EncCall.run_at_limit hreach h.rep (Nat.le_of_not_lt hn)
        rintro (⟨_, _, hok, -⟩ | ⟨_, herr⟩)
        · rw [hrun] at hok
          cases hok
        · rw [hrun] at herr
          cases herr
    · exact iff_of_true (.inr ⟨_, EncCall.run_of_not_reaches hm hreach⟩) fun hc => absurd hc hreach
  · exact h.atomic_unchecked hm

lemma sampleRandom_length :
    (List.replicate sampleCtx.reserveSz (7 : UInt8)).length = sampleCtx.reserveSz :=
  List.length_replicate

lemma sampleBuffer_length (b : UInt8) :
    (List.replicate (sampleCtx.cipherSz 2) b).length = sampleCtx.cipherSz 2 := List.length_replicate

/-- A call that encrypts the second page; the allocation at each level succeeds as given. -/
def sampleCall (mem : ℕ → Bool) : EncCall sampleCtx where
  forCtx := true
  pgno := 2
  env := ⟨some ⟨List.replicate sampleCtx.reserveSz 7, sampleRandom_length⟩, mem⟩
  inp := List.replicate (sampleCtx.cipherSz 2) 5
  out := List.replicate (sampleCtx.cipherSz 2) 0
  inp_length := sampleBuffer_length 5
  out_length := sampleBuffer_length 0

lemma sampleCall_tag (mem : ℕ → Bool) :
    ∃ tag, (sampleCall mem).tag? = some tag ∧ tag.length ≤ hashLength := by
  obtain ⟨tag, htag, hl⟩ := (sampleCall mem).tag?_of_total sampleProvider_total
    (show sampleCtx.keySz ≠ 0 by decide) rfl (Option.some_ne_none _)
  exact ⟨tag, htag, by rw [hl]; decide⟩

lemma sampleCall_reaches (mem : ℕ → Bool) : (sampleCall mem).reaches = true :=
  EncCall.reaches_iff.mpr (sampleCall_tag mem)

/-- With memory for everything, the fourth encryption, which needs two inner nodes, is atomic. -/
theorem encryption_atomic_fourth :
    ∃ (tree : MtObj) (ls : List MtHash), ls.length = 3 ∧ Ready xorHash tree ls ∧
    (sampleCall fun _ => true).Atomic xorHash tree ls ∧
      (sampleCall fun _ => true).NextReads xorHash tree := by
  obtain ⟨tree, log, run, hl, -⟩ := exists_sampleRun [(2,1), (3,2), (2,3)] (by decide)
  have hl : log.length = 3 := hl
  have hls : (leaves sampleCtx log).length = 3 := by simp [leaves, leafTags, hl, sampleCtx]
  have hready : Ready xorHash tree (leaves sampleCtx log) :=
    ⟨run.ok.rep, by rw [run.ok.numBlocks rfl, hl, hls]⟩
  refine ⟨tree, leaves sampleCtx log, hls, hready,
    (encryption_atomic_iff xorHash (sampleCall fun _ => true) hready).mpr
      fun _ => ⟨by rw [hls]; decide, ?_⟩⟩
  rintro - l ⟨m, -, -, hm⟩
  exact absurd hm (by simp [sampleCall])

/-- A second leaf for which there is memory, under an inner node for which there is none. -/
theorem encryption_half_done : ∃ (call : EncCall sampleCtx) (tree : MtObj) (ls : List MtHash),
    Ready xorHash tree ls ∧ ¬ call.Atomic xorHash tree ls := by
  obtain ⟨mt, -, hrep⟩ := exists_one_leaf
  have hready : Ready xorHash ⟨mt,1⟩ [mtInitHash [1]] := ⟨hrep, rfl⟩
  obtain ⟨tag, htag, ht⟩ := sampleCall_tag fun k => k = 0
  refine ⟨sampleCall fun k => k = 0, ⟨mt,1⟩, [mtInitHash [1]], hready, fun hatomic => ?_⟩
  have hmem := (hready.atomic_iff rfl htag ht (by decide)).mp hatomic (fun _ => rfl) 0
  exact hmem ⟨0, rfl, .inl rfl, rfl⟩

/-- The encryptions of a run one after the other, up to the first one that ends the process. -/
def encryptAll (H : MtHash → MtHash → MtHash) : MtObj → List (EncCall ctx) → Except Crash MtObj
  | tree, [] => .ok tree
  | tree, call :: calls =>
    match call.run H tree with
    | .error crash => .error crash
    | .ok r => encryptAll H r.tree calls

section Run

variable {H : MtHash → MtHash → MtHash} {call : EncCall ctx} {tree : MtObj} {ls : List MtHash}

/-- With memory available, a call that gets to `mt_add` below the limit appends one leaf. -/
lemma EncCall.run_of_reaches (h : call.reaches = true) (hmem : ∀ k, call.env.mem k = true)
    (hrep : Represents H tree.mt ls) (hn : ls.length + 1 < mtAlMaxElems) :
    ∃ r x, call.run H tree = .ok r ∧ Represents H r.tree.mt (ls ++ [x]) := by
  obtain ⟨tag, htag, ht⟩ := EncCall.reaches_iff.mp h
  obtain ⟨-, image, hrun⟩ := EncCall.run_of_some H tree htag
  obtain ⟨r, mt', hadd, hall, hnew⟩ := mtAdd_spec call.env.mem hrep hn ht
  obtain rfl := hall hmem
  rw [hadd] at hrun
  exact ⟨_, _, hrun, hnew rfl⟩

/-- Where a run from a well-formed tree ends. -/
lemma encryptAll_eq (tree : MtObj) (calls : List (EncCall ctx))
    (hmem : ∀ call ∈ calls, ∀ k, call.env.mem k = true) (hrep : Represents H tree.mt ls)
    (hlt : ls.length < mtAlMaxElems) :
    if ls.length + calls.countP EncCall.reaches < mtAlMaxElems then
      ∃ tree', encryptAll H tree calls = .ok tree'
    else encryptAll H tree calls = .error .assertion := by
  induction calls generalizing tree ls with
  | nil =>
    rw [List.countP_nil, Nat.add_zero, if_pos hlt]
    exact ⟨tree, rfl⟩
  | cons call calls ih =>
    have hrest : ∀ c ∈ calls, ∀ k, c.env.mem k = true := fun c hc => hmem c (by simp [hc])
    by_cases hreach : call.reaches = true
    · rw [List.countP_cons_of_pos hreach]
      by_cases hn : ls.length + 1 < mtAlMaxElems
      · obtain ⟨r, x, hrun, hrep'⟩ := EncCall.run_of_reaches hreach (hmem call (by simp)) hrep hn
        have hnext := ih r.tree hrest hrep' (by simpa using hn)
        rw [List.length_append, List.length_singleton] at hnext
        simp only [encryptAll, hrun]
        rwa [Nat.add_comm (calls.countP EncCall.reaches), ← Nat.add_assoc]
      · rw [if_neg (by omega), encryptAll, EncCall.run_at_limit hreach hrep (by omega)]
    · rw [List.countP_cons_of_neg hreach]
      obtain ⟨rc, image, hrun⟩ := EncCall.run_keeps_tree H tree hreach
      simp only [encryptAll, hrun]
      exact ih tree hrest hrep hlt

end Run

/-- With memory available, every encryption of a run returns if and only if fewer calls append a
leaf than the limit allows; otherwise an assertion ends the process. -/
theorem encryptions_return_iff (H : MtHash → MtHash → MtHash) (calls : List (EncCall ctx))
    (hmem : ∀ call ∈ calls, ∀ k, call.env.mem k = true) :
    ((∃ tree, encryptAll H ⟨mtCreate,0⟩ calls = .ok tree) ↔
      calls.countP EncCall.reaches < mtAlMaxElems) ∧
      (mtAlMaxElems ≤ calls.countP EncCall.reaches →
        encryptAll H ⟨mtCreate,0⟩ calls = .error .assertion) := by
  have hrun :=
    encryptAll_eq (H := H) ⟨mtCreate,0⟩ calls hmem represents_create (by simp [mtAlMaxElems])
  rw [List.length_nil, Nat.zero_add] at hrun
  by_cases hlt : calls.countP EncCall.reaches < mtAlMaxElems
  · rw [if_pos hlt] at hrun
    exact ⟨iff_of_true hrun hlt, fun hc => by omega⟩
  · rw [if_neg hlt] at hrun
    refine ⟨iff_of_false ?_ hlt, fun _ => hrun⟩
    rintro ⟨tree, hok⟩
    rw [hrun] at hok
    cases hok

lemma replicate_sampleCall_mem (n : ℕ) :
    ∀ call ∈ List.replicate n (sampleCall fun _ => true), ∀ k, call.env.mem k = true := by
  intro call hcall k
  rw [List.eq_of_mem_replicate hcall]
  rfl

lemma replicate_sampleCall_countP (n : ℕ) :
    (List.replicate n (sampleCall fun _ => true)).countP EncCall.reaches = n := by
  rw [List.countP_replicate, if_pos (sampleCall_reaches _)]

theorem encryptions_return_five :
    ∃ tree, encryptAll xorHash ⟨mtCreate,0⟩ (List.replicate 5 (sampleCall fun _ => true)) =
      .ok tree := by
  refine (encryptions_return_iff xorHash _ (replicate_sampleCall_mem 5)).1.mpr ?_
  rw [replicate_sampleCall_countP]
  decide

lemma encryptAll_replicate (n : ℕ) (h : mtAlMaxElems ≤ n) :
    encryptAll xorHash ⟨mtCreate,0⟩ (List.replicate n (sampleCall fun _ => true)) =
      .error .assertion := by
  have hrun :=
    encryptAll_eq (H := xorHash) ⟨mtCreate,0⟩ _ (replicate_sampleCall_mem n) represents_create
    (by simp [mtAlMaxElems])
  rwa [replicate_sampleCall_countP, List.length_nil, Nat.zero_add, if_neg (by omega)] at hrun

/-- The encryption that would append the last leaf of the limit ends the process. -/
theorem encryptions_abort :
    encryptAll xorHash ⟨mtCreate,0⟩ (List.replicate mtAlMaxElems (sampleCall fun _ => true)) =
      .error .assertion :=
  encryptAll_replicate mtAlMaxElems le_rfl

end IronSafe.Page
