import IronSafe.PageRuns

/-! Which page images an adversary who controls the storage medium can present without
being noticed. Leaves are only ever appended and the leaf index is not under the HMAC, so
the images of superseded encryptions stay acceptable; so does the all-zero page. -/
namespace IronSafe.Page
open Bytes Merkle

variable {ctx : CodecCtx} {H : MtHash → MtHash → MtHash}

/-- The most recent encryption for a page number. -/
def latest (log : List Written) (pgno : ℕ) : Option Written := log.reverse.find? (·.pgno = pgno)

lemma latest_mem {log : List Written} {pgno : ℕ} {w : Written} (h : latest log pgno = some w) :
    w ∈ log ∧ w.pgno = pgno := by
  have hm := List.mem_of_find?_eq_some h
  have hp := List.find?_some h
  exact ⟨List.mem_reverse.mp hm, by simpa using hp⟩

/-- If decryption of `p` returns without error, it returns the plaintext of `w`. -/
def FreshAt (ctx : CodecCtx) (H : MtHash → MtHash → MtHash) (tree : MtObj) (forCtx : Bool)
    (w : Written) (p : List UInt8) : Prop :=
  ∀ env out r tree', out.length = ctx.cipherSz w.pgno →
    sqlcipherPageCipher ctx H tree forCtx w.pgno .decrypt (ctx.cipherSz w.pgno) env p out =
      .ok ⟨.ok,r,tree'⟩ → r.take (ctx.usable w.pgno) = w.plain

/-- The HMAC of `p` is not forged: if it is valid, an encryption computed it. -/
def Unforged (ctx : CodecCtx) (log : List Written) (forCtx : Bool) (pgno : ℕ) (p : List UInt8) :
    Prop :=
  pageHmac ctx (ctx.cipherCtx forCtx) pgno (macedOf ctx pgno p) = some (macOf ctx pgno p) →
    ∃ v ∈ log, v.pgno = pgno ∧ ctx.cipherCtx v.forCtx = ctx.cipherCtx forCtx ∧
      macedOf ctx pgno v.image = macedOf ctx pgno p

/-- `p` carries ciphertext, vector and HMAC of an encryption of another plaintext for the
page of `w`, with an index at which the tree holds its tag. -/
def Replayed (ctx : CodecCtx) (log : List Written) (forCtx : Bool) (w : Written) (p : List UInt8) :
    Prop :=
  (∃ v ∈ log, v.pgno = w.pgno ∧ v.plain ≠ w.plain ∧ ctx.cipherCtx v.forCtx = ctx.cipherCtx forCtx ∧
    macedOf ctx w.pgno v.image = macedOf ctx w.pgno p ∧
    macOf ctx w.pgno v.image = macOf ctx w.pgno p) ∧
  (leafTags ctx log)[indexOf ctx w.pgno p]? = some (tagOf ctx w.pgno p)

/-- `p` is taken for a page past the end of the file although `w` has other bytes. -/
def Erased (ctx : CodecCtx) (forCtx : Bool) (w : Written) (p : List UInt8) : Prop :=
  ShortRead ctx (ctx.cipherCtx forCtx) w.pgno p ∧ w.plain ≠ List.replicate (ctx.usable w.pgno) 0

section

variable {tree : MtObj} {log : List Written} {forCtx : Bool} {w : Written} {p : List UInt8}

/-- A page with the authenticated bytes of an encryption deciphers to its plaintext. -/
lemma RunOk.decipher_eq (h : RunOk ctx H tree log) (hinv : ctx.provider.Inverts) {v : Written}
    (hv : v ∈ log) (hmaced : macedOf ctx v.pgno v.image = macedOf ctx v.pgno p) :
    ctx.provider.cipher .decrypt (ctx.cipherCtx v.forCtx).key (ivOf ctx v.pgno p)
      (bodyOf ctx v.pgno p) = some v.plain := by
  obtain ⟨i, hi⟩ := List.mem_iff_getElem?.mp hv
  have hc := (h.pages i v hi).cipher
  rw [ivOf_eq_drop, bodyOf_eq_take, hmaced, ← ivOf_eq_drop, ← bodyOf_eq_take] at hc
  exact hinv _ _ _ _ hc

lemma RunOk.mac_eq (h : RunOk ctx H tree log) (hm : ctx.useHmac = true) {v : Written}
    (hv : v ∈ log) : pageHmac ctx (ctx.cipherCtx v.forCtx) v.pgno (macedOf ctx v.pgno v.image) =
      some (macOf ctx v.pgno v.image) := by
  obtain ⟨i, hi⟩ := List.mem_iff_getElem?.mp hv
  exact (h.pages i v hi).mac hm

/-- A replayed page is accepted and yields a superseded plaintext. -/
lemma RunOk.not_fresh_of_replayed (h : RunOk ctx H tree log) (hm : ctx.useHmac = true)
    (hskip : ctx.skipReadHmac = false) (hinv : ctx.provider.Inverts)
    (hp : p.length = ctx.cipherSz w.pgno) (hr : Replayed ctx log forCtx w p) :
    ¬ FreshAt ctx H tree forCtx w p := by
  obtain ⟨⟨v, hv, hpgno, hplain, hctx, hmaced, hmac⟩, hleaf⟩ := hr
  intro hfresh
  rw [← hpgno] at hmaced hmac hleaf hp
  have hdec := h.decipher_eq hinv hv hmaced
  have hvalid := h.mac_eq hm hv
  rw [hmaced, hmac, hctx] at hvalid
  rw [hctx] at hdec
  let env : Env ctx := ⟨none, fun _ => true⟩
  obtain ⟨r, hrun, -, htake⟩ := decrypt_of_authentic env hm hskip (h.key (List.ne_nil_of_mem hv)) hp
    (show (List.replicate (ctx.cipherSz v.pgno) 0).length = _ by simp)
    ⟨hvalid, h.verify_complete hleaf⟩ hdec
  rw [hpgno] at hrun htake
  exact hplain (htake.symm.trans (hfresh env _ r tree (by simp) hrun))

lemma RunOk.not_fresh_of_erased (h : RunOk ctx H tree log) (hm : ctx.useHmac = true)
    (hskip : ctx.skipReadHmac = false) (hw : w ∈ log) (he : Erased ctx forCtx w p) :
    ¬ FreshAt ctx H tree forCtx w p := by
  obtain ⟨hshort, hne⟩ := he
  intro hfresh
  have hle := usable_add_reserve ctx w.pgno
  let env : Env ctx := ⟨none, fun _ => true⟩
  have htake := hfresh env (List.replicate (ctx.cipherSz w.pgno) 0) _ tree (by simp)
    (decrypt_of_shortRead env _ hm hskip (h.key (List.ne_nil_of_mem hw)) hshort)
  rw [List.take_replicate, Nat.min_eq_left (by omega)] at htake
  exact hne htake.symm

/-- A page that is accepted without being erased or replayed yields the latest plaintext. -/
lemma RunOk.fresh_of_not (h : RunOk ctx H tree log) (hm : ctx.useHmac = true)
    (hskip : ctx.skipReadHmac = false) (hinv : ctx.provider.Inverts)
    (hp : p.length = ctx.cipherSz w.pgno) (hforge : Unforged ctx log forCtx w.pgno p)
    (hcoll : NoCollision H (leaves ctx log) (indexOf ctx w.pgno p)
      (mtInitHash (tagOf ctx w.pgno p)))
    (he : ¬ Erased ctx forCtx w p) (hr : ¬ Replayed ctx log forCtx w p) :
    FreshAt ctx H tree forCtx w p := by
  intro env out r tree' ho hrun
  have hs := usable_add_reserve ctx w.pgno
  have ht := trailer_le_reserve hm
  rcases decrypt_ok hm hskip hp ho hrun with ⟨hshort, rfl⟩ | ⟨⟨hmac, hverify⟩, hdec⟩
  · rw [List.take_replicate, Nat.min_eq_left (by omega)]
    by_contra hne
    exact he ⟨hshort, Ne.symm hne⟩
  · obtain ⟨v, hv, hpgno, hctx, hmaced⟩ := hforge hmac
    have hplain := h.decipher_eq hinv hv (p := p) (by rw [hpgno, hmaced])
    have hvalid := h.mac_eq hm hv
    rw [hpgno, hctx] at hplain hvalid
    rw [hmaced, hmac] at hvalid
    rw [hdec, Option.some.injEq] at hplain
    have htag : (tagOf ctx w.pgno p).length = ctx.provider.hmacSz/2 := slice_length _ (by omega)
    by_contra hne
    exact hr ⟨⟨v, hv, hpgno, fun hc => hne (hplain.trans hc), hctx, hmaced,
      (Option.some.inj hvalid).symm⟩, h.verify_sound htag hcoll hverify⟩

/-- The image of an encryption authenticates, so it is not taken for a page past the end. -/
lemma RunOk.not_erased_image (h : RunOk ctx H tree log) (hm : ctx.useHmac = true) (hw : w ∈ log)
    (hctx : ctx.cipherCtx w.forCtx = ctx.cipherCtx forCtx) : ¬ Erased ctx forCtx w w.image := by
  rintro ⟨⟨mac, hmac, hne, -⟩, -⟩
  have hvalid := h.mac_eq hm hw
  rw [hctx] at hvalid
  exact hne (Option.some.inj (hvalid.symm.trans hmac))

/-- The image of an encryption carries no other plaintext. -/
lemma RunOk.not_replayed_image (h : RunOk ctx H tree log) (hinv : ctx.provider.Inverts)
    (hw : w ∈ log) (hctx : ctx.cipherCtx w.forCtx = ctx.cipherCtx forCtx) :
    ¬ Replayed ctx log forCtx w w.image := by
  rintro ⟨⟨v, hv, hpgno, hplain, hvctx, hmaced, -⟩, -⟩
  have hdec := h.decipher_eq hinv hw rfl
  have hdec' := h.decipher_eq hinv hv (p := w.image) (by rw [hpgno, hmaced])
  rw [hpgno, hvctx, ← hctx, hdec, Option.some.injEq] at hdec'
  exact hplain hdec'.symm

/-- In every state of every run, the presented image is fresh exactly when it neither is
the zero page in place of other bytes nor replays a superseded encryption. -/
theorem page_fresh_iff (run : EncRun ctx H tree log) (hm : ctx.useHmac = true)
    (hskip : ctx.skipReadHmac = false) (hinv : ctx.provider.Inverts) {pgno : ℕ}
    (hw : latest log pgno = some w) (hp : p.length = ctx.cipherSz pgno)
    (hforge : Unforged ctx log forCtx pgno p)
    (hcoll : NoCollision H (leaves ctx log) (indexOf ctx pgno p) (mtInitHash (tagOf ctx pgno p))) :
    FreshAt ctx H tree forCtx w p ↔ ¬ Erased ctx forCtx w p ∧ ¬ Replayed ctx log forCtx w p := by
  obtain ⟨hmem, rfl⟩ := latest_mem hw
  have ok := run.ok
  constructor
  · intro hfresh
    exact ⟨fun he => ok.not_fresh_of_erased hm hskip hmem he hfresh,
      fun hr => ok.not_fresh_of_replayed hm hskip hinv hp hr hfresh⟩
  · rintro ⟨he, hr⟩
    exact ok.fresh_of_not hm hskip hinv hp hforge hcoll he hr

end

lemma samplePage_ne {a b : UInt8} (h : a ≠ b) :
    (samplePage 2 a).2.take (sampleCtx.usable 2) ≠
      (samplePage 2 b).2.take (sampleCtx.usable 2) := by
  simp only [samplePage, List.take_replicate, ne_eq, List.replicate_inj, not_and_or, not_or]
  exact .inr ⟨by decide, h⟩

/-- Two encryptions of page 2; the image of the first one is then accepted. -/
theorem superseded_page_accepted : ∃ tree log w p, EncRun sampleCtx xorHash tree log ∧
    latest log 2 = some w ∧ p.length = sampleCtx.cipherSz 2 ∧ sampleCtx.provider.Inverts ∧
    Unforged sampleCtx log false 2 p ∧
    NoCollision xorHash (leaves sampleCtx log) (indexOf sampleCtx 2 p)
      (mtInitHash (tagOf sampleCtx 2 p)) ∧ ¬ FreshAt sampleCtx xorHash tree false w p := by
  obtain ⟨tree, log, run, hl, hlog⟩ := exists_sampleRun [(2,1), (2,3)] (by decide)
  obtain ⟨v, w, rfl⟩ := List.length_eq_two.mp hl
  simp only [List.map_cons, List.map_nil, List.cons.injEq, Prod.mk.injEq, and_true] at hlog
  obtain ⟨⟨hv, hvp⟩, hw, hwp⟩ := hlog
  change v.pgno = 2 at hv
  change w.pgno = 2 at hw
  have ok := run.ok
  have hpage := ok.pages 0 v rfl
  have hplain : v.plain ≠ w.plain := by
    rw [hvp, hwp]
    exact samplePage_ne (by decide)
  have hleaf : (leafTags sampleCtx [v,w])[indexOf sampleCtx v.pgno v.image]? =
      some (tagOf sampleCtx v.pgno v.image) := by
    rw [hpage.index rfl]
    rfl
  refine ⟨tree, [v,w], w, v.image, run, by simp [latest, hw], by rw [hpage.length, hv],
    sampleProvider_inverts, fun _ => ⟨v, by simp, hv, cipherCtx_eq rfl _ _, rfl⟩,
    noCollision_xorHash _ _ _, ?_⟩
  apply ok.not_fresh_of_replayed rfl rfl sampleProvider_inverts (by rw [hpage.length, hv, hw])
  rw [hv] at hleaf
  exact ⟨⟨v, by simp, hv.trans hw.symm, hplain, cipherCtx_eq rfl _ _, rfl, rfl⟩,
    by rw [hw]; exact hleaf⟩

/-- Of three encryptions the second and the third are the latest for their pages, and the images of
both are fresh. -/
theorem page_fresh_rewritten : ∃ tree v u w, EncRun sampleCtx xorHash tree [v,u,w] ∧
    v.pgno = 2 ∧ u.pgno = 3 ∧ w.pgno = 2 ∧ v.plain ≠ w.plain ∧
    FreshAt sampleCtx xorHash tree false u u.image ∧
      FreshAt sampleCtx xorHash tree false w w.image := by
  obtain ⟨tree, log, run, hl, hlog⟩ := exists_sampleRun [(2,1), (3,2), (2,3)] (by decide)
  obtain ⟨v, u, w, rfl⟩ := List.length_eq_three.mp hl
  simp only [List.map_cons, List.map_nil, List.cons.injEq, Prod.mk.injEq, and_true] at hlog
  obtain ⟨⟨hv, hvp⟩, ⟨hu, -⟩, hw, hwp⟩ := hlog
  change v.pgno = 2 at hv
  change u.pgno = 3 at hu
  change w.pgno = 2 at hw
  have hplain : v.plain ≠ w.plain := by
    rw [hvp, hwp]
    exact samplePage_ne (by decide)
  have ok := run.ok
  have hctx (x : Written) : sampleCtx.cipherCtx x.forCtx = sampleCtx.cipherCtx false :=
    cipherCtx_eq rfl _ _
  refine ⟨tree, v, u, w, run, hv, hu, hw, hplain, ?_, ?_⟩
  · exact (page_fresh_iff run rfl rfl sampleProvider_inverts
      (show latest [v,u,w] u.pgno = some u by simp [latest, hu, hw]) (ok.pages 1 u rfl).length
      (fun _ => ⟨u, by simp, rfl, hctx u, rfl⟩) (noCollision_xorHash _ _ _)).mpr
        ⟨ok.not_erased_image rfl (by simp) (hctx u),
          ok.not_replayed_image sampleProvider_inverts (by simp) (hctx u)⟩
  · exact (page_fresh_iff run rfl rfl sampleProvider_inverts
      (show latest [v,u,w] w.pgno = some w by simp [latest]) (ok.pages 2 w rfl).length
      (fun _ => ⟨w, by simp, rfl, hctx w, rfl⟩) (noCollision_xorHash _ _ _)).mpr
        ⟨ok.not_erased_image rfl (by simp) (hctx w),
          ok.not_replayed_image sampleProvider_inverts (by simp) (hctx w)⟩

end IronSafe.Page
