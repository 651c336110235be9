import IronSafe.MerkleSerialize
import IronSafe.PageRuns

/-! Decryption against a tree that was loaded from its image, of a page whose HMAC is valid and
whose leaf index, which the HMAC does not cover, is arbitrary. -/
namespace IronSafe.Page
open Bytes Merkle RaggedTree

variable {ctx : CodecCtx} {H : MtHash → MtHash → MtHash}

/-- The call returns without error, or with an error and a wiped page. -/
def Clean (pageSz : ℕ) (r : Except Crash PageResult) : Prop :=
  ∃ res, r = .ok res ∧ (res.rc = .ok ∨ res.rc = .error ∧ res.out = List.replicate pageSz 0)

lemma clean_pageError (pageSz : ℕ) (tree : MtObj) : Clean pageSz (pageError pageSz tree) :=
  ⟨_, rfl, .inr ⟨rfl, rfl⟩⟩

lemma clean_pageDecipher (tree : MtObj) (c : CipherCtx) (pageSz : ℕ) (inp out : List UInt8) :
    Clean pageSz (pageDecipher ctx tree c pageSz inp out) := by
  simp only [pageDecipher]
  split
  · exact clean_pageError _ _
  · exact ⟨_, rfl, .inl rfl⟩

/-- The tree is consulted: there is a key, and pages are checked when they are read. -/
def CodecCtx.Checks (ctx : CodecCtx) : Prop :=
  ctx.keySz ≠ 0 ∧ ctx.useHmac = true ∧ ctx.skipReadHmac = false

section Decrypt

variable {tree : MtObj} {forCtx : Bool} {pgno : ℕ} {p : List UInt8}

lemma clean_unchecked (h : ¬ ctx.Checks) (env : Env ctx) (pageSz : ℕ) (out : List UInt8) :
    Clean pageSz (sqlcipherPageCipher ctx H tree forCtx pgno .decrypt pageSz env p out) := by
  unfold sqlcipherPageCipher
  split_ifs with hk
  · exact clean_pageError _ _
  · have hoff : ¬ (ctx.useHmac && !ctx.skipReadHmac) = true := fun hc => h ⟨hk, by simpa using hc⟩
    simp only [pageDecrypt]
    rw [if_neg hoff]
    exact clean_pageDecipher _ _ _ _ _

/-- With a valid HMAC, decryption is clean if and only if `mt_verify` returns. -/
lemma clean_iff_verify (h : ctx.Checks) (env : Env ctx) (out : List UInt8)
    (hmac : pageHmac ctx (ctx.cipherCtx forCtx) pgno (macedOf ctx pgno p) =
      some (macOf ctx pgno p)) : Clean (ctx.cipherSz pgno)
        (sqlcipherPageCipher ctx H tree forCtx pgno .decrypt (ctx.cipherSz pgno) env p out) ↔
      ∃ e, mtVerify H tree.mt (tagOf ctx pgno p) (indexOf ctx pgno p) = .ok e := by
  rw [decrypt_eq h.2.1 h.2.2 h.1, hmac]
  simp only [ne_eq, not_true_eq_false, if_false]
  rcases hv : mtVerify H tree.mt (tagOf ctx pgno p) (indexOf ctx pgno p) with crash | e
  · simp [Clean]
  · refine iff_of_true ?_ ⟨e, rfl⟩
    cases e with
    | success => exact clean_pageDecipher _ _ _ _ _
    | _ => exact clean_pageError _ _

end Decrypt

/-- The tag of a page with a valid HMAC. -/
lemma tagOf_length_of_mac {c : CipherCtx} {pgno : ℕ} {p : List UInt8}
    (hmac : pageHmac ctx c pgno (macedOf ctx pgno p) = some (macOf ctx pgno p)) :
    (tagOf ctx pgno p).length = ctx.provider.hmacSz/2 := by
  have hl := ctx.provider.hmac_length hmac
  have hle := Nat.div_le_self ctx.provider.hmacSz 2
  simp only [macOf, tagOf, slice, List.length_take] at hl ⊢
  omega

/-- A page with a valid HMAC and any index is decrypted or refused, unless its index lies below
the size of the image of the tree and the walk from there ends at a node that is missing. In a
well-formed tree these are the multiples of its width past its leaves. -/
theorem hostile_page_clean_iff {mt : Mt} (run : Reach H mt) (forCtx : Bool) (pgno : ℕ)
    (env : Env ctx) {p : List UInt8} (out : List UInt8)
    (hmac : pageHmac ctx (ctx.cipherCtx forCtx) pgno (macedOf ctx pgno p) =
      some (macOf ctx pgno p)) :
    (Clean (ctx.cipherSz pgno)
      (sqlcipherPageCipher ctx H (deserializeInitMt (serializeMt mt)) forCtx pgno .decrypt
        (ctx.cipherSz pgno) env p out) ↔
      ¬ (ctx.Checks ∧ ctx.provider.hmacSz/2 ≤ hashLength ∧ indexOf ctx pgno p < numBytes mt ∧
        WalksOff mt (indexOf ctx pgno p))) ∧
    ∀ ls, Represents H mt ls → (WalksOff mt (indexOf ctx pgno p) ↔
      ls.length ≤ indexOf ctx pgno p ∧ 2^height ls.length ∣ indexOf ctx pgno p) := by
  refine ⟨?_, fun ls hrep => hrep.walksOff_iff (by rw [← hrep.elems]; exact run.elems_lt)⟩
  by_cases hchecks : ctx.Checks
  · rw [clean_iff_verify hchecks env out hmac, ← tagOf_length_of_mac hmac, and_iff_right hchecks]
    exact run.verify_restored_iff (tagOf ctx pgno p) (indexOf ctx pgno p)
  · exact iff_of_true (clean_unchecked hchecks env _ out) fun hc => hchecks hc.1

/-- A page with a valid HMAC and a small index. -/
lemma exists_sealed_page {i : ℕ} (hi : i < 2) : ∃ p,
    pageHmac sampleCtx (sampleCtx.cipherCtx true) 2 (macedOf sampleCtx 2 p) =
      some (macOf sampleCtx 2 p) ∧ indexOf sampleCtx 2 p = i := by
  obtain ⟨tree, log, run, hl, hlog⟩ := exists_sampleRun [(2,1), (2,3)] (by decide)
  have hl : log.length = 2 := hl
  have hpage := run.ok.pages i log[i] (List.getElem?_eq_getElem (by omega))
  have hnums : log.map Written.pgno = [2,2] := by
    have := congrArg (List.map Prod.fst) hlog
    rwa [List.map_map, List.map_map] at this
  have hpgno : log[i].pgno = 2 := by
    have hmem : log[i].pgno ∈ log.map Written.pgno := List.mem_map_of_mem (List.getElem_mem _)
    rw [hnums] at hmem
    simpa using hmem
  rw [hpgno, cipherCtx_eq rfl _ true] at hpage
  exact ⟨log[i].image, hpage.mac rfl, hpage.index rfl⟩

/-- The index of the only leaf is handled. -/
theorem hostile_page_clean_zero : ∃ mt p, Reach xorHash mt ∧ indexOf sampleCtx 2 p = 0 ∧
    Clean (sampleCtx.cipherSz 2)
      (sqlcipherPageCipher sampleCtx xorHash (deserializeInitMt (serializeMt mt)) true 2
      .decrypt (sampleCtx.cipherSz 2) ⟨none, fun _ => true⟩ p []) := by
  obtain ⟨mt, hadd, hrep⟩ := exists_one_leaf
  have run : Reach xorHash mt := .add .create hadd
  obtain ⟨p, hmac, hindex⟩ := exists_sealed_page (show 0 < 2 by omega)
  have hclean := hostile_page_clean_iff run true 2 ⟨none, fun _ => true⟩ [] hmac
  refine ⟨mt, p, run, hindex, hclean.1.mpr fun hc => ?_⟩
  have := (hclean.2 _ hrep).mp hc.2.2.2
  rw [hindex] at this
  simp at this

/-- The index behind the only leaf ends the process. -/
theorem hostile_page_crashes : ∃ mt p, Reach xorHash mt ∧
    pageHmac sampleCtx (sampleCtx.cipherCtx true) 2 (macedOf sampleCtx 2 p) =
      some (macOf sampleCtx 2 p) ∧
    ∀ env out, ¬ Clean (sampleCtx.cipherSz 2) (sqlcipherPageCipher sampleCtx xorHash
      (deserializeInitMt (serializeMt mt)) true 2 .decrypt (sampleCtx.cipherSz 2) env p out) := by
  obtain ⟨mt, hadd, hrep⟩ := exists_one_leaf
  have run : Reach xorHash mt := .add .create hadd
  obtain ⟨p, hmac, hindex⟩ := exists_sealed_page (show 1 < 2 by omega)
  refine ⟨mt, p, run, hmac, fun env out hclean => ?_⟩
  rw [clean_iff_verify ⟨by decide, rfl, rfl⟩ env out hmac] at hclean
  refine (run.verify_restored_iff _ _).mp hclean ⟨?_, ?_, ?_⟩
  · rw [tagOf_length_of_mac hmac]
    decide
  · have := run.sized.numBytes_bounds
    omega
  · rw [hindex, hrep.walksOff_iff (by decide)]
    exact ⟨le_rfl, by simp [height]⟩

end IronSafe.Page
