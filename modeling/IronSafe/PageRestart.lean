import IronSafe.MerkleRestart
import IronSafe.PageOutcomes

/-! A storage server that loads the tree of an earlier process. The pages of that process are read
as before, but no page is written any more. -/
namespace IronSafe.Page
open Bytes Merkle RaggedTree

/-- `deserialize_init_mt` of the image of the tree, and the next index set by
`sqlcipher_codec_ctx_init`. -/
def restart (tree : MtObj) : MtObj := ⟨restored tree.mt, mtGetSize (restored tree.mt)⟩

variable {ctx : CodecCtx} {H : MtHash → MtHash → MtHash}

/-- The trees of a restarted server, after calls that try to encrypt pages. -/
inductive AfterRestart (ctx : CodecCtx) (H : MtHash → MtHash → MtHash) (tree : MtObj) : MtObj → Prop
  | start : AfterRestart ctx H tree (restart tree)
  | tried {t t' : MtObj} {call : EncCall ctx} {rc : Rc} {out : List UInt8}
      (run : AfterRestart ctx H tree t)
      (h : call.run H t = .ok ⟨rc,out,t'⟩) : AfterRestart ctx H tree t'

lemma EncRun.appended {tree : MtObj} {log : List Written} (run : EncRun ctx H tree log)
    (hm : ctx.useHmac = true) : Merkle.Appended H log.length tree.mt := by
  induction run with
  | create => exact .create
  | reopen _ ih => exact ih
  | encrypted _ hi ho h ih =>
    have happ := (encrypt_ok hi ho h).2
    rw [Page.Appended, if_pos hm] at happ
    rw [List.length_append]
    exact ih.add happ.1

/-- On a sparse tree an encryption that returns has failed and wiped its output; it does return
while the counter is small. -/
lemma EncCall.run_sparse (call : EncCall ctx) {n : ℕ} {t : MtObj} (h : Sparse n t.mt)
    (hm : ctx.useHmac = true) :
    (∃ t', call.run H t = .ok ⟨.error, List.replicate (ctx.cipherSz call.pgno) 0, t'⟩ ∧
      Sparse n t'.mt) ∨ (∃ c, call.run H t = .error c) ∧ ¬ t.mt.elems < 2^22 := by
  have hahead := h.ahead
  rcases htag : call.tag? with _ | tag
  · exact .inl ⟨t, EncCall.run_of_none hm htag, h⟩
  obtain ⟨-, image, heq⟩ := EncCall.run_of_some H t htag
  rw [heq]
  rcases h.mtAdd (H := H) call.env.mem tag with ⟨r, mt, hadd, hne, hsparse⟩ | ⟨⟨c, hadd⟩, hnot⟩
  · rw [hadd]
    refine .inl ⟨⟨mt, t.numBlocks⟩, ?_, hsparse⟩
    cases r <;> first | exact absurd rfl hne | rfl
  · rw [hadd]
    refine .inr ⟨⟨c, rfl⟩, fun hc => hnot ⟨by omega, ?_⟩⟩
    simp only [mtAlMaxElems]
    omega

lemma AfterRestart.sparse {n : ℕ} {tree t : MtObj} (h : Merkle.Appended H n tree.mt)
    (hm : ctx.useHmac = true) (run : AfterRestart ctx H tree t) : Sparse n t.mt := by
  induction run with
  | start => exact h.sparse
  | @tried t t' call rc out _ hcall ih =>
    rcases call.run_sparse (H := H) ih hm with ⟨t'', hrun, hsparse⟩ | ⟨⟨c, hrun⟩, -⟩
    · rw [hrun] at hcall
      cases hcall
      exact hsparse
    · rw [hrun] at hcall
      cases hcall

/-- On the restarted tree the pages of the run are as authentic as before. -/
lemma RunOk.authentic_restart {tree : MtObj} {log : List Written} (h : RunOk ctx H tree log)
    (hs : Sized tree.mt) (hm : ctx.useHmac = true) {i : ℕ} {w : Written} (hw : log[i]? = some w) :
    Authentic ctx H (restart tree) (ctx.cipherCtx w.forCtx) w.pgno w.image := by
  obtain ⟨hmac, hverify⟩ := h.page_authentic hm hw
  have hindex := (h.pages i w hw).index hm
  have hi : i < tree.mt.elems := by
    rw [h.rep.elems, leaves_length, leafTags_length hm]
    exact (List.getElem?_eq_some_iff.mp hw).1
  refine ⟨hmac, ?_⟩
  rw [hindex] at hverify ⊢
  rwa [restart, hs.verify_restored _ hi]

lemma RunOk.readable_restart {tree : MtObj} {log : List Written} (h : RunOk ctx H tree log)
    (hs : Sized tree.mt) (hm : ctx.useHmac = true) (hinv : ctx.provider.Inverts)
    (hkeys : ctx.readCtx = ctx.writeCtx) {w : Written} (hw : w ∈ log) (forCtx : Bool)
    (env : Env ctx) {out : List UInt8} (ho : out.length = ctx.cipherSz w.pgno) :
    ∃ r, sqlcipherPageCipher ctx H (restart tree) forCtx w.pgno .decrypt (ctx.cipherSz w.pgno)
      env w.image out =
      .ok ⟨.ok,r,restart tree⟩ ∧ r.length = ctx.cipherSz w.pgno ∧
        r.take (ctx.usable w.pgno) = w.plain := by
  obtain ⟨i, hi⟩ := List.mem_iff_getElem?.mp hw
  have hpage := h.pages i w hi
  have hk := h.key (List.ne_nil_of_mem hw)
  have hc := hinv _ _ _ _ hpage.cipher
  rw [cipherCtx_eq hkeys w.forCtx forCtx] at hc
  by_cases hskip : ctx.skipReadHmac = true
  · exact decrypt_unchecked _ (by simp [hskip]) hk hpage.length ho hc
  · have hauth := h.authentic_restart hs hm hi
    rw [cipherCtx_eq hkeys w.forCtx forCtx] at hauth
    exact decrypt_of_authentic _ hm (by simpa using hskip) hk hpage.length ho hauth hc

/-- After the tree of a run has been written out and loaded, every page of the run is read back as
its plaintext on the tree as it was loaded; but however often a page is handed to the codec, no
encryption succeeds. Every call reports an error and gives a page of zeros, or it ends the process,
which it does not while the leaf counter is below 2²². A refused call can still add its leaf to the
lowest level, and the reads are not claimed for the tree that it leaves: the path of the last page
may run through that leaf. -/
theorem restart_read_only {tree : MtObj} {log : List Written} (run : EncRun ctx H tree log)
    (hm : ctx.useHmac = true) (hinv : ctx.provider.Inverts) (hkeys : ctx.readCtx = ctx.writeCtx) :
    (∀ w ∈ log, ∀ (forCtx : Bool) (env : Env ctx) (out : List UInt8),
      out.length = ctx.cipherSz w.pgno →
      ∃ r, sqlcipherPageCipher ctx H (restart tree) forCtx w.pgno .decrypt (ctx.cipherSz w.pgno)
        env w.image out = .ok ⟨.ok,r,restart tree⟩ ∧ r.take (ctx.usable w.pgno) = w.plain) ∧
    ∀ t, AfterRestart ctx H tree t → ∀ call : EncCall ctx,
      (∃ t', call.run H t = .ok ⟨.error, List.replicate (ctx.cipherSz call.pgno) 0, t'⟩) ∨
        (∃ c, call.run H t = .error c) ∧ 2^22 ≤ t.mt.elems := by
  have happ := run.appended hm
  refine ⟨fun w hw forCtx env out ho => ?_, fun t ht call => ?_⟩
  · obtain ⟨r, hr, -, hplain⟩ :=
      run.ok.readable_restart happ.reach.sized hm hinv hkeys hw forCtx env ho
    exact ⟨r, hr, hplain⟩
  · exact (call.run_sparse (ht.sparse happ hm) hm).imp (fun h => h.imp fun t' => And.left)
      fun h => ⟨h.1, Nat.le_of_not_lt h.2⟩

/-- Three pages: each is read after the restart, and a fourth one is refused. -/
theorem restart_read_only_three : ∃ tree log, EncRun sampleCtx xorHash tree log ∧ log.length = 3 ∧
    (∀ w ∈ log, ∃ r, sqlcipherPageCipher sampleCtx xorHash (restart tree) false w.pgno .decrypt
      (sampleCtx.cipherSz w.pgno) (sampleCall fun _ => true).env w.image w.image =
        .ok ⟨.ok,r,restart tree⟩ ∧ r.take (sampleCtx.usable w.pgno) = w.plain) ∧
    ∃ out t, (sampleCall fun _ => true).run xorHash (restart tree) = .ok ⟨.error,out,t⟩ := by
  obtain ⟨tree, log, run, hl, -⟩ := exists_sampleRun [(2,1), (3,2), (2,3)] (by decide)
  have hl : log.length = 3 := hl
  obtain ⟨hread, hwrite⟩ := restart_read_only run rfl sampleProvider_inverts rfl
  have happ := run.appended rfl
  have hsmall : (restart tree).mt.elems = 264 := by
    show (restored tree.mt).elems = 264
    rw [happ.reach.sized.restored_elems, happ.numBytes_eq (by omega), hl]
  refine ⟨tree, log, run, hl, fun w hw => ?_, ?_⟩
  · obtain ⟨i, hi⟩ := List.mem_iff_getElem?.mp hw
    exact hread w hw false _ w.image (run.ok.pages i w hi).length
  · rcases hwrite _ .start (sampleCall fun _ => true) with ⟨t, hrun⟩ | ⟨-, hbig⟩
    · exact ⟨_, t, hrun⟩
    · rw [hsmall] at hbig
      omega

end IronSafe.Page
