import IronSafe.PageRuns

/-! `sqlite3Codec`, the entry point through which the pager encrypts and decrypts whole
pages, with the header of page 1 kept outside the cipher. -/
namespace IronSafe.Page
open Bytes Merkle

inductive CodecMode
  | read | write | journal | unsupported
  deriving DecidableEq

/-- What a codec call takes from outside: besides the inputs of the page cipher, whether
the keys could be derived and whether the key salt could be read. -/
structure CodecEnv (ctx : CodecCtx) extends Env ctx where
  keyDerive : Bool
  kdfSaltRead : Bool

/-- The error state set on the context, the page returned (`none` for a null pointer) and
the tree. -/
structure CodecResult where
  rc : Rc
  page : Option (List UInt8)
  tree : MtObj

variable (ctx : CodecCtx) (H : MtHash → MtHash → MtHash)

/-- The buffer after the header of page 1 was copied to its front. -/
def copyHeader (pgno : ℕ) (buffer header : List UInt8) : List UInt8 :=
  if pgno = 1 then overwrite buffer 0 (header.take (ctx.offset pgno)) else buffer

/-- Put the output of the page cipher behind the header, cleared if the cipher failed. -/
def codecReturn (pgno : ℕ) (buffer : List UInt8) :
    Except Crash PageResult → Except Crash CodecResult
  | .error crash => .error crash
  | .ok ⟨.ok,out,tree⟩ => .ok ⟨.ok, some (buffer.take (ctx.offset pgno) ++ out), tree⟩
  | .ok ⟨.error,_,tree⟩ => .ok ⟨.error,
      some (buffer.take (ctx.offset pgno) ++ List.replicate (ctx.pageSz - ctx.offset pgno) 0), tree⟩

/-- The branch shared by the write and the journal mode. -/
def codecEncrypt (tree : MtObj) (buffer data : List UInt8) (pgno : ℕ) (forCtx : Bool)
    (env : CodecEnv ctx) : Except Crash CodecResult :=
  if pgno = 1 && !env.kdfSaltRead then .ok ⟨.error,none,tree⟩
  else
    let buffer :=
      copyHeader ctx pgno buffer (if ctx.plaintextHeaderSz ≠ 0 then data else ctx.kdfSalt)
    codecReturn ctx pgno buffer
      (sqlcipherPageCipher ctx H tree forCtx pgno .encrypt (ctx.pageSz - ctx.offset pgno) env.toEnv
        (data.drop (ctx.offset pgno)) (buffer.drop (ctx.offset pgno)))

def sqlite3Codec (tree : MtObj) (buffer data : List UInt8) (pgno : ℕ) (mode : CodecMode)
    (env : CodecEnv ctx) : Except Crash CodecResult :=
  if !env.keyDerive then .ok ⟨.error,none,tree⟩
  else match mode with
  | .read =>
    let buffer :=
      copyHeader ctx pgno buffer (if ctx.plaintextHeaderSz ≠ 0 then data else sqliteFileHeader)
    codecReturn ctx pgno buffer
      (sqlcipherPageCipher ctx H tree false pgno .decrypt (ctx.pageSz - ctx.offset pgno) env.toEnv
        (data.drop (ctx.offset pgno)) (buffer.drop (ctx.offset pgno)))
  | .write => codecEncrypt ctx H tree buffer data pgno true env
  | .journal => codecEncrypt ctx H tree buffer data pgno false env
  | .unsupported => .ok ⟨.error, some data, tree⟩

/-- A page emitted by the codec: the data given to it and the image returned. -/
structure Emitted where
  forCtx : Bool
  pgno : ℕ
  data : List UInt8
  image : List UInt8

/-- Runs of successful encryptions through the codec from the empty tree. -/
inductive CodecRun : MtObj → List Emitted → Prop
  | create : CodecRun ⟨mtCreate,0⟩ []
  | reopen {tree : MtObj} {log : List Emitted} (run : CodecRun tree log) :
      CodecRun ⟨tree.mt, mtGetSize tree.mt⟩ log
  | encrypted {tree tree' : MtObj} {log : List Emitted} {buffer data image : List UInt8} {pgno : ℕ}
      {forCtx : Bool} {env : CodecEnv ctx} (run : CodecRun tree log)
      (hd : data.length = ctx.pageSz) (hb : buffer.length = ctx.pageSz)
      (h : sqlite3Codec ctx H tree buffer data pgno (if forCtx then .write else .journal) env =
        .ok ⟨.ok, some image, tree'⟩) :
      CodecRun tree' (log ++ [⟨forCtx,pgno,data,image⟩])

/-- The part of a page that goes through the cipher. -/
def Emitted.written (w : Emitted) : Written :=
  ⟨w.forCtx, w.pgno, (w.data.drop (ctx.offset w.pgno)).take (ctx.usable w.pgno),
    w.image.drop (ctx.offset w.pgno)⟩

variable {ctx H}

lemma copyHeader_length {pgno : ℕ} {buffer : List UInt8} (header : List UInt8)
    (hb : buffer.length = ctx.pageSz) :
    (copyHeader ctx pgno buffer header).length = ctx.pageSz := by
  have hle := offset_add_reserve_le ctx pgno
  unfold copyHeader
  split_ifs
  · rw [overwrite_length _ _ (by rw [List.length_take]; omega), hb]
  · exact hb

lemma codecReturn_ok {pgno : ℕ} {buffer : List UInt8} {res : Except Crash PageResult}
    {page : Option (List UInt8)} {tree : MtObj}
    (h : codecReturn ctx pgno buffer res = .ok ⟨.ok,page,tree⟩) :
    ∃ out, res = .ok ⟨.ok,out,tree⟩ ∧ page = some (buffer.take (ctx.offset pgno) ++ out) := by
  match res, h with
  | .ok ⟨.ok,out,_⟩, h =>
    cases h
    exact ⟨out, rfl, rfl⟩

/-- A successful write or journal call is a successful page encryption behind the header. -/
lemma codec_encrypted {tree tree' : MtObj} {buffer data image : List UInt8} {pgno : ℕ}
    {forCtx : Bool} {env : CodecEnv ctx} (hb : buffer.length = ctx.pageSz)
    (h : sqlite3Codec ctx H tree buffer data pgno (if forCtx then .write else .journal) env =
      .ok ⟨.ok, some image, tree'⟩) :
    ∃ out, out.length = ctx.cipherSz pgno ∧
      sqlcipherPageCipher ctx H tree forCtx pgno .encrypt (ctx.cipherSz pgno) env.toEnv
        (data.drop (ctx.offset pgno)) out = .ok ⟨.ok, image.drop (ctx.offset pgno), tree'⟩ := by
  have henc : codecEncrypt ctx H tree buffer data pgno forCtx env =
      .ok ⟨.ok, some image, tree'⟩ := by
    unfold sqlite3Codec at h
    by_cases hk : (!env.keyDerive) = true
    · rw [if_pos hk] at h
      cases h
    · rw [if_neg hk] at h
      cases forCtx <;> exact h
  unfold codecEncrypt at henc
  by_cases hsalt : (pgno = 1 && !env.kdfSaltRead) = true
  · rw [if_pos hsalt] at henc
    cases henc
  rw [if_neg hsalt] at henc
  generalize hbuf : copyHeader ctx pgno buffer _ = buf at henc
  obtain ⟨out, hres, hpage⟩ := codecReturn_ok henc
  have hl : buf.length = ctx.pageSz := by rw [← hbuf, copyHeader_length _ hb]
  have hle := offset_add_reserve_le ctx pgno
  have htake : (buf.take (ctx.offset pgno)).length = ctx.offset pgno := by
    rw [List.length_take]
    omega
  cases hpage
  refine ⟨buf.drop (ctx.offset pgno), by rw [List.length_drop, hl]; rfl, ?_⟩
  rw [List.drop_left' htake]
  exact hres

/-- Every codec run is a run of page encryptions. -/
theorem CodecRun.encRun {tree : MtObj} {log : List Emitted} (run : CodecRun ctx H tree log) :
    EncRun ctx H tree (log.map (Emitted.written ctx)) := by
  induction run with
  | create => exact .create
  | reopen _ ih => exact ih.reopen
  | encrypted _ hd hb h ih =>
    obtain ⟨out, ho, henc⟩ := codec_encrypted hb h
    rw [List.map_append]
    exact ih.encrypted (by rw [List.length_drop, hd]; rfl) ho henc

/-- Every page emitted in a run is read back, at any later point, as the usable bytes it
was made from. -/
theorem emitted_page_readable {tree : MtObj} {log : List Emitted} (run : CodecRun ctx H tree log)
    (hinv : ctx.provider.Inverts) (hkeys : ctx.readCtx = ctx.writeCtx) {w : Emitted} (hw : w ∈ log)
    {buffer : List UInt8} (hb : buffer.length = ctx.pageSz) {env : CodecEnv ctx}
    (hkey : env.keyDerive = true) :
    ∃ page, sqlite3Codec ctx H tree buffer w.image w.pgno .read env = .ok ⟨.ok, some page, tree⟩ ∧
      page.length = ctx.pageSz ∧
      slice (ctx.offset w.pgno) (ctx.usable w.pgno) page =
        slice (ctx.offset w.pgno) (ctx.usable w.pgno) w.data := by
  have hle := offset_add_reserve_le ctx w.pgno
  simp only [sqlite3Codec, hkey, Bool.not_true, Bool.false_eq_true, if_false]
  generalize hbuf : copyHeader ctx w.pgno buffer _ = buf
  have hl : buf.length = ctx.pageSz := by rw [← hbuf, copyHeader_length _ hb]
  have htake : (buf.take (ctx.offset w.pgno)).length = ctx.offset w.pgno := by
    rw [List.length_take]
    omega
  obtain ⟨r, hr, hrl, hplain⟩ := run.encRun.ok.page_readable hinv hkeys
    (List.mem_map_of_mem (f := Emitted.written ctx) hw) false env.toEnv
    (show (buf.drop (ctx.offset w.pgno)).length = _ by rw [List.length_drop, hl]; rfl)
  refine ⟨buf.take (ctx.offset w.pgno) ++ r, ?_, ?_, ?_⟩
  · exact congrArg (codecReturn ctx w.pgno buf) hr
  · rw [List.length_append, htake, hrl]
    simp only [Emitted.written, CodecCtx.cipherSz]
    omega
  · rw [slice, List.drop_left' htake]
    exact hplain

/-- A write or journal call succeeds whenever the page cipher does. -/
lemma codec_succeeds {tree : MtObj} {log : List Written} (hrun : RunOk ctx H tree log)
    (htot : ctx.provider.Total) (hk : ctx.keySz ≠ 0) (ht : ctx.provider.hmacSz/2 ≤ hashLength)
    (hn : log.length + 1 < mtAlMaxElems) (env : CodecEnv ctx) (hr : env.random ≠ none)
    (hmem : ∀ k, env.mem k = true) (hkey : env.keyDerive = true) (hsalt : env.kdfSaltRead = true)
    (buffer data : List UInt8) (pgno : ℕ) (forCtx : Bool) :
    ∃ image tree',
      sqlite3Codec ctx H tree buffer data pgno (if forCtx then .write else .journal) env =
      .ok ⟨.ok, some image, tree'⟩ := by
  have henc : ∃ image tree', codecEncrypt ctx H tree buffer data pgno forCtx env =
      .ok ⟨.ok, some image, tree'⟩ := by
    simp only [codecEncrypt, hsalt, Bool.not_true, Bool.and_false, Bool.false_eq_true, if_false]
    generalize copyHeader ctx pgno buffer _ = buf
    obtain ⟨image, tree', h⟩ := hrun.encrypt_succeeds htot hk ht hn env.toEnv hr hmem forCtx pgno
      (data.drop (ctx.offset pgno)) (buf.drop (ctx.offset pgno))
    exact ⟨_, _, congrArg (codecReturn ctx pgno buf) h⟩
  simp only [sqlite3Codec, hkey, Bool.not_true, Bool.false_eq_true, if_false]
  cases forCtx <;> exact henc

def sampleEnv : CodecEnv sampleCtx :=
  ⟨⟨some ⟨List.replicate sampleCtx.reserveSz 7, by simp⟩, fun _ => true⟩, true, true⟩

def sampleData (b : UInt8) : List UInt8 := List.replicate sampleCtx.pageSz b

lemma sampleData_length (b : UInt8) : (sampleData b).length = sampleCtx.pageSz :=
  List.length_replicate

/-- Page 1 is written, then page 2 is journaled; the image of page 1 is still readable. -/
theorem emitted_page_readable_first : ∃ tree log, CodecRun sampleCtx xorHash tree log ∧
    log.length = 2 ∧ ∃ w ∈ log, w.pgno = 1 ∧ ∃ page,
      sqlite3Codec sampleCtx xorHash tree (sampleData 0) w.image 1 .read sampleEnv =
        .ok ⟨.ok, some page, tree⟩ ∧ slice 16 400 page = slice 16 400 (sampleData 5) := by
  obtain ⟨i1, t1, h1⟩ := codec_succeeds (H := xorHash) runOk_create
    sampleProvider_total (by decide) (by decide) (by decide) sampleEnv (by simp [sampleEnv])
    (fun _ => rfl) rfl rfl (sampleData 0) (sampleData 5) 1 true
  have r1 := CodecRun.create.encrypted (sampleData_length 5) (sampleData_length 0) h1
  obtain ⟨i2, t2, h2⟩ := codec_succeeds r1.encRun.ok
    sampleProvider_total (by decide) (by decide) (by simp [mtAlMaxElems]) sampleEnv
    (by simp [sampleEnv]) (fun _ => rfl) rfl rfl (sampleData 0) (sampleData 6) 2 false
  have r2 := r1.encrypted (sampleData_length 6) (sampleData_length 0) h2
  obtain ⟨page, hread, -, hslice⟩ := emitted_page_readable r2 sampleProvider_inverts rfl
    (w := ⟨true, 1, sampleData 5, i1⟩) (by simp) (sampleData_length 0)
    (show sampleEnv.keyDerive = true from rfl)
  exact ⟨_, _, r2, by simp, ⟨true, 1, sampleData 5, i1⟩, by simp, rfl, page, hread, hslice⟩

end IronSafe.Page
