import IronSafe.PipelineStages

/-! The steps of the query thread and of `mk_rec_thread` preserve the invariant. A step changes
the stage of its own thread; of the neighbouring stages it changes only that a ring gets longer
or one more of its values has been consumed. -/
namespace IronSafe.Pipeline
open Bytes Packet Record

variable {q : Query} {s : State}

/-- The producer of a ring has published `xs`, or only written into a free slot. -/
structure Grown {α : Type*} (r r' : Ring α) (xs : List α) : Prop where
  log : r'.log = r.log ++ xs
  taken : r'.taken = r.taken

lemma grown_store {α : Type*} (k : ℕ) (r : Ring α) (x : α) : Grown r (r.store k x) [] :=
  ⟨(List.append_nil _).symm, rfl⟩

lemma grown_publish {α : Type*} (k : ℕ) (r : Ring α) : Grown r (r.publish k) [r.back k] :=
  ⟨rfl, rfl⟩

section Grown

variable {α : Type*} {r r' : Ring α} {xs : List α}

lemma Grown.take (h : Grown r r' xs) {n : ℕ} (hn : n ≤ r.log.length) :
    r'.log.take n = r.log.take n := by
  rw [h.log, List.take_append_of_le_length hn]

lemma Grown.getElem (h : Grown r r' xs) {n : ℕ} {x : α} (hx : r.log[n]? = some x) :
    r'.log[n]? = some x := by
  rw [h.log, List.getElem?_append_left (List.getElem?_eq_some_iff.mp hx).1]
  exact hx

lemma Grown.lt (h : Grown r r' xs) (hlt : r.taken < r.log.length) : r'.taken < r'.log.length := by
  rw [h.log, h.taken, List.length_append]
  omega

end Grown

lemma QueryOk.consume {t : QueryThread} {mkRec : Ring (List Mem)} {mkDone : Bool}
    (h : QueryOk q t mkRec mkDone) : QueryOk q t mkRec.consume mkDone := by
  refine ⟨h.rows, h.done, ?_⟩
  have hphase := h.phase
  cases hpc : t.pc <;> rw [hpc] at hphase <;> try exact hphase
  · exact hphase.consume
  · exact ⟨hphase.1.consume, hphase.2⟩

lemma MakerOk.grown {mkRec mkRec' : Ring (List Mem)} {mkDone mkDone' : Bool} {t : MakerThread}
    {pcs : Ring PoolSlot} {pcsDone : Bool} {xs : List (List Mem)}
    (h : MakerOk mkRec mkDone t pcs pcsDone) (hg : Grown mkRec mkRec' xs)
    (hle : mkRec.taken ≤ mkRec.log.length) (hxs : mkDone = true → xs = [])
    (hdone : mkDone = true → mkDone' = true) : MakerOk mkRec' mkDone' t pcs pcsDone := by
  refine ⟨by rw [h.rows, hg.taken, hg.take hle], h.slots, h.done, ?_⟩
  have hphase := h.phase
  have hend : mkDone = true ∧ mkRec.taken = mkRec.log.length →
      mkDone' = true ∧ mkRec'.taken = mkRec'.log.length := by
    rintro ⟨hd, hlen⟩
    rw [hg.log, hg.taken, hxs hd, List.append_nil]
    exact ⟨hdone hd, hlen⟩
  cases hpc : t.pc <;> rw [hpc] at hphase <;> try exact hphase
  · exact hphase.imp hg.lt hdone
  · exact hdone hphase
  · exact hg.lt hphase
  · exact hg.lt hphase
  · rw [MakerAt, hg.taken]
    exact hg.getElem hphase
  · exact hend hphase
  · exact hend hphase

lemma MakerOk.consume {mkRec : Ring (List Mem)} {mkDone : Bool} {t : MakerThread}
    {pcs : Ring PoolSlot} {pcsDone : Bool} (h : MakerOk mkRec mkDone t pcs pcsDone) :
    MakerOk mkRec mkDone t pcs.consume pcsDone := by
  refine ⟨h.rows, h.slots, h.done, ?_⟩
  have hphase := h.phase
  cases hpc : t.pc <;> rw [hpc] at hphase <;> try exact hphase
  · exact hphase.consume
  · exact ⟨hphase.1.consume, hphase.2⟩
  · exact ⟨hphase.1.consume, hphase.2⟩

/-- The steps of the query thread. -/
lemma Inv.query_step (h : Inv q s) : Inv q (queryStep q s) := by
  obtain ⟨hrows, hdone, hphase⟩ := h.query
  unfold queryStep
  cases hpc : s.query.pc with
  | step =>
    rw [hpc] at hrows hdone hphase
    cases htodo : s.query.todo with
    | nil => exact { h with query := ⟨hrows, hdone, htodo⟩ }
    | cons row todo =>
      exact { h with query := ⟨by simpa [htodo, QueryPc.inHand] using hrows, hdone, trivial⟩ }
  | wait row =>
    rw [hpc] at hrows hdone hphase
    dsimp only
    split_ifs with hfull
    · exact h
    · have hroom := h.mkRec.room_of_not_full (by decide) (by simpa using hfull)
      exact { h with query := ⟨hrows, hdone, hroom⟩ }
  | store row =>
    rw [hpc] at hrows hdone hphase
    exact { h with
      query := ⟨hrows, hdone, hphase, Ring.back_store _⟩
      mkRec := h.mkRec.store (by decide) hphase _
      maker := h.maker.grown (grown_store _ _ _) h.mkRec.taken_le (fun _ => rfl) id }
  | publish row =>
    rw [hpc] at hrows hdone hphase
    have hback := hphase.2
    exact { h with
      query := ⟨by simpa [QueryPc.inHand, hback] using hrows, hdone, trivial⟩
      mkRec := h.mkRec.publish (by decide) hphase.1
      maker := h.maker.grown (grown_publish _ _) h.mkRec.taken_le
        (fun hd => by rw [hdone] at hd; cases hd) id }
  | returned =>
    rw [hpc] at hrows hdone hphase
    exact { h with query := ⟨hrows, hdone, trivial⟩ }
  | finish =>
    rw [hpc] at hrows hdone hphase
    exact { h with
      query := ⟨hrows, rfl, hphase⟩
      maker := h.maker.grown ⟨(List.append_nil _).symm, rfl⟩ h.mkRec.taken_le (fun _ => rfl)
        fun _ => rfl }
  | exited => exact h

/-- A frame that has been copied ahead is in the ring. -/
lemma ConsumerOk.ahead_le {pcs : Ring PoolSlot} {pcsDone : Bool} {t : ConsumerThread}
    (h : ConsumerOk pcs pcsDone t) (hle : pcs.taken ≤ pcs.log.length) :
    pcs.taken + t.pc.ahead ≤ pcs.log.length := by
  have hphase := h.phase
  cases hpc : t.pc <;> rw [hpc] at hphase <;> first | exact hle | exact hphase

lemma ConsumerOk.grown {pcs pcs' : Ring PoolSlot} {pcsDone pcsDone' : Bool} {t : ConsumerThread}
    {xs : List PoolSlot} (h : ConsumerOk pcs pcsDone t) (hg : Grown pcs pcs' xs)
    (hle : pcs.taken ≤ pcs.log.length) (hxs : pcsDone = true → xs = [])
    (hdone : pcsDone = true → pcsDone' = true) : ConsumerOk pcs' pcsDone' t := by
  have hphase := h.phase
  have hend : pcsDone = true ∧ pcs.taken = pcs.log.length →
      pcsDone' = true ∧ pcs'.taken = pcs'.log.length := by
    rintro ⟨hd, hlen⟩
    rw [hg.log, hg.taken, hxs hd, List.append_nil]
    exact ⟨hdone hd, hlen⟩
  refine ⟨by rw [h.frames, hg.taken, hg.take (h.ahead_le hle)], h.sent, h.filling, h.notLast,
    h.last, ?_⟩
  cases hpc : t.pc <;> rw [hpc] at hphase <;> try exact hphase
  · exact hphase.imp hg.lt hdone
  · exact hdone hphase
  · exact hg.lt hphase
  · exact hg.lt hphase
  · obtain ⟨x, hx, hrest⟩ := hphase
    exact ⟨x, by rw [hg.taken]; exact hg.getElem hx, hrest⟩
  · exact hg.lt hphase
  · exact hend hphase
  · exact ⟨hphase.1, hphase.2.1, fun hl => hend (hphase.2.2 hl)⟩
  · exact hend hphase
  · obtain ⟨x, hx, hsize⟩ := hphase
    exact ⟨x, by rw [hg.log]; exact List.mem_append_left _ hx, hsize⟩

def MakerPc.enqueues : MakerPc → Bool
  | .space _ | .storeRecord _ | .storeSize _ | .publish _ => true
  | _ => false

/-- What `mk_rec_thread` knows of the second ring while it enqueues a record. -/
def EnqueueAt (pcs : Ring PoolSlot) : MakerPc → Prop
  | .storeRecord _ => pcs.Room recPool
  | .storeSize r => pcs.Room recPool ∧ (pcs.back recPool).record = serialize r
  | .publish r => pcs.Room recPool ∧ pcs.back recPool = slotOf (serialize r)
  | _ => True

/-- A step that brings a record closer to the second ring: it ends in `s'`, and `xs` is what it
has published. -/
structure Enqueued (s s' : State) (xs : List PoolSlot) : Prop where
  eq : s' = { s with pcs := s'.pcs, maker := { s.maker with pc := s'.maker.pc } }
  pc : s'.maker.pc = .poll ∨ s'.maker.pc.enqueues = true
  wf : s'.pcs.Wf recPool
  grown : Grown s.pcs s'.pcs xs
  slots : xs ++ s'.maker.pc.unpublished = s.maker.pc.unpublished
  phase : EnqueueAt s'.pcs s'.maker.pc

lemma makerStep_enqueue (cfg : Config) (a : Alloc) (hwf : s.pcs.Wf recPool)
    (hpc : s.maker.pc.enqueues = true) (hphase : EnqueueAt s.pcs s.maker.pc) :
    ∃ xs, Enqueued s (makerStep cfg a s) xs := by
  have hsame : Grown s.pcs s.pcs [] := ⟨(List.append_nil _).symm, rfl⟩
  unfold makerStep
  cases hm : s.maker.pc with
  | space r =>
    dsimp only
    split_ifs with hfull
    · exact ⟨[], rfl, .inr hpc, hwf, hsame, rfl, hphase⟩
    · have hroom := hwf.room_of_not_full (by decide) (by simpa using hfull)
      exact ⟨[], rfl, .inr rfl, hwf, hsame, by rw [hm]; rfl, hroom⟩
  | storeRecord r =>
    rw [hm] at hphase
    exact ⟨[], rfl, .inr rfl, hwf.store (by decide) hphase _, grown_store _ _ _,
      by rw [hm]; rfl, hphase, by rw [Ring.back_store]⟩
  | storeSize r =>
    rw [hm] at hphase
    have hback := congrArg (fun record => PoolSlot.mk record (serialize r).length) hphase.2
    exact ⟨[], rfl, .inr rfl, hwf.store (by decide) hphase.1 _, grown_store _ _ _,
      by rw [hm]; rfl, hphase.1, (Ring.back_store _).trans hback⟩
  | publish r =>
    rw [hm] at hphase
    exact ⟨_, rfl, .inl rfl, hwf.publish (by decide) hphase.1, grown_publish _ _,
      by rw [hm, hphase.2]; rfl, trivial⟩
  | poll | pollDone | check | checkEmpty | take | read | advance aMem
  | count aMem | finish | exited =>
    rw [hm] at hpc
    cases hpc

lemma MakerPc.inHand_of_enqueues {pc : MakerPc} (h : pc = .poll ∨ pc.enqueues = true) :
    pc.inHand = [] ∧ pc.isExited = false := by
  cases pc <;> simp_all [MakerPc.enqueues, MakerPc.inHand, MakerPc.isExited]

lemma MakerAt.of_enqueue {mkRec : Ring (List Mem)} {mkDone : Bool} {pcs : Ring PoolSlot}
    {pc : MakerPc} (hpc : pc = .poll ∨ pc.enqueues = true) (h : EnqueueAt pcs pc) :
    MakerAt mkRec mkDone pcs pc := by
  cases pc <;> first | exact h | simp [MakerPc.enqueues] at hpc

lemma Inv.maker_enqueue (h : Inv q s) (cfg : Config) (a : Alloc) (hpc : s.maker.pc.enqueues = true)
    (hphase : EnqueueAt s.pcs s.maker.pc) : Inv q (makerStep cfg a s) := by
  obtain ⟨xs, hs, hpc', hwf, hgrown, hslots, hphase'⟩ := makerStep_enqueue cfg a h.pcs hpc hphase
  obtain ⟨hhand, hexit⟩ := MakerPc.inHand_of_enqueues (.inr hpc)
  obtain ⟨hhand', hexit'⟩ := MakerPc.inHand_of_enqueues hpc'
  obtain ⟨hrows, hlog, hdone, -⟩ := h.maker
  rw [hhand] at hrows
  rw [hexit] at hdone
  rw [hs]
  refine { h with
    maker := ⟨by dsimp only; rw [hhand', hrows], ?_, hdone.trans hexit'.symm,
      .of_enqueue hpc' hphase'⟩
    pcs := hwf
    consumer :=
      h.consumer.grown hgrown h.pcs.taken_le (fun hd => by rw [hdone] at hd; cases hd) id }
  dsimp only
  rw [hgrown.log, List.append_assoc, hslots, hlog]

/-- The steps of `mk_rec_thread`. -/
lemma Inv.maker_step (h : Inv q s) (cfg : Config) (a : Alloc) : Inv q (makerStep cfg a s) := by
  obtain ⟨hrows, hslots, hdone, hphase⟩ := h.maker
  unfold makerStep
  cases hpc : s.maker.pc with
  | poll =>
    rw [hpc] at hrows hslots hdone hphase
    refine { h with maker := ?_ }
    cases he : s.mkRec.isEmpty
    · exact ⟨hrows, hslots, hdone, .inl (h.mkRec.lt_of_not_empty (by decide) he)⟩
    · exact ⟨hrows, hslots, hdone, trivial⟩
  | pollDone =>
    rw [hpc] at hrows hslots hdone hphase
    refine { h with maker := ?_ }
    cases hd : s.mkDone
    · exact ⟨hrows, hslots, hdone, trivial⟩
    · exact ⟨hrows, hslots, hdone, .inr rfl⟩
  | check =>
    rw [hpc] at hrows hslots hdone hphase
    refine { h with maker := ?_ }
    cases hd : s.mkDone
    · exact ⟨hrows, hslots, hdone, hphase.resolve_right (by simp [hd])⟩
    · exact ⟨hrows, hslots, hdone, rfl⟩
  | checkEmpty =>
    rw [hpc] at hrows hslots hdone hphase
    refine { h with maker := ?_ }
    cases he : s.mkRec.isEmpty
    · exact ⟨hrows, hslots, hdone, h.mkRec.lt_of_not_empty (by decide) he⟩
    · exact ⟨hrows, hslots, hdone, hphase, (h.mkRec.isEmpty_iff (by decide)).mp he⟩
  | take =>
    rw [hpc] at hrows hslots hdone hphase
    dsimp only
    split_ifs with he
    · exact h
    · exact { h with maker := ⟨hrows, hslots, hdone, hphase⟩ }
  | read =>
    rw [hpc] at hrows hslots hdone hphase
    exact { h with maker := ⟨hrows, hslots, hdone, h.mkRec.front (by decide) hphase⟩ }
  | advance aMem =>
    rw [hpc] at hrows hslots hdone hphase
    have hlt : s.mkRec.taken < s.mkRec.log.length := (List.getElem?_eq_some_iff.mp hphase).1
    refine { h with
      query := h.query.consume
      mkRec := h.mkRec.consume hlt
      maker := ⟨?_, hslots, hdone, trivial⟩ }
    rw [Ring.consume_log, Ring.consume_taken, List.take_add_one, hphase, ← hrows]
    simp [MakerPc.inHand]
  | count aMem =>
    rw [hpc] at hrows hslots hdone hphase
    refine { h with maker := ⟨by simpa [MakerPc.inHand] using hrows, ?_, hdone, trivial⟩ }
    simpa [MakerPc.unpublished] using hslots
  | space r | storeRecord r | storeSize r | publish r =>
    have hinv := h.maker_enqueue cfg a (by rw [hpc]; rfl) (by rw [hpc] at hphase ⊢; exact hphase)
    rw [makerStep, hpc] at hinv
    exact hinv
  | finish =>
    rw [hpc] at hrows hslots hdone hphase
    exact { h with
      maker := ⟨hrows, hslots, rfl, hphase⟩
      consumer := h.consumer.grown ⟨(List.append_nil _).symm, rfl⟩ h.pcs.taken_le (fun _ => rfl)
        fun _ => rfl }
  | exited => exact h

end IronSafe.Pipeline
