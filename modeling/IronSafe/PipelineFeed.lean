import IronSafe.PipelineStream
import IronSafe.PipelineWork

/-! `consumer_func` next to a record-making thread that enqueues a given sequence of records and
then sets the flag `done`. The packets are the greedy partition of the sequence in every
interleaving, provided that each record fits a packet; a record that does not overflows the
packet that it begins. -/
namespace IronSafe.Pipeline
open Bytes Packet Record Greedy

/-- The two threads, with the records that are still to be enqueued. -/
structure Feed where
  todo : List SsdRecord
  machine : State

/-- `mk_rec_thread` with the next record at hand. -/
def feedMaker (cfg : Config) (f : Feed) : Feed :=
  match f.machine.maker.pc, f.todo with
  | .poll, [] =>
    { f with machine := { f.machine with maker := { f.machine.maker with pc := .finish } } }
  | .poll, r :: todo => ⟨todo, { f.machine with maker := { f.machine.maker with pc := .space r } }⟩
  | _, _ => { f with machine := makerStep cfg default f.machine }

inductive FeedAction
  | enqueue | pack (len : ℕ)

def feedStep (cfg : Config) (f : Feed) : FeedAction → Feed
  | .enqueue => feedMaker cfg f
  | .pack len => { f with machine := consumerStep len f.machine }

def noRows : Query := ⟨0, [], fun _ h => absurd h List.not_mem_nil, false⟩

def feedRun (cfg : Config) (rs : List SsdRecord) (schedule : List FeedAction) : Feed :=
  schedule.foldl (feedStep cfg) ⟨rs, initial cfg noRows⟩

def slotsOf (rs : List SsdRecord) : List PoolSlot := (rs.map serialize).map slotOf

def FeedAt (pcs : Ring PoolSlot) (todo : List SsdRecord) (pc : MakerPc) : Prop :=
  (pc = .poll ∨ pc.enqueues = true) ∧ EnqueueAt pcs pc ∨ (pc = .finish ∨ pc = .exited) ∧ todo = []

variable {cfg : Config} {rs : List SsdRecord} {f : Feed}

/-- The records are in the ring or still to come, and the flag is set when none is left. -/
structure FeedOk (rs : List SsdRecord) (f : Feed) : Prop where
  slots : f.machine.pcs.log ++ f.machine.maker.pc.unpublished ++ slotsOf f.todo = slotsOf rs
  done : f.machine.pcsDone = f.machine.maker.pc.isExited
  phase : FeedAt f.machine.pcs f.todo f.machine.maker.pc
  packing : Packing f.machine
  stream : StreamOk f.machine

lemma FeedOk.initial (cfg : Config) (rs : List SsdRecord) : FeedOk rs ⟨rs, initial cfg noRows⟩ where
  slots := rfl
  done := rfl
  phase := .inl ⟨.inl rfl, trivial⟩
  packing := ⟨Ring.wf_create _, nofun, ⟨rfl, nofun, ⟨rfl, cfg.sound⟩, nofun, nofun, trivial⟩⟩
  stream := ⟨nofun, nofun, fun _ => .inl rfl, nofun, Nat.zero_le _, rfl⟩

lemma slot_of_prefix {log : List PoolSlot} (h : log <+: slotsOf rs) :
    ∀ x ∈ log, ∃ r ∈ rs, x = slotOf (serialize r) := by
  intro x hx
  obtain ⟨frame, hframe, rfl⟩ := List.mem_map.mp (h.subset hx)
  obtain ⟨r, hr, rfl⟩ := List.mem_map.mp hframe
  exact ⟨r, hr, rfl⟩

lemma FeedOk.log_prefix (h : FeedOk rs f) : f.machine.pcs.log <+: slotsOf rs := by
  rw [← h.slots, List.append_assoc]
  exact List.prefix_append _ _

/-- A step of the record-making thread, whatever it does to its ring. -/
lemma FeedOk.fed (h : FeedOk rs f) {f' : Feed} {xs : List PoolSlot}
    (hf : Fed f.machine f'.machine xs)
    (hslots : f'.machine.pcs.log ++ f'.machine.maker.pc.unpublished ++ slotsOf f'.todo = slotsOf rs)
    (hdone : f'.machine.pcsDone = f'.machine.maker.pc.isExited)
    (hphase : FeedAt f'.machine.pcs f'.todo f'.machine.maker.pc) : FeedOk rs f' := by
  have hlog : f'.machine.pcs.log <+: slotsOf rs := by
    rw [← hslots, List.append_assoc]
    exact List.prefix_append _ _
  refine ⟨hslots, hdone, hphase, h.packing.fed hf fun x hx => ?_, h.stream.fed hf⟩
  obtain ⟨r, -, hr⟩ := slot_of_prefix hlog x hx
  exact ⟨r, hr⟩

/-- A step that leaves the ring as it is. -/
lemma fed_same {s s' : State} (hwf : s.pcs.Wf recPool) (hpcs : s'.pcs = s.pcs)
    (hdone : s.pcsDone = true → s'.pcsDone = true) (hconsumer : s'.consumer = s.consumer)
    (hsent : s'.sent = s.sent) : Fed s s' [] := by
  refine ⟨⟨?_, ?_⟩, ?_, fun _ => rfl, hdone, hconsumer, hsent⟩
  · rw [hpcs, List.append_nil]
  · rw [hpcs]
  · rw [hpcs]
    exact hwf

lemma Enqueued.pcsDone {s s' : State} {xs : List PoolSlot} (h : Enqueued s s' xs) :
    s'.pcsDone = s.pcsDone := by
  rw [h.eq]

lemma Enqueued.fed {s s' : State} {xs : List PoolSlot} (h : Enqueued s s' xs)
    (hdone : s.pcsDone = false) : Fed s s' xs where
  grown := h.grown
  wf := h.wf
  more hd := by rw [hdone] at hd; cases hd
  done := h.pcsDone.trans
  consumer := by rw [h.eq]
  sent := by rw [h.eq]

lemma feedMaker_of_ne (hpc : f.machine.maker.pc ≠ .poll) :
    feedMaker cfg f = { f with machine := makerStep cfg default f.machine } := by
  unfold feedMaker
  split
  · exact absurd ‹_› hpc
  · exact absurd ‹_› hpc
  · rfl

lemma FeedOk.enqueue_poll (h : FeedOk rs f) (hpc : f.machine.maker.pc = .poll) :
    FeedOk rs (feedMaker cfg f) := by
  have hslots := h.slots
  have hdone := h.done
  rw [hpc] at hslots hdone
  unfold feedMaker
  cases htodo : f.todo with
  | nil =>
    rw [hpc]
    refine h.fed (fed_same h.packing.pcs rfl id rfl rfl) ?_ hdone (.inr ⟨.inl rfl, rfl⟩)
    rw [htodo] at hslots
    exact hslots
  | cons r todo =>
    rw [hpc]
    refine h.fed (fed_same h.packing.pcs rfl id rfl rfl) ?_ hdone (.inl ⟨.inr rfl, trivial⟩)
    rw [htodo] at hslots
    simpa [MakerPc.unpublished, slotsOf] using hslots

/-- The steps of the record-making thread. -/
lemma FeedOk.enqueue (h : FeedOk rs f) : FeedOk rs (feedMaker cfg f) := by
  have hslots := h.slots
  have hdone := h.done
  rcases h.phase with ⟨hpc | hpc, hphase⟩ | ⟨hpc | hpc, hnil⟩
  · exact h.enqueue_poll hpc
  · rw [feedMaker_of_ne (by intro hp; rw [hp] at hpc; cases hpc)]
    obtain ⟨xs, hs⟩ := makerStep_enqueue cfg default h.packing.pcs hpc hphase
    rw [(MakerPc.inHand_of_enqueues (.inr hpc)).2] at hdone
    refine h.fed (hs.fed hdone) ?_ ?_ (.inl ⟨hs.pc, hs.phase⟩)
    · dsimp only
      rw [← hslots, hs.grown.log, List.append_assoc _ xs, hs.slots]
    · exact (hs.pcsDone.trans hdone).trans (MakerPc.inHand_of_enqueues hs.pc).2.symm
  · rw [hpc] at hslots
    rw [feedMaker_of_ne (by rw [hpc]; exact (by cases ·)), makerStep, hpc]
    exact h.fed (fed_same h.packing.pcs rfl (fun _ => rfl) rfl rfl) hslots rfl
      (.inr ⟨.inr rfl, hnil⟩)
  · rw [feedMaker_of_ne (by rw [hpc]; exact (by cases ·)), makerStep, hpc]
    exact h

lemma EnqueueAt.consume {pcs : Ring PoolSlot} {pc : MakerPc} (h : EnqueueAt pcs pc) :
    EnqueueAt pcs.consume pc := by
  cases pc <;> try exact h
  · exact Ring.Room.consume h
  · exact ⟨h.1.consume, h.2⟩
  · exact ⟨h.1.consume, h.2⟩

/-- The steps of `consumer_func`. -/
lemma FeedOk.pack (h : FeedOk rs f) (len : ℕ) :
    FeedOk rs { f with machine := consumerStep len f.machine } := by
  have hmove := h.packing.move len
  have hpacking := hmove.packing h.packing
  have hstream := hmove.stream h.packing h.stream
  generalize consumerStep len f.machine = s' at *
  cases hmove with
  | stay | goto | copy | send | finish => exact { h with packing := hpacking, stream := hstream }
  | advance =>
    have hphase : FeedAt f.machine.pcs.consume f.todo f.machine.maker.pc :=
      h.phase.imp_left fun hp => ⟨hp.1, hp.2.consume⟩
    exact { h with phase := hphase, packing := hpacking, stream := hstream }

lemma FeedOk.step (h : FeedOk rs f) (action : FeedAction) : FeedOk rs (feedStep cfg f action) := by
  cases action with
  | enqueue => exact h.enqueue
  | pack len => exact h.pack len

lemma FeedOk.steps (h : FeedOk rs f) (schedule : List FeedAction) :
    FeedOk rs (schedule.foldl (feedStep cfg) f) := by
  induction schedule generalizing f with
  | nil => exact h
  | cons action schedule ih => exact ih (h.step action)

lemma feedOk_run (cfg : Config) (rs : List SsdRecord) (schedule : List FeedAction) :
    FeedOk rs (feedRun cfg rs schedule) :=
  (FeedOk.initial cfg rs).steps schedule

/-- What is left to do: the records to enqueue, the steps of the record in hand and the work of
`consumer_func`. -/
def feedWork (f : Feed) : ℕ ×ₗ ℕ ×ₗ ℕ ×ₗ ℕ :=
  toLex (f.todo.length, toLex (f.machine.maker.pc.rank true, consumerWork f.machine))

lemma makerRank_enqueue {s : State} (hpc : s.maker.pc.enqueues = true)
    (hfull : s.pcs.isFull recPool = false) :
    (makerStep cfg default s).maker.pc.rank true < s.maker.pc.rank true := by
  unfold makerStep
  cases hm : s.maker.pc with
  | space r =>
    rw [hfull]
    simp [MakerPc.rank]
  | storeRecord r | storeSize r | publish r => simp [MakerPc.rank]
  | poll | pollDone | check | checkEmpty | take | read | advance aMem
  | count aMem | finish | exited =>
    rw [hm] at hpc
    cases hpc

/-- The record-making thread waits only for room in the ring. -/
lemma FeedOk.enqueue_advances (h : FeedOk rs f) (hexit : f.machine.maker.pc ≠ .exited)
    (hfull : f.machine.pcs.isFull recPool = false) : feedWork (feedMaker cfg f) < feedWork f := by
  rcases h.phase with ⟨hpc | hpc, -⟩ | ⟨hpc | hpc, -⟩
  · unfold feedMaker
    rw [hpc]
    cases htodo : f.todo with
    | nil => exact lex_right (by rw [htodo]) (lex_left (by simp [hpc, MakerPc.rank]))
    | cons r todo => exact lex_left (by rw [htodo]; exact Nat.lt_succ_self _)
  · rw [feedMaker_of_ne (by intro hp; rw [hp] at hpc; cases hpc)]
    exact lex_right rfl (lex_left (makerRank_enqueue hpc hfull))
  · rw [feedMaker_of_ne (by rw [hpc]; exact (by cases ·)), makerStep, hpc]
    exact lex_right rfl (lex_left (by simp [hpc, MakerPc.rank]))
  · exact absurd hpc hexit

/-- `consumer_func` waits only while a record is to come and the ring has room for it. -/
lemma FeedOk.pack_advances (h : FeedOk rs f) (hexit : f.machine.consumer.pc ≠ .exited)
    (hcrash : f.machine.consumer.pc ≠ .crashed)
    (hstuck : f.machine.maker.pc = .exited ∨ f.machine.pcs.isFull recPool = true) :
    feedWork { f with machine := consumerStep 0 f.machine } < feedWork f := by
  have hwait : ¬ ConsumerWaits f.machine := by
    rintro ⟨-, hempty, hdone⟩
    rcases hstuck with hpc | hfull
    · rw [h.done, hpc] at hdone
      cases hdone
    · rw [h.packing.pcs.not_full_of_empty (by decide) hempty] at hfull
      cases hfull
  have hsame := (consumerStep_same 0 f.machine).maker
  exact lex_right rfl (lex_right (by rw [hsame]) (consumerWork_lt h.packing 0 hexit hcrash hwait))

/-- From every state that a run can reach, the threads can be scheduled so that `consumer_func`
exits, unless it overflows a packet. -/
lemma FeedOk.finishes (cfg : Config) (h : FeedOk rs f) : ∃ schedule : List FeedAction,
    let t := (schedule.foldl (feedStep cfg) f).machine.consumer
    t.pc = .exited ∨ t.pc = .crashed := by
  induction hw : feedWork f using WellFoundedLT.induction generalizing f with
  | ind w ih =>
    by_cases hend : f.machine.consumer.pc = .exited ∨ f.machine.consumer.pc = .crashed
    · exact ⟨[], hend⟩
    · obtain ⟨hexit, hcrash⟩ := not_or.mp hend
      obtain ⟨action, hlt⟩ : ∃ action, feedWork (feedStep cfg f action) < feedWork f := by
        by_cases hstuck : f.machine.maker.pc = .exited ∨ f.machine.pcs.isFull recPool = true
        · exact ⟨.pack 0, h.pack_advances hexit hcrash hstuck⟩
        · obtain ⟨hmaker, hfull⟩ := not_or.mp hstuck
          exact ⟨.enqueue, h.enqueue_advances hmaker (by simpa using hfull)⟩
      obtain ⟨schedule, hdone⟩ := ih _ (hw ▸ hlt) (h.step action) rfl
      exact ⟨action :: schedule, hdone⟩

/-- When the flag is set all records are in the ring. -/
lemma FeedOk.log_eq (h : FeedOk rs f) (hdone : f.machine.pcsDone = true) :
    f.machine.pcs.log = slotsOf rs := by
  have hslots := h.slots
  rw [h.done] at hdone
  rcases h.phase with ⟨hpc, -⟩ | ⟨hpc | hpc, hnil⟩
  · rw [(MakerPc.inHand_of_enqueues hpc).2] at hdone
    cases hdone
  · rw [hpc] at hdone
    cases hdone
  · rw [hpc, hnil] at hslots
    simpa [MakerPc.unpublished, slotsOf] using hslots

lemma FeedOk.not_crashed (h : FeedOk rs f) (hfit : ∀ r ∈ rs, (serialize r).length ≤ payloadSize) :
    f.machine.consumer.pc ≠ .crashed := by
  intro hpc
  have hphase := h.packing.consumer.phase
  rw [hpc] at hphase
  obtain ⟨x, hx, hover⟩ := hphase
  obtain ⟨r, hr, rfl⟩ := slot_of_prefix h.log_prefix x hx
  exact absurd (hfit r hr) (Nat.not_le.mpr hover)

/-- The bytes on the wire are the record packets of the greedy partition and one end packet. -/
def Streamed (sent : List UInt8) (frames : List (List UInt8)) : Prop :=
  ∃ (packets : List RecordBatch) (last : RecordBatch),
    sent = ((packets ++ [last]).map serializeBeforeSend).flatten ∧
    List.Forall₂ Carries packets (Greedy.parts List.length payloadSize frames) ∧
    last.pktType = .endPkt

lemma FeedOk.streamed (h : FeedOk rs f) (hexit : f.machine.consumer.pc = .exited) :
    f.machine.consumer.parts = Greedy.parts List.length payloadSize (rs.map serialize) ∧
      Streamed f.machine.sent (rs.map serialize) := by
  have hphase := h.packing.consumer.phase
  have hbytes := h.stream.bytes
  rw [hexit] at hphase hbytes
  have hparts := h.stream.parts_eq h.packing (by rw [hexit]; rfl) (h.log_eq hphase.1) hphase.2
  obtain ⟨ps, p, hpackets, hend, hothers⟩ := h.packing.consumer.last (by rw [hexit]; rfl)
  have hrecords : f.machine.consumer.records = ps := by
    rw [ConsumerThread.records, hpackets, List.filter_append,
      List.filter_eq_self.mpr (by simpa using hothers)]
    simp [hend]
  refine ⟨hparts, ps.map Sent.batch, p.batch, ?_, ?_, hend⟩
  · rw [hpackets] at hbytes
    simpa [ConsumerPc.unsent, Function.comp_def] using hbytes
  · rw [← hparts, ConsumerThread.parts, hrecords, List.forall₂_map_left_iff,
      List.forall₂_map_right_iff, List.forall₂_same]
    exact fun p hp => h.stream.carries p (hrecords ▸ hp)

/-- The packets do not depend on the interleaving. Every run can be continued until
`consumer_func` exits, and then it has sent the greedy partition of the records and one end
packet; at any moment before it has sent the first packets of that. -/
theorem packets_greedy {cfg : Config} {rs : List SsdRecord}
    (hfit : ∀ r ∈ rs, (serialize r).length ≤ payloadSize) (schedule : List FeedAction) :
    let s := (feedRun cfg rs schedule).machine
    s.consumer.pc ≠ .crashed ∧
    s.consumer.parts <+: Greedy.parts List.length payloadSize (rs.map serialize) ∧
    (s.consumer.pc = .exited → Streamed s.sent (rs.map serialize)) ∧
    ∃ rest, (feedRun cfg rs (schedule ++ rest)).machine.consumer.pc = .exited := by
  have h := feedOk_run cfg rs schedule
  refine ⟨h.not_crashed hfit, h.stream.parts_prefix h.packing h.log_prefix h.log_eq,
    fun hexit => (h.streamed hexit).2, ?_⟩
  obtain ⟨rest, hend⟩ := h.finishes cfg
  have hend' : FeedOk rs (rest.foldl (feedStep cfg) (feedRun cfg rs schedule)) := h.steps rest
  refine ⟨rest, ?_⟩
  rw [feedRun, List.foldl_append]
  exact hend.resolve_right (hend'.not_crashed hfit)

theorem packets_greedy_two : ∃ schedule,
    Streamed (feedRun plainConfig [⟨[1,2],32,7⟩, ⟨[],0,8⟩] schedule).machine.sent
      [[2,0,0,0,32,0,0,0,1,2,7], [0,0,0,0,0,0,0,0,8]] := by
  have hfit : ∀ r ∈ [SsdRecord.mk [1,2] 32 7, ⟨[],0,8⟩], (serialize r).length ≤ payloadSize := by
    decide
  obtain ⟨-, -, -, schedule, hexit⟩ := @packets_greedy plainConfig _ hfit []
  obtain ⟨-, -, hstream, -⟩ := @packets_greedy plainConfig _ hfit ([] ++ schedule)
  exact ⟨[] ++ schedule, hstream hexit⟩

/-- `sbytes` of `consumer_func`, counting the copy that is under way. -/
def ConsumerThread.sbytes (t : ConsumerThread) : ℕ :=
  match t.pc with
  | .copy inner size => (t.target inner).sbytes + size
  | _ => t.batching.sbytes

def ConsumerThread.window (t : ConsumerThread) : ℤ := payloadSize - t.sbytes

/-- At every step of the packing all copied bytes lie inside the packet, and the records are
copied whole. -/
def NeverOverflows (cfg : Config) (rs : List SsdRecord) : Prop :=
  ∀ schedule, let t := (feedRun cfg rs schedule).machine.consumer
    t.pc ≠ .crashed ∧ t.sbytes ≤ payloadSize ∧ 0 ≤ t.window ∧
      t.parts.flatten ++ t.frames <+: rs.map serialize

/-- The copy under way stays inside the packet, since it is the first or has been tested. -/
lemma FeedOk.sbytes_le (h : FeedOk rs f) (hfit : ∀ r ∈ rs, (serialize r).length ≤ payloadSize) :
    f.machine.consumer.sbytes ≤ payloadSize := by
  unfold ConsumerThread.sbytes
  split
  · rename_i inner size hpc
    obtain ⟨r, hx, -, hlen, hroom⟩ := h.packing.copy_slot hpc
    cases inner with
    | true => exact hroom rfl
    | false =>
      obtain ⟨r', hr', heq⟩ := slot_of_prefix h.log_prefix _ (List.mem_of_getElem? hx)
      rw [hlen, slotOf_injective heq]
      exact (Nat.zero_add _).trans_le (hfit r' hr')
  · exact h.stream.sbytes

lemma neverOverflows_of_fits (hfit : ∀ r ∈ rs, (serialize r).length ≤ payloadSize) :
    NeverOverflows cfg rs := by
  intro schedule
  have h := feedOk_run cfg rs schedule
  have hle := h.sbytes_le hfit
  refine ⟨h.not_crashed hfit, hle, ?_, ?_⟩
  · unfold ConsumerThread.window
    omega
  · rw [h.packing.packed h.log_prefix]
    exact List.take_prefix _ _

/-- A record packet holds only records that fit, and in the end all records are in packets. -/
lemma NeverOverflows.fits (h : NeverOverflows cfg rs) :
    ∀ r ∈ rs, (serialize r).length ≤ payloadSize := by
  intro r hr
  obtain ⟨schedule, hend⟩ := (FeedOk.initial cfg rs).finishes cfg
  have hexit : (feedRun cfg rs schedule).machine.consumer.pc = .exited :=
    hend.resolve_right (h schedule).1
  have hok := feedOk_run cfg rs schedule
  have hphase := hok.packing.consumer.phase
  rw [hexit] at hphase
  have hpacked := hok.packing.packed_outer (by rw [hexit]; rfl) hok.log_prefix
  rw [hphase.2, hok.log_eq hphase.1, slotsOf, List.length_map, List.take_length,
    hok.packing.consumer.parts_flatten] at hpacked
  have hmem : serialize r ∈ rs.map serialize := List.mem_map_of_mem hr
  rw [← hpacked] at hmem
  obtain ⟨p, hp, hframe⟩ := List.mem_flatMap.mp hmem
  exact (hok.packing.consumer.sent p hp).fits _ hframe

/-- The first record of a packet is copied without a test, so a record that is longer than the
payload overflows it, and no other does. -/
theorem never_overflows_iff (cfg : Config) (rs : List SsdRecord) :
    NeverOverflows cfg rs ↔ ∀ r ∈ rs, (serialize r).length ≤ payloadSize :=
  ⟨NeverOverflows.fits, neverOverflows_of_fits⟩

lemma payload_le_record {row : List Mem} (hreal : ∀ m ∈ row, m.intReal = false)
    (hst : ∀ m ∈ row, serialTypeOf cfg.fileFormat m < 2^32) (a : Alloc)
    (hsize : (makeSsdRecord cfg.fileFormat cfg.toDouble row.length row a.garbage).nHdr < 2^31) :
    (payloadOf cfg.fileFormat row).length ≤ (serialize (cfg.record a row.length row)).length := by
  have hfits := (makeSsdRecord_made hreal hst a.garbage hsize).fits
  rw [record_length hreal hst a hsize]
  omega

lemma longText_size : (List.replicate (2^20) (97 : UInt8)).length + 0 < 2^31 := by
  rw [List.length_replicate]
  norm_num

/-- A text of `2^20` letters, which is far below `SQLITE_MAX_LENGTH`. -/
def longText : Mem :=
  ⟨false, true, false, false, false, false, false, 0, 0, List.replicate (2^20) 97, longText_size⟩

lemma longText_length : longText.z.length = 2^20 := List.length_replicate

lemma serialTypeOf_longText : serialTypeOf 4 longText = 2^21 + 13 := by
  have htail : longText.tail = 0 := if_neg (by exact Bool.false_ne_true)
  have hstr : longText.str = true := rfl
  rw [serialTypeOf_bytes rfl, longText_length, htail, hstr]
  norm_num

lemma longText_record :
    payloadSize < (serialize (plainConfig.record default 1 [longText])).length := by
  have hreal : ∀ m ∈ [longText], m.intReal = false := by
    intro m hm
    rw [List.mem_singleton.mp hm]
    rfl
  have hst : ∀ m ∈ [longText], serialTypeOf 4 m < 2^32 := by
    intro m hm
    rw [List.mem_singleton.mp hm, serialTypeOf_longText]
    norm_num
  have hs : SizedBy 4 [longText] (sizingPass 4 id [longText]) := sizingPass_sized hreal hst
  have hhdr :
      (makeSsdRecord 4 id [longText].length [longText] (default : Alloc).garbage).nHdr < 2^31 := by
    rw [makeSsdRecord, List.take_length]
    dsimp only
    rw [hs.nHdr, List.map_singleton, serialTypeOf_longText]
    decide
  have hle := @payload_le_record plainConfig [longText] hreal hst default hhdr
  rw [payloadOf, List.map_singleton, List.flatten_singleton, content_bytes rfl, longText_length,
    List.length_singleton] at hle
  have hsize : payloadSize < 2^20 := by decide
  exact hsize.trans_le hle

theorem long_text_overflows :
    ¬ NeverOverflows plainConfig [plainConfig.record default 1 [longText]] := by
  intro h
  exact absurd (h.fits _ List.mem_cons_self) (Nat.not_le.mpr longText_record)

end IronSafe.Pipeline
