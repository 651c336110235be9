import IronSafe.PipelineSteps

/-! The steps of the storage server's `consumer_func`. What a step can do is said once; from it
follows that every frame is packed once, that a packet never overflows its payload and that the
end packet is the last. -/
namespace IronSafe.Pipeline
open Bytes Packet Record

variable {q : Query} {s s' : State}

lemma slotOf_injective : Function.Injective slotOf := fun _ _ h => congrArg PoolSlot.record h

lemma hostMem_serialize {r : SsdRecord} (hr : (serialize r).length ≤ payloadSize) :
    hostMem (serialize r) = some r.received := by
  have hp : payloadSize < 2^31 := by decide
  have hd := deserialize_serialize r [] (by rw [serialize_length] at hr; omega)
  rw [List.append_nil] at hd
  rw [hostMem, hd]
  rfl

lemma filled_nil {stale : List UInt8} (hs : stale.length = payloadSize) :
    Filled ⟨⟨.recPkt,0,stale⟩,0⟩ [] :=
  ⟨[], stale, rfl, Nat.zero_le _, hs, rfl⟩

section Filled

variable {b : Batching} {frames : List (List UInt8)}

lemma Filled.sbytes (h : Filled b frames) : b.sbytes = (frames.map List.length).sum := by
  obtain ⟨rs, stale, rfl, hfit, hs, rfl⟩ := h
  have hsum := frames_length_sum rs
  obtain ⟨-, -, h3, -⟩ := push_foldl (rs.map serialize) ⟨⟨.recPkt,0,stale⟩,0⟩ (by dsimp only; omega)
  rw [h3]
  exact Nat.zero_add _

lemma Filled.push (h : Filled b frames) (r : SsdRecord)
    (hr : b.sbytes + (serialize r).length ≤ payloadSize) :
    Filled (b.push (serialize r)) (frames ++ [serialize r]) := by
  have hb := h.sbytes
  obtain ⟨rs, stale, rfl, hfit, hs, rfl⟩ := h
  refine ⟨rs ++ [r], stale, by simp, ?_, hs, by simp⟩
  rw [hb, frames_length_sum, serialize_length] at hr
  simpa [framedSize] using hr

lemma Filled.sentOk (h : Filled b frames) :
    SentOk ⟨b.batch, frames⟩ ∧ b.batch.pktType = .recPkt := by
  obtain ⟨rs, stale, rfl, hfit, hs, rfl⟩ := h
  have hrec : (buildBatch stale (rs.map serialize)).pktType = .recPkt := by
    rw [buildBatch_eq hfit hs]
  have hframe : ∀ r ∈ rs, (serialize r).length ≤ payloadSize :=
    fun r hr => (frame_le_framedSize hr).trans hfit
  refine ⟨⟨buildBatch_sound hfit hs, ?_, .inr ⟨hrec, _, batchDeserializeAdd_build hfit hs, ?_⟩⟩,
    hrec⟩
  · simpa using hframe
  · simp only [List.map_map]
    exact List.map_congr_left fun r hr => (hostMem_serialize (hframe r hr)).symm

end Filled

/-- A frame is copied into a filled packet, in the outer loop into an empty one. -/
lemma ConsumerOk.target {pcs : Ring PoolSlot} {pcsDone : Bool} {t : ConsumerThread}
    (h : ConsumerOk pcs pcsDone t) : Filled (t.target t.pc.inner) t.frames := by
  have hfill := h.filling
  cases hi : t.pc.inner with
  | true =>
    rw [hi] at hfill
    exact hfill
  | false =>
    rw [hi] at hfill
    rw [hfill.1]
    exact filled_nil hfill.2.serialData

lemma ConsumerOk.goto {pcs : Ring PoolSlot} {pcsDone : Bool} {t : ConsumerThread}
    (h : ConsumerOk pcs pcsDone t) {pc : ConsumerPc} (hinner : pc.inner = t.pc.inner)
    (hlast : pc.isLast = t.pc.isLast) (hahead : pc.ahead = t.pc.ahead)
    (hphase : ConsumerAt pcs pcsDone t pc) : ConsumerOk pcs pcsDone { t with pc := pc } := by
  refine ⟨?_, h.sent, ?_, ?_, ?_, ?_⟩
  · rw [hahead]
    exact h.frames
  · rw [hinner]
    exact h.filling
  · rw [hlast]
    exact h.notLast
  · rw [hlast]
    exact h.last
  · cases pc <;> exact hphase

/-- `consumer_func` and the ring that it reads. -/
structure Packing (s : State) : Prop where
  pcs : s.pcs.Wf recPool
  slots : ∀ x ∈ s.pcs.log, ∃ r, x = slotOf (serialize r)
  consumer : ConsumerOk s.pcs s.pcsDone s.consumer

/-- The current packet takes no more records: the next one does not fit, or there is none. -/
def Full (pcs : Ring PoolSlot) (pcsDone : Bool) (sbytes : ℕ) : Prop :=
  (∃ x, pcs.log[pcs.taken]? = some x ∧ payloadSize < sbytes + x.size) ∨
    pcsDone = true ∧ pcs.taken = pcs.log.length

/-- What a step of `consumer_func` can do. `chunk` is what `SSL_write` has accepted. -/
inductive ConsumerMove (s : State) : State → Prop
  | stay : ConsumerMove s s
  | goto {pc : ConsumerPc} {chunk : List UInt8} (inner : pc.inner = s.consumer.pc.inner)
      (last : pc.isLast = s.consumer.pc.isLast) (ahead : pc.ahead = s.consumer.pc.ahead)
      (unsent : s.consumer.pc.unsent = chunk ++ pc.unsent)
      (phase : ConsumerAt s.pcs s.pcsDone s.consumer pc)
      (full : pc = .send → Full s.pcs s.pcsDone s.consumer.batching.sbytes) :
      ConsumerMove s { s with sent := s.sent ++ chunk, wire := s.wire ++ chunk
                              consumer := { s.consumer with pc := pc } }
  | copy {i : Bool} {r : SsdRecord} (pc : s.consumer.pc = .copy i (serialize r).length)
      (slot : s.pcs.log[s.pcs.taken]? = some (slotOf (serialize r)))
      (fits : (s.consumer.target i).sbytes + (serialize r).length ≤ payloadSize) :
      ConsumerMove s { s with consumer := { s.consumer with
        pc := .advance, batching := (s.consumer.target i).push (serialize r)
        frames := s.consumer.frames ++ [serialize r] } }
  | advance (pc : s.consumer.pc = .advance) :
      ConsumerMove s
      { s with pcs := s.pcs.consume, consumer := { s.consumer with pc := .poll true } }
  | send (pc : s.consumer.pc = .send) :
      ConsumerMove s { s with consumer := { s.consumer with
        pc := .write (serializeBeforeSend s.consumer.batching.batch) 0 false, frames := []
        packets := s.consumer.packets ++ [⟨s.consumer.batching.batch, s.consumer.frames⟩] } }
  | finish {b : RecordBatch} (pc : s.consumer.pc = .finish)
      (batch : b = { s.consumer.batching.batch with pktType := .endPkt }) :
      ConsumerMove s { s with consumer := { s.consumer with
        pc := .write (serializeBeforeSend b) 0 true
        batching := { s.consumer.batching with batch := b }
        packets := s.consumer.packets ++ [⟨b,[]⟩] } }

/-- A step that only moves on. -/
lemma consumerMove_goto {pc₀ pc : ConsumerPc} (hpc : s.consumer.pc = pc₀)
    (hinner : pc.inner = pc₀.inner) (hlast : pc.isLast = pc₀.isLast) (hahead : pc.ahead = pc₀.ahead)
    (hunsent : pc₀.unsent = pc.unsent) (hphase : ConsumerAt s.pcs s.pcsDone s.consumer pc)
    (hfull : pc = .send → Full s.pcs s.pcsDone s.consumer.batching.sbytes) :
    ConsumerMove s { s with consumer := { s.consumer with pc := pc } } := by
  subst hpc
  have hmove := @ConsumerMove.goto s pc [] hinner hlast hahead hunsent hphase hfull
  simpa only [List.append_nil] using hmove

/-- The slot that is copied holds a frame. In the inner loop it fits the packet. -/
lemma Packing.copy_slot (h : Packing s) {i : Bool} {len : ℕ} (hpc : s.consumer.pc = .copy i len) :
    ∃ r, s.pcs.log[s.pcs.taken]? = some (slotOf (serialize r)) ∧
      (s.pcs.front recPool).record.take len = serialize r ∧ len = (serialize r).length ∧
      (i = true → (s.consumer.target i).sbytes + len ≤ payloadSize) := by
  have hphase := h.consumer.phase
  rw [hpc] at hphase
  obtain ⟨x, hx, hlen, hroom⟩ := hphase
  obtain ⟨r, rfl⟩ := h.slots x (List.mem_of_getElem? hx)
  have hfront := h.pcs.front (by decide) (List.getElem?_eq_some_iff.mp hx).1
  rw [hx] at hfront
  refine ⟨r, hx, ?_, hlen, ?_⟩
  · rw [← Option.some.inj hfront, hlen]
    exact List.take_length
  · rintro rfl
    exact hroom rfl

/-- A frame is copied into the packet. Only a frame that is longer than the payload overflows. -/
lemma Packing.move_copy (h : Packing s) (n : ℕ) {i : Bool} {len : ℕ}
    (hpc : s.consumer.pc = .copy i len) : ConsumerMove s (consumerStep n s) := by
  obtain ⟨r, hx, hframe, hlen, hroom⟩ := h.copy_slot hpc
  unfold consumerStep
  rw [hpc]
  dsimp only
  rw [hframe]
  subst hlen
  split_ifs with hover
  · obtain rfl : i = false := by
      rw [← Bool.not_eq_true]
      intro hi
      have hfit := hroom hi
      omega
    refine consumerMove_goto hpc rfl rfl rfl rfl ⟨_, List.mem_of_getElem? hx, ?_⟩ (by cases ·)
    exact hover.trans_eq (Nat.zero_add _)
  · exact .copy hpc hx (Nat.le_of_not_lt hover)

/-- `SSL_write` accepts a part of what is left of the packet. -/
lemma Packing.move_write (h : Packing s) (n : ℕ) {batchPkt : List UInt8} {nbuffer : ℕ} {last : Bool}
    (hpc : s.consumer.pc = .write batchPkt nbuffer last) : ConsumerMove s (consumerStep n s) := by
  have hphase := h.consumer.phase
  rw [hpc] at hphase
  obtain ⟨hle, ⟨ps, p, hps, hpkt⟩, hend⟩ := hphase
  have hlen : batchPkt.length = recvBufSize := by
    rw [hpkt]
    exact serializeBeforeSend_length (h.consumer.sent p (by simp [hps])).sound
  obtain ⟨k, hk⟩ : ∃ k, k = min (n+1) (recvBufSize - nbuffer) := ⟨_, rfl⟩
  have hsplit : s.consumer.pc.unsent = slice nbuffer k batchPkt ++ batchPkt.drop (nbuffer+k) := by
    rw [hpc, slice, ← List.drop_drop, List.take_append_drop]
    rfl
  have hall : ¬ nbuffer + k < recvBufSize → batchPkt.drop (nbuffer+k) = [] := fun hmore =>
    List.drop_eq_nil_of_le (by omega)
  unfold consumerStep
  rw [hpc]
  dsimp only
  rw [← hk]
  split_ifs with hmore hl
  · exact .goto (by rw [hpc]; rfl) (by rw [hpc]; rfl) (by rw [hpc]; rfl) hsplit
      ⟨hmore.le, ⟨ps, p, hps, hpkt⟩, hend⟩ (by cases ·)
  · rw [hall hmore] at hsplit
    exact .goto (by rw [hpc]; rfl) (by rw [hpc, hl]; rfl) (by rw [hpc]; rfl) hsplit (hend hl)
      (by cases ·)
  · obtain rfl : last = false := Bool.eq_false_iff.mpr hl
    rw [hall hmore] at hsplit
    exact .goto (by rw [hpc]; rfl) (by rw [hpc]; rfl) (by rw [hpc]; rfl) hsplit trivial (by cases ·)

lemma Packing.move (h : Packing s) (n : ℕ) : ConsumerMove s (consumerStep n s) := by
  have hphase := h.consumer.phase
  cases hpc : s.consumer.pc with
  | poll i =>
    unfold consumerStep
    rw [hpc]
    dsimp only
    split_ifs with he
    · exact consumerMove_goto hpc rfl rfl rfl rfl trivial (by cases ·)
    · have hlt := h.pcs.lt_of_not_empty (by decide) (by simpa using he)
      exact consumerMove_goto hpc rfl rfl rfl rfl (.inl hlt) (by cases ·)
  | pollDone i =>
    unfold consumerStep
    rw [hpc]
    dsimp only
    split_ifs with hd
    · exact consumerMove_goto hpc rfl rfl rfl rfl (.inr hd) (by cases ·)
    · exact consumerMove_goto hpc rfl rfl rfl rfl trivial (by cases ·)
  | check i =>
    rw [hpc] at hphase
    unfold consumerStep
    rw [hpc]
    dsimp only
    split_ifs with hd
    · exact consumerMove_goto hpc rfl rfl rfl rfl hd (by cases ·)
    · exact consumerMove_goto hpc rfl rfl rfl rfl (hphase.resolve_right hd) (by cases ·)
  | checkEmpty i =>
    -- The flag is up, so an empty ring stays empty.
    rw [hpc] at hphase
    unfold consumerStep
    rw [hpc]
    dsimp only
    split_ifs with he hi
    · subst hi
      have hend := (h.pcs.isEmpty_iff (by decide)).mp he
      exact consumerMove_goto hpc rfl rfl rfl rfl trivial fun _ => .inr ⟨hphase, hend⟩
    · obtain rfl : i = false := Bool.eq_false_iff.mpr hi
      have hend := (h.pcs.isEmpty_iff (by decide)).mp he
      exact consumerMove_goto hpc rfl rfl rfl rfl ⟨hphase, hend⟩ (by cases ·)
    · have hlt := h.pcs.lt_of_not_empty (by decide) (by simpa using he)
      exact consumerMove_goto hpc rfl rfl rfl rfl hlt (by cases ·)
  | take i =>
    rw [hpc] at hphase
    unfold consumerStep
    rw [hpc]
    dsimp only
    split_ifs with he
    · exact .stay
    · exact consumerMove_goto hpc rfl rfl rfl rfl hphase (by cases ·)
  | size i =>
    rw [hpc] at hphase
    have hfront := h.pcs.front (by decide) hphase
    unfold consumerStep
    rw [hpc]
    dsimp only
    split_ifs with hsend
    · obtain ⟨rfl, hover⟩ := hsend
      exact consumerMove_goto hpc rfl rfl rfl rfl trivial fun _ => .inl ⟨_, hfront, hover⟩
    · refine consumerMove_goto hpc rfl rfl rfl rfl ⟨_, hfront, rfl, fun hi => ?_⟩ (by cases ·)
      exact Nat.le_of_not_lt fun hlt => hsend ⟨hi, hlt⟩
  | copy i len => exact h.move_copy n hpc
  | advance =>
    rw [consumerStep, hpc]
    exact .advance hpc
  | send =>
    rw [consumerStep, hpc]
    exact .send hpc
  | finish =>
    rw [consumerStep, hpc]
    exact .finish hpc rfl
  | write batchPkt nbuffer last => exact h.move_write n hpc
  | exited | crashed =>
    rw [consumerStep, hpc]
    exact .stay

/-- A packet is handed to the writing loop. -/
lemma ConsumerOk.packet {pcs : Ring PoolSlot} {pcsDone : Bool} {t : ConsumerThread}
    (h : ConsumerOk pcs pcsDone t) (hlast : t.pc.isLast = false) (hahead : t.pc.ahead = 0)
    {p : Sent} (hp : SentOk p) (hframes : p.frames = t.frames) {b : Batching} (hb : b.batch.Sound)
    {frames : List (List UInt8)} (hnil : frames = []) {last : Bool}
    (htype : last = true ↔ p.batch.pktType = .endPkt)
    (hend : last = true → pcsDone = true ∧ pcs.taken = pcs.log.length) :
    ConsumerOk pcs pcsDone ⟨.write (serializeBeforeSend p.batch) 0 last, b, frames,
      t.packets ++ [p]⟩ := by
  subst hnil
  have hnone := h.notLast hlast
  have hpacked := h.frames
  rw [hahead] at hpacked
  refine ⟨?_, ?_, ⟨rfl, hb⟩, ?_, ?_, ?_⟩
  · simpa [hframes, ConsumerPc.ahead] using hpacked
  · intro p' hp'
    rcases List.mem_append.mp hp' with hp' | hp'
    · exact h.sent p' hp'
    · exact List.mem_singleton.mp hp' ▸ hp
  · intro hl p' hp'
    rcases List.mem_append.mp hp' with hp' | hp'
    · exact hnone p' hp'
    · rw [List.mem_singleton.mp hp', Ne, ← htype]
      exact Bool.eq_false_iff.mp hl
  · exact fun hl => ⟨t.packets, p, rfl, htype.mp hl, hnone⟩
  · exact ⟨Nat.zero_le _, ⟨t.packets, p, rfl, rfl⟩, hend⟩

lemma ConsumerMove.packing (hm : ConsumerMove s s') (h : Packing s) : Packing s' := by
  obtain ⟨hframes, hsent, hfill, hnot, -, hphase⟩ := h.consumer
  cases hm with
  | stay => exact h
  | goto hinner hlast hahead _ hphase =>
    exact { h with consumer := h.consumer.goto hinner hlast hahead hphase }
  | @copy i r hpc hx hfits =>
    have hlt : s.pcs.taken < s.pcs.log.length := (List.getElem?_eq_some_iff.mp hx).1
    have htarget := h.consumer.target
    rw [hpc] at htarget hframes hnot
    refine { h with consumer := ⟨?_, hsent, htarget.push r hfits, hnot, (by cases ·), hlt⟩ }
    dsimp only [ConsumerPc.ahead]
    rw [List.take_add_one, hx, ← List.append_assoc, List.map_append, hframes]
    rfl
  | advance hpc =>
    rw [hpc] at hframes hfill hnot hphase
    exact ⟨h.pcs.consume hphase, h.slots, ⟨hframes, hsent, hfill, hnot, (by cases ·), trivial⟩⟩
  | send hpc =>
    rw [hpc] at hfill
    obtain ⟨hok, htype⟩ := Filled.sentOk hfill
    have hend : false = true → s.pcsDone = true ∧ s.pcs.taken = s.pcs.log.length := (by cases ·)
    have hpacket := h.consumer.packet (by rw [hpc]; rfl) (by rw [hpc]; rfl) hok rfl hok.sound rfl
      (by simp [htype]) hend
    exact { h with consumer := hpacket }
  | finish hpc hb =>
    rw [hpc] at hfill hphase
    obtain ⟨hnil, hsound⟩ := hfill
    subst hb
    have hb : RecordBatch.Sound { s.consumer.batching.batch with pktType := .endPkt } :=
      ⟨hsound.serialData, hsound.numRecords⟩
    have hok : SentOk ⟨_, []⟩ := ⟨hb, nofun, .inl ⟨rfl, rfl⟩⟩
    have hpacket :=
      h.consumer.packet (b := ⟨_, s.consumer.batching.sbytes⟩) (by rw [hpc]; rfl) (by rw [hpc]; rfl)
      hok hnil.symm hb hnil (iff_of_true rfl rfl) fun _ => hphase
    exact { h with consumer := hpacket }

lemma WireOk.append {packets : List Sent} {wire : List UInt8} {t : HostProducer}
    {pc : Ring RecordBatch} (h : WireOk packets [] wire t pc) (p : Sent) :
    WireOk (packets ++ [p]) (serializeBeforeSend p.batch) wire t pc := by
  obtain ⟨arrived, rest, hsplit, hlog, hbytes⟩ := h.packets
  refine ⟨⟨arrived, rest ++ [p], by rw [hsplit, List.append_assoc], hlog, ?_⟩, h.tcpData, h.ended,
    h.phase⟩
  rw [List.append_nil] at hbytes
  simp [← hbytes]

lemma WireOk.written {packets : List Sent} {chunk unsent wire : List UInt8} {t : HostProducer}
    {pc : Ring RecordBatch} (h : WireOk packets (chunk ++ unsent) wire t pc) :
    WireOk packets unsent (wire ++ chunk) t pc := by
  obtain ⟨arrived, rest, hsplit, hlog, hbytes⟩ := h.packets
  exact ⟨⟨arrived, rest, hsplit, hlog, by rw [← hbytes]; simp⟩, h.tcpData, h.ended, h.phase⟩

lemma WireOk.log_le {packets : List Sent} {unsent wire : List UInt8} {t : HostProducer}
    {pc : Ring RecordBatch} (h : WireOk packets unsent wire t pc) :
    pc.log.length ≤ packets.length := by
  obtain ⟨arrived, rest, rfl, hlog, -⟩ := h.packets
  have hlen := congrArg List.length hlog
  rw [List.length_map, List.length_append] at hlen
  rw [List.length_append]
  omega

lemma HostConsumerOk.append {packets : List Sent} {pc : Ring RecordBatch} {t : HostConsumer}
    (h : HostConsumerOk packets pc t) (hle : pc.taken ≤ packets.length) (p : Sent) :
    HostConsumerOk (packets ++ [p]) pc t :=
  ⟨by rw [List.take_append_of_le_length hle, h.table], h.ended, h.phase⟩

lemma ConsumerMove.wire (hm : ConsumerMove s s')
    (h : WireOk s.consumer.packets s.consumer.pc.unsent s.wire s.hostProducer s.pc) :
    WireOk s'.consumer.packets s'.consumer.pc.unsent s'.wire s'.hostProducer s'.pc := by
  cases hm with
  | stay => exact h
  | goto _ _ _ hunsent =>
    rw [hunsent] at h
    exact h.written
  | copy hpc | advance hpc =>
    rw [hpc] at h
    exact h
  | send hpc | finish hpc =>
    rw [hpc] at h
    exact h.append _

lemma ConsumerMove.hostConsumer (hm : ConsumerMove s s')
    (hle : s.pc.taken ≤ s.consumer.packets.length)
    (h : HostConsumerOk s.consumer.packets s.pc s.hostConsumer) :
    HostConsumerOk s'.consumer.packets s'.pc s'.hostConsumer := by
  cases hm with
  | stay | goto | copy | advance => exact h
  | send | finish => exact h.append hle _

/-- The slots of the ring hold frames of records. -/
lemma Inv.slot_made (h : Inv q s) {x : PoolSlot} (hx : x ∈ s.pcs.log) :
    ∃ m ∈ s.maker.made, x = slotOf (serialize m.record) := by
  have hmem : x ∈ s.maker.made.map fun m => slotOf (serialize m.record) := by
    rw [← h.maker.slots]
    exact List.mem_append_left _ hx
  obtain ⟨m, hm, rfl⟩ := List.mem_map.mp hmem
  exact ⟨m, hm, rfl⟩

lemma Inv.packing (h : Inv q s) : Packing s := by
  refine ⟨h.pcs, fun x hx => ?_, h.consumer⟩
  obtain ⟨m, -, rfl⟩ := h.slot_made hx
  exact ⟨m.record, rfl⟩

/-- The steps of `consumer_func`. -/
lemma Inv.consumer_step (h : Inv q s) (n : ℕ) : Inv q (consumerStep n s) := by
  have hmove := h.packing.move n
  have hpacking := hmove.packing h.packing
  have hwire := hmove.wire h.wire
  have hhost := hmove.hostConsumer (h.pc.taken_le.trans h.wire.log_le) h.hostConsumer
  generalize consumerStep n s = s' at *
  cases hmove with
  | stay => exact h
  | goto | copy | send | finish =>
    exact { h with consumer := hpacking.consumer, wire := hwire, hostConsumer := hhost }
  | advance =>
    exact { h with
      maker := h.maker.consume, pcs := hpacking.pcs, consumer := hpacking.consumer, wire := hwire }

end IronSafe.Pipeline
