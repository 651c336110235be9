import IronSafe.PipelinePackets

/-! The steps of the host's threads preserve the invariant, and with them every run of the
pipeline does. -/
namespace IronSafe.Pipeline
open Bytes Packet Record

variable {q : Query} {s : State}

lemma ended_concat {batches : List RecordBatch} {b : RecordBatch} :
    Ended (batches ++ [b]) ↔ Ended batches ∨ b.pktType = .endPkt := by
  simp [Ended, or_and_right, exists_or]

section Arrival

variable {packets : List Sent} {unsent wire : List UInt8} {t : HostProducer} {pc : Ring RecordBatch}

/-- A part of what is in the channel reaches the buffer, which is then not yet full. -/
lemma WireOk.received (h : WireOk packets unsent wire t pc) (hpc : t.pc = .recv) (k : ℕ)
    (hk : (t.tcpData ++ wire.take k).length < recvBufSize) :
    WireOk packets unsent (wire.drop k) ⟨.recv, t.tcpData ++ wire.take k⟩ pc := by
  obtain ⟨arrived, rest, hsplit, hlog, hbytes⟩ := h.packets
  have hended := h.ended
  rw [hpc] at hlog hended
  refine ⟨⟨arrived, rest, hsplit, hlog, ?_⟩, hk, hended, trivial⟩
  rw [← hbytes]
  simp

/-- A full buffer holds the first packet that has not arrived yet. -/
lemma WireOk.arrived (h : WireOk packets unsent wire t pc) (hsent : ∀ p ∈ packets, SentOk p)
    (hpc : t.pc = .recv) (k : ℕ) (hk : (t.tcpData ++ wire.take k).length = recvBufSize) :
    WireOk packets unsent (wire.drop k)
      ⟨.space (parseBatch (t.tcpData ++ wire.take k)), []⟩ pc := by
  obtain ⟨arrived, rest, hsplit, hlog, hbytes⟩ := h.packets
  have hended := h.ended
  rw [hpc] at hlog hended
  have hcut : (t.tcpData ++ wire.take k) ++ (wire.drop k ++ unsent) =
      (rest.map fun p => serializeBeforeSend p.batch).flatten := by
    rw [← hbytes, List.append_assoc, ← List.append_assoc (wire.take k), List.take_append_drop,
      List.append_assoc]
  cases rest with
  | nil =>
    have hlen := congrArg List.length hcut
    rw [List.length_append, hk] at hlen
    simp [recvBufSize] at hlen
  | cons p rest =>
    have hsound := (hsent p (by simp [hsplit])).sound
    obtain ⟨hfirst, hrest⟩ := List.append_inj hcut (by rw [hk, serializeBeforeSend_length hsound])
    refine ⟨⟨arrived ++ [p], rest, by simp [hsplit], ?_, ?_⟩, Nat.zero_lt_succ _, hended, trivial⟩
    · rw [hfirst, parseBatch_send hsound, List.map_append, hlog]
      simp [HostProducerPc.inHand]
    · rw [List.nil_append]
      exact hrest

lemma WireOk.consume (h : WireOk packets unsent wire t pc) :
    WireOk packets unsent wire t pc.consume := by
  refine ⟨h.packets, h.tcpData, h.ended, ?_⟩
  have hphase := h.phase
  cases hpc : t.pc <;> rw [hpc] at hphase <;> try exact hphase
  · exact hphase.consume
  · exact ⟨hphase.1.consume, hphase.2⟩

/-- A batch in the ring is the batch of the packet with the same number. -/
lemma WireOk.getElem (h : WireOk packets unsent wire t pc) {i : ℕ} {b : RecordBatch}
    (hi : pc.log[i]? = some b) : ∃ p, packets[i]? = some p ∧ p.batch = b := by
  obtain ⟨arrived, rest, hsplit, hlog, -⟩ := h.packets
  have hmap : (arrived.map Sent.batch)[i]? = some b := by
    rw [hlog, List.getElem?_append_left (List.getElem?_eq_some_iff.mp hi).1, hi]
  rw [List.getElem?_map, Option.map_eq_some_iff] at hmap
  obtain ⟨p, hp, hb⟩ := hmap
  refine ⟨p, ?_, hb⟩
  rw [hsplit, List.getElem?_append_left (List.getElem?_eq_some_iff.mp hp).1, hp]

end Arrival

lemma HostConsumerOk.grown {packets : List Sent} {pc pc' : Ring RecordBatch} {t : HostConsumer}
    {xs : List RecordBatch} (h : HostConsumerOk packets pc t) (hg : Grown pc pc' xs)
    (hle : pc.taken ≤ pc.log.length) : HostConsumerOk packets pc' t := by
  refine ⟨by rw [h.table, hg.taken], by rw [h.ended, hg.taken, hg.take hle], ?_⟩
  have hphase := h.phase
  cases hpc : t.pc <;> rw [hpc] at hphase <;> try exact hphase
  · exact hg.lt hphase
  · rw [HostConsumerAt, hg.taken]
    exact hg.getElem hphase

/-- The steps of the host's `producer_func`. -/
lemma Inv.hostProducer_step (h : Inv q s) (n : ℕ) : Inv q (hostProducerStep n s) := by
  obtain ⟨hpackets, hdata, hended, hphase⟩ := h.wire
  unfold hostProducerStep
  cases hpc : s.hostProducer.pc with
  | recv =>
    dsimp only
    obtain ⟨k, hk⟩ : ∃ k,
      k = min (min (n+1) (recvBufSize - s.hostProducer.tcpData.length)) s.wire.length :=
      ⟨_, rfl⟩
    have hlen : (s.hostProducer.tcpData ++ s.wire.take k).length ≤ recvBufSize := by
      rw [List.length_append, List.length_take]
      omega
    rw [← hk]
    split_ifs with hmore
    · exact { h with wire := h.wire.received hpc k hmore }
    · exact { h with wire := h.wire.arrived h.consumer.sent hpc k (by omega) }
  | space b =>
    rw [hpc] at hpackets hended
    dsimp only
    split_ifs with hfull
    · exact h
    · have hroom := h.pc.room_of_not_full (by decide) (by simpa using hfull)
      exact { h with wire := ⟨hpackets, hdata, hended, hroom⟩ }
  | store b =>
    rw [hpc] at hpackets hended hphase
    exact { h with
      wire := ⟨hpackets, hdata, hended, hphase, Ring.back_store _⟩
      pc := h.pc.store (by decide) hphase _
      hostConsumer := h.hostConsumer.grown (grown_store _ _ _) h.pc.taken_le }
  | publish b =>
    rw [hpc] at hpackets hended hphase
    obtain ⟨arrived, rest, hsplit, hlog, hbytes⟩ := hpackets
    obtain ⟨hroom, hback⟩ := hphase
    have hopen : ¬ Ended s.pc.log := by
      rw [← hended]
      exact Bool.false_ne_true
    refine { h with
      wire := ⟨⟨arrived, rest, hsplit, ?_, hbytes⟩, hdata, ?_, ?_⟩
      pc := h.pc.publish (by decide) hroom
      hostConsumer := h.hostConsumer.grown (grown_publish _ _) h.pc.taken_le }
    · dsimp only
      rw [hlog, Ring.publish_log, hback]
      split_ifs <;> simp [HostProducerPc.inHand]
    · dsimp only
      rw [Ring.publish_log, hback, ended_concat, or_iff_right hopen]
      split_ifs with hend <;> simp [HostProducerPc.isExited, hend]
    · dsimp only
      split_ifs <;> trivial
  | exited => exact h

lemma Inv.no_answer (h : Inv q s) (hpc : s.hostConsumer.pc.isExited = false) : s.answer = none := by
  rw [← Option.not_isSome_iff_eq_none]
  intro hsome
  obtain ⟨table, ht⟩ := Option.isSome_iff_exists.mp hsome
  rw [(h.answer table ht).1] at hpc
  cases hpc

/-- The host takes a batch from its ring. -/
lemma Inv.hostConsumer_advance (h : Inv q s) {b : RecordBatch}
    (hpc : s.hostConsumer.pc = .advance b) : Inv q (hostConsumerStep s) := by
  obtain ⟨htable, hended, hphase⟩ := h.hostConsumer
  rw [hpc] at htable hended hphase
  obtain ⟨p, hp, rfl⟩ := h.wire.getElem hphase
  have htake : (s.consumer.packets.take (s.pc.taken+1)).flatMap Sent.frames =
      (s.consumer.packets.take s.pc.taken).flatMap Sent.frames ++ p.frames := by
    simp [List.take_add_one, hp]
  replace htable : s.hostConsumer.table.map some = _ :=
    (congrArg _ (List.append_nil _).symm).trans htable
  have hopen : ¬ Ended (s.pc.log.take s.pc.taken) := by
    rw [← hended]
    exact Bool.false_ne_true
  have hended' : Ended (s.pc.log.take (s.pc.taken+1)) ↔ p.batch.pktType = .endPkt := by
    rw [List.take_add_one, show s.pc.log[s.pc.taken]? = some p.batch from hphase,
      Option.toList_some, ended_concat, or_iff_right hopen]
  have hwf := h.pc.consume (List.getElem?_eq_some_iff.mp hphase).1
  have hnone := h.no_answer (by rw [hpc]; rfl)
  unfold hostConsumerStep
  rw [hpc]
  refine { h with wire := h.wire.consume, pc := hwf, hostConsumer := ?_, answer := by simp [hnone] }
  dsimp only
  rcases (h.consumer.sent p (List.mem_of_getElem? hp)).content with ⟨hend, hnil⟩ | ⟨hrec, records,
    hread, hmem⟩
  · rw [if_pos hend]
    refine ⟨?_, iff_of_true rfl (hended'.mpr hend), trivial⟩
    rw [Ring.consume_taken, htake, hnil, List.append_nil, ← htable]
    exact congrArg _ (List.append_nil _)
  · rw [if_neg (by simp [hrec]), hread]
    refine ⟨?_, iff_of_false nofun fun he => by simp [hrec] at hended'; exact hended' he, trivial⟩
    rw [Ring.consume_taken, htake, List.map_append, List.map_append, ← htable, ← hmem]
    rfl

/-- The steps of the host's `consumer_func`. -/
lemma Inv.hostConsumer_step (h : Inv q s) : Inv q (hostConsumerStep s) := by
  obtain ⟨htable, hended, hphase⟩ := h.hostConsumer
  cases hpc : s.hostConsumer.pc with
  | poll =>
    have hnone := h.no_answer (by rw [hpc]; rfl)
    rw [hpc] at htable hended
    unfold hostConsumerStep
    rw [hpc]
    dsimp only
    split_ifs with he
    · exact h
    · have hlt := h.pc.lt_of_not_empty (by decide) (by simpa using he)
      exact { h with hostConsumer := ⟨htable, hended, hlt⟩, answer := by simp [hnone] }
  | read =>
    have hnone := h.no_answer (by rw [hpc]; rfl)
    rw [hpc] at htable hended hphase
    unfold hostConsumerStep
    rw [hpc]
    exact { h with
      hostConsumer := ⟨htable, hended, h.pc.front (by decide) hphase⟩
      answer := by simp [hnone] }
  | advance b => exact h.hostConsumer_advance hpc
  | insert records =>
    have hnone := h.no_answer (by rw [hpc]; rfl)
    rw [hpc] at htable hended
    unfold hostConsumerStep
    rw [hpc]
    cases records with
    | nil => exact { h with hostConsumer := ⟨htable, hended, trivial⟩, answer := by simp [hnone] }
    | cons m records =>
      refine { h with hostConsumer := ⟨?_, hended, trivial⟩, answer := by simp [hnone] }
      rw [← htable]
      simp [HostConsumerPc.inHand]
  | exited =>
    unfold hostConsumerStep
    rw [hpc]
    exact h
  | crashed =>
    rw [hpc] at hphase
    exact hphase.elim

lemma Inv.hostMain_step (h : Inv q s) : Inv q (hostMainStep s) := by
  unfold hostMainStep
  split
  · rename_i _ hpc
    refine { h with answer := fun table ht => ⟨by rw [hpc]; rfl, (Option.some.inj ht).symm⟩ }
  · exact h

lemma Inv.step (h : Inv q s) (cfg : Config) (action : Action) : Inv q (step cfg q s action) := by
  cases action with
  | query => exact h.query_step
  | maker a => exact h.maker_step cfg a
  | consumer n => exact h.consumer_step n
  | hostProducer n => exact h.hostProducer_step n
  | hostConsumer => exact h.hostConsumer_step
  | hostMain => exact h.hostMain_step

lemma inv_initial (cfg : Config) (q : Query) : Inv q (initial cfg q) where
  query := ⟨rfl, rfl, trivial⟩
  mkRec := Ring.wf_create _
  maker := ⟨rfl, rfl, rfl, trivial⟩
  pcs := Ring.wf_create _
  consumer := ⟨rfl, nofun, ⟨rfl, cfg.sound⟩, nofun, nofun, trivial⟩
  wire := ⟨⟨[], [], rfl, rfl, rfl⟩, Nat.zero_lt_succ _, iff_of_false nofun nofun, trivial⟩
  pc := Ring.wf_create _
  hostConsumer := ⟨rfl, iff_of_false nofun nofun, trivial⟩
  answer := nofun

/-- The invariant holds after every interleaving. -/
theorem inv_run (cfg : Config) (q : Query) (schedule : List Action) : Inv q (run cfg q schedule) :=
  run_induction (inv_initial cfg q) (fun _ action h => h.step cfg action) schedule

end IronSafe.Pipeline
