import IronSafe.PipelineWork

/-! No deadlock: as long as the records fit their packets, the threads can be scheduled so that
the host answers, from every state that a run can reach. -/
namespace IronSafe.Pipeline
open Bytes Packet Record

variable {cfg : Config} {q : Query} {s : State}

/-- The records made so far fit a packet, and the rows that are left can be encoded with their
own number of fields so that they do. -/
structure Ready (cfg : Config) (q : Query) (s : State) : Prop where
  inv : Inv q s
  fields : FieldsOk cfg q s
  made : ∀ m ∈ s.maker.made, (serialize m.record).length ≤ payloadSize
  rest : ∀ row ∈ q.rows.drop s.maker.made.length,
    ∃ a, (serialize (cfg.record a q.nCol row)).length ≤ payloadSize

/-- An action after which less is left to do. -/
def Advances (cfg : Config) (q : Query) (s : State) (action : Action) : Prop :=
  Ready cfg q (step cfg q s action) ∧ work (step cfg q s action) < work s

lemma Ready.step_of_made (h : Ready cfg q s) {action : Action}
    (hmade : (step cfg q s action).maker.made = s.maker.made) : Ready cfg q (step cfg q s action) :=
  ⟨h.inv.step cfg action, h.fields.step h.inv action,
    by rw [hmade]; exact h.made, by rw [hmade]; exact h.rest⟩

lemma queryStep_maker (q : Query) (s : State) : (queryStep q s).maker = s.maker := by
  unfold queryStep
  split <;> (try split) <;> rfl

lemma makerStep_made {a : Alloc} (hpc : ∀ aMem, s.maker.pc ≠ .count aMem) :
    (makerStep cfg a s).maker.made = s.maker.made := by
  unfold makerStep
  split <;> (try split_ifs) <;> try rfl
  exact absurd ‹s.maker.pc = _› (hpc _)

/-- The row in hand is the first that has not been encoded. -/
lemma Inv.row_in_hand (h : Inv q s) {aMem : List Mem} (hpc : s.maker.pc = .count aMem) :
    ∃ rest, q.rows.drop s.maker.made.length = aMem :: rest := by
  have hrows := h.maker.rows
  rw [hpc] at hrows
  have hpre : s.maker.made.map Made.row ++ [aMem] <+: q.rows := by
    rw [show s.maker.made.map Made.row ++ [aMem] = _ from hrows, h.query.rows, List.append_assoc]
    exact (List.take_prefix _ _).trans (List.prefix_append _ _)
  obtain ⟨rest, hrest⟩ := hpre
  refine ⟨rest, ?_⟩
  rw [← hrest, List.append_assoc, List.drop_left' (List.length_map _)]
  rfl

lemma Ready.count (h : Ready cfg q s) {aMem : List Mem} (hpc : s.maker.pc = .count aMem)
    (hfields : s.numRecFields = q.nCol) : ∃ a, Ready cfg q (step cfg q s (.maker a)) := by
  obtain ⟨rest, hdrop⟩ := h.inv.row_in_hand hpc
  have hrest := h.rest
  rw [hdrop] at hrest
  obtain ⟨a, ha⟩ := hrest aMem List.mem_cons_self
  have hmade : (step cfg q s (.maker a)).maker.made =
      s.maker.made ++ [⟨aMem, q.nCol, cfg.record a q.nCol aMem⟩] := by
    rw [step, makerStep, hpc, ← hfields]
  refine ⟨a, h.inv.step cfg _, h.fields.step h.inv _, ?_, ?_⟩
  · intro m hm
    rw [hmade] at hm
    rcases List.mem_append.mp hm with hm | hm
    · exact h.made m hm
    · rw [List.mem_singleton.mp hm]
      exact ha
  · intro row hrow
    rw [hmade, List.length_append, ← List.drop_drop, hdrop] at hrow
    exact hrest row (List.mem_cons_of_mem _ hrow)

lemma Ready.query_advances (h : Ready cfg q s) (hexit : s.query.pc.isExited = false)
    (hfull : s.mkRec.isFull mkRecPool = false) : Advances cfg q s .query :=
  ⟨h.step_of_made (congrArg MakerThread.made (queryStep_maker q s)),
    work_lt_of_query (queryWork_lt hexit hfull)⟩

/-- The encoder waits for the query thread, also with the first row until its number of fields
is set. -/
lemma Ready.maker_advances (h : Ready cfg q s) (hdone : s.pcsDone = false)
    (hempty : s.pcs.isEmpty = true) : ∃ action, Advances cfg q s action := by
  have hexit : s.maker.pc.isExited = false := h.inv.maker.done.symm.trans hdone
  have hfull := h.inv.pcs.not_full_of_empty (by decide) hempty
  by_cases hwait : MakerWaits s
  · obtain ⟨-, hmk, hmkDone⟩ := hwait
    have hqexit : s.query.pc.isExited = false := h.inv.query.done.symm.trans hmkDone
    exact ⟨.query, h.query_advances hqexit (h.inv.mkRec.not_full_of_empty (by decide) hmk)⟩
  · have hlt : ∀ a, work (step cfg q s (.maker a)) < work s := fun a =>
      work_lt_of_maker (makerStep_same cfg a s) (makerWork_lt h.inv a hexit hfull hwait)
    by_cases hcount : ∃ aMem, s.maker.pc = .count aMem
    · obtain ⟨aMem, hpc⟩ := hcount
      rcases h.fields.fields_read h.inv hpc with hset | ⟨-, -, hearly⟩
      · obtain ⟨a, ha⟩ := h.count hpc hset
        exact ⟨.maker a, ha, hlt a⟩
      · have hreturned : s.query.pc = .returned := by
          cases hq : s.query.pc <;> rw [hq] at hearly <;> first | rfl | cases hearly
        refine ⟨.query, h.step_of_made (congrArg MakerThread.made (queryStep_maker q s)),
          work_lt_of_query ?_⟩
        rw [step, queryStep, hreturned]
        exact lex_right rfl (by simp [hreturned, QueryPc.rank])
    · exact ⟨.maker default, h.step_of_made (makerStep_made (not_exists.mp hcount)), hlt default⟩

/-- When all of the packets have been sent and nothing is left in the channel, the end packet
has arrived. -/
lemma Inv.ended_of_sent (h : Inv q s) (hpc : s.consumer.pc = .exited) (hwire : s.wire = [])
    (hrecv : s.hostProducer.pc = .recv) : False := by
  obtain ⟨arrived, rest, hsplit, hlog, hbytes⟩ := h.wire.packets
  have hdata := h.wire.tcpData
  have hunsent : s.consumer.pc.unsent = [] := by rw [hpc]; rfl
  rw [hwire, hunsent, List.append_nil, List.append_nil] at hbytes
  cases rest with
  | cons p rest =>
    have hsound := (h.consumer.sent p (by simp [hsplit])).sound
    have hlen := congrArg List.length hbytes
    rw [List.map_cons, List.flatten_cons, List.length_append,
      serializeBeforeSend_length hsound] at hlen
    omega
  | nil =>
    obtain ⟨ps, p, hps, hend, -⟩ := h.consumer.last (by rw [hpc]; rfl)
    rw [List.append_nil] at hsplit
    rw [hrecv, ← hsplit, hps] at hlog
    have hended : Ended s.pc.log := by
      refine ⟨p.batch, ?_, hend⟩
      rw [← List.append_nil s.pc.log, ← show _ = s.pc.log ++ [] from hlog]
      simp
    rw [← h.wire.ended, hrecv] at hended
    cases hended

lemma Ready.consumer_advances (h : Ready cfg q s) (hwire : s.wire = [])
    (hrecv : s.hostProducer.pc = .recv) : ∃ action, Advances cfg q s action := by
  by_cases hwait : ConsumerWaits s
  · obtain ⟨-, hempty, hdone⟩ := hwait
    exact h.maker_advances hdone hempty
  · have hexit : s.consumer.pc ≠ .exited := fun hpc => h.inv.ended_of_sent hpc hwire hrecv
    have hsame := consumerStep_same 0 s
    exact ⟨.consumer 0, h.step_of_made (congrArg MakerThread.made hsame.maker),
      work_lt_of_consumer hsame
      (consumerWork_lt h.inv.packing 0 hexit (h.inv.not_crashed h.made) hwait)⟩

lemma Ready.hostProducer_advances (h : Ready cfg q s) (hpoll : s.hostConsumer.pc = .poll)
    (hempty : s.pc.isEmpty = true) : ∃ action, Advances cfg q s action := by
  have hexit : s.hostProducer.pc.isExited = false := by
    rw [← Bool.not_eq_true, h.inv.wire.ended]
    have hended := h.inv.hostConsumer.ended
    rw [(h.inv.pc.isEmpty_iff (by decide)).mp hempty, List.take_length, hpoll] at hended
    rw [← hended]
    exact Bool.false_ne_true
  by_cases hwait : s.hostProducer.pc = .recv ∧ s.wire = []
  · exact h.consumer_advances hwait.2 hwait.1
  · have hsame := hostProducerStep_same 0 s
    have hlt := channelWork_lt h.inv 0 hexit (h.inv.pc.not_full_of_empty (by decide) hempty)
      fun hrecv hnil => hwait ⟨hrecv, hnil⟩
    exact ⟨.hostProducer 0, h.step_of_made (congrArg MakerThread.made hsame.maker),
      work_lt_of_channel hsame hlt⟩

/-- The host's main waits for its threads only. -/
lemma Ready.hostMain_advances (h : Ready cfg q s) (hexit : s.hostConsumer.pc.isExited = true)
    (hnone : s.answer = none) : Advances cfg q s .hostMain := by
  have hprod : s.hostProducer.pc.isExited = true := by
    obtain ⟨b, hb, hend⟩ := h.inv.hostConsumer.ended.mp hexit
    exact h.inv.wire.ended.mpr ⟨b, List.mem_of_mem_take hb, hend⟩
  have hsame := hostMainStep_same s
  refine ⟨h.step_of_made (congrArg MakerThread.made hsame.maker), work_lt_of_answer hsame ?_⟩
  cases hp : s.hostProducer.pc <;> rw [hp] at hprod <;> try cases hprod
  cases hc : s.hostConsumer.pc <;> rw [hc] at hexit <;> try cases hexit
  simp [step, hostMainStep, answerWork, hp, hc, hnone]

/-- While the host has not answered, some thread can go on. -/
lemma Ready.advances (h : Ready cfg q s) (hnone : s.answer = none) :
    ∃ action, Advances cfg q s action := by
  cases hexit : s.hostConsumer.pc.isExited with
  | true => exact ⟨.hostMain, h.hostMain_advances hexit hnone⟩
  | false =>
    by_cases hwait : s.hostConsumer.pc = .poll ∧ s.pc.isEmpty = true
    · exact h.hostProducer_advances hwait.1 hwait.2
    · have hsame := hostConsumerStep_same s
      exact ⟨.hostConsumer, h.step_of_made (congrArg MakerThread.made hsame.maker),
        work_lt_of_table hsame (tableWork_lt h.inv hexit hwait)⟩

/-- The threads can be scheduled so that the host answers. -/
theorem Ready.answers (h : Ready cfg q s) :
    ∃ schedule : List Action, (schedule.foldl (step cfg q) s).answer.isSome := by
  induction hw : work s using WellFoundedLT.induction generalizing s with
  | ind w ih =>
    cases hans : s.answer with
    | some table => exact ⟨[], by rw [List.foldl_nil, hans]; rfl⟩
    | none =>
      obtain ⟨action, hready, hlt⟩ := h.advances hans
      obtain ⟨schedule, hsome⟩ := ih _ (hw ▸ hlt) hready rfl
      exact ⟨action :: schedule, hsome⟩

end IronSafe.Pipeline
