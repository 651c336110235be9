import IronSafe.PipelineDelivery

/-! The work that is left. Each thread has a measure that falls with every step that the thread
makes while it is not kept waiting. A step may add to the work of later stages only, so the
measures are compared stage by stage. -/
namespace IronSafe.Pipeline
open Bytes Packet Record

variable {cfg : Config} {q : Query} {s s' : State}

def QueryPc.rank : QueryPc → ℕ
  | .wait _ => 6
  | .store _ => 5
  | .publish _ => 4
  | .returned => 3
  | .step => 2
  | .finish => 1
  | .exited => 0

-- The polling loop is left through `poll` or, when the ring stays empty, through `pollDone`.
def MakerPc.rank (empty : Bool) : MakerPc → ℕ
  | .count _ => 14
  | .space _ => 13
  | .storeRecord _ => 12
  | .storeSize _ => 11
  | .publish _ => 10
  | .poll => if empty then 9 else 7
  | .pollDone => 8
  | .check => 6
  | .checkEmpty => 5
  | .take => 4
  | .read => 3
  | .advance _ => 2
  | .finish => 1
  | .exited => 0

/-- Where the ranks of the outer and of the inner loop begin. -/
def loopRank (inner : Bool) : ℕ := if inner then 2*recvBufSize + 13 else recvBufSize + 3

def ConsumerPc.rank (empty : Bool) : ConsumerPc → ℕ
  | .poll i => loopRank i + if empty then 7 else 5
  | .pollDone i => loopRank i + 6
  | .check i => loopRank i + 4
  | .checkEmpty i => loopRank i + 3
  | .take i => loopRank i + 2
  | .size i => loopRank i + 1
  | .copy i _ => loopRank i
  | .send => 2*recvBufSize + 12
  | .write _ nbuffer false => recvBufSize + 11 + (recvBufSize - nbuffer)
  | .finish => recvBufSize + 2
  | .write _ nbuffer true => 1 + (recvBufSize - nbuffer)
  | .advance | .exited | .crashed => 0

def HostProducerPc.rank : HostProducerPc → ℕ
  | .space _ => 3
  | .store _ => 2
  | .publish _ => 1
  | .recv | .exited => 0

def HostConsumerPc.rank : HostConsumerPc → ℕ
  | .insert records => 3 + records.length
  | .poll => 2
  | .read => 1
  | .advance _ | .exited | .crashed => 0

def queryWork (s : State) : ℕ ×ₗ ℕ := toLex (s.query.todo.length, s.query.pc.rank)

def makerWork (s : State) : ℕ ×ₗ ℕ := toLex (s.mkRec.backlog, s.maker.pc.rank s.mkRec.isEmpty)

def consumerWork (s : State) : ℕ ×ₗ ℕ := toLex (s.pcs.backlog, s.consumer.pc.rank s.pcs.isEmpty)

def channelWork (s : State) : ℕ := 4*s.wire.length + s.hostProducer.pc.rank

def tableWork (s : State) : ℕ ×ₗ ℕ := toLex (s.pc.backlog, s.hostConsumer.pc.rank)

def answerWork (s : State) : ℕ := if s.answer.isSome then 0 else 1

def work (s : State) : (ℕ ×ₗ ℕ) ×ₗ (ℕ ×ₗ ℕ) ×ₗ (ℕ ×ₗ ℕ) ×ₗ ℕ ×ₗ (ℕ ×ₗ ℕ) ×ₗ ℕ :=
  toLex (queryWork s, toLex (makerWork s, toLex (consumerWork s,
    toLex (channelWork s, toLex (tableWork s, answerWork s)))))

lemma lex_left {α β : Type*} [LT α] [LT β] {a a' : α} {b b' : β} (h : a < a') :
    toLex (a, b) < toLex (a', b') :=
  Prod.Lex.toLex_lt_toLex.mpr (.inl h)

lemma lex_right {α β : Type*} [LT α] [LT β] {a a' : α} {b b' : β} (ha : a = a') (h : b < b') :
    toLex (a, b) < toLex (a', b') :=
  Prod.Lex.toLex_lt_toLex.mpr (.inr ⟨ha, h⟩)

lemma SameQuery.work_eq (h : SameQuery s s') : queryWork s' = queryWork s := by
  rw [queryWork, queryWork, h.query]

lemma SameMaker.work_eq (h : SameMaker s s') : makerWork s' = makerWork s := by
  rw [makerWork, makerWork, h.mkRec, h.maker]

lemma SameConsumer.work_eq (h : SameConsumer s s') : consumerWork s' = consumerWork s := by
  rw [consumerWork, consumerWork, h.pcs, h.consumer]

lemma SameChannel.work_eq (h : SameChannel s s') : channelWork s' = channelWork s := by
  rw [channelWork, channelWork, h.wire, h.hostProducer]

lemma SameTable.work_eq (h : SameTable s s') : tableWork s' = tableWork s := by
  rw [tableWork, tableWork, h.pc, h.hostConsumer]

lemma work_lt_of_query (h : queryWork s' < queryWork s) : work s' < work s := lex_left h

lemma work_lt_of_maker (hs : SameQuery s s') (h : makerWork s' < makerWork s) : work s' < work s :=
  lex_right hs.work_eq (lex_left h)

lemma work_lt_of_consumer (hs : SameMaker s s') (h : consumerWork s' < consumerWork s) :
    work s' < work s :=
  lex_right hs.toSameQuery.work_eq (lex_right hs.work_eq (lex_left h))

lemma work_lt_of_channel (hs : SameConsumer s s') (h : channelWork s' < channelWork s) :
    work s' < work s :=
  lex_right hs.toSameQuery.work_eq
    (lex_right hs.toSameMaker.work_eq (lex_right hs.work_eq (lex_left h)))

lemma work_lt_of_table (hs : SameChannel s s') (h : tableWork s' < tableWork s) :
    work s' < work s :=
  lex_right hs.toSameQuery.work_eq
    (lex_right hs.toSameMaker.work_eq (lex_right hs.toSameConsumer.work_eq
    (lex_right hs.work_eq (lex_left h))))

lemma work_lt_of_answer (hs : SameTable s s') (h : answerWork s' < answerWork s) :
    work s' < work s :=
  lex_right hs.toSameQuery.work_eq
    (lex_right hs.toSameMaker.work_eq (lex_right hs.toSameConsumer.work_eq
    (lex_right hs.toSameChannel.work_eq (lex_right hs.work_eq h))))

/-- The query thread waits only for room in its ring. -/
lemma queryWork_lt (hexit : s.query.pc.isExited = false)
    (hfull : s.mkRec.isFull mkRecPool = false) : queryWork (queryStep q s) < queryWork s := by
  unfold queryStep
  cases hpc : s.query.pc with
  | step =>
    cases htodo : s.query.todo with
    | nil => exact lex_right (by simp [htodo]) (by simp [hpc, QueryPc.rank])
    | cons row todo => exact lex_left (by simp [htodo])
  | wait row =>
    rw [hfull]
    exact lex_right rfl (by simp [hpc, QueryPc.rank])
  | store row | publish row | returned | finish => exact lex_right rfl (by simp [hpc, QueryPc.rank])
  | exited =>
    rw [hpc] at hexit
    cases hexit

/-- `mk_rec_thread` waits for a row. -/
def MakerWaits (s : State) : Prop :=
  s.maker.pc = .pollDone ∧ s.mkRec.isEmpty = true ∧ s.mkDone = false

/-- A step of `mk_rec_thread` that takes nothing from its ring. -/
lemma makerWork_goto {pc : MakerPc} (hmk : s'.mkRec = s.mkRec) (hpc : s'.maker.pc = pc)
    (hlt : pc.rank s.mkRec.isEmpty < s.maker.pc.rank s.mkRec.isEmpty) :
    makerWork s' < makerWork s := by
  refine lex_right (by rw [hmk]) ?_
  rw [hmk, hpc]
  exact hlt

lemma makerWork_lt (h : Inv q s) (a : Alloc) (hexit : s.maker.pc.isExited = false)
    (hfull : s.pcs.isFull recPool = false) (hwait : ¬ MakerWaits s) :
    makerWork (makerStep cfg a s) < makerWork s := by
  have hphase := h.maker.phase
  unfold makerStep
  cases hpc : s.maker.pc with
  | poll =>
    refine makerWork_goto rfl rfl ?_
    cases he : s.mkRec.isEmpty <;> simp [hpc, MakerPc.rank]
  | pollDone =>
    refine makerWork_goto rfl rfl ?_
    cases he : s.mkRec.isEmpty <;> cases hd : s.mkDone <;> simp [hpc, MakerPc.rank]
    exact hwait ⟨hpc, he, hd⟩
  | check =>
    refine makerWork_goto rfl rfl ?_
    cases hd : s.mkDone <;> simp [hpc, MakerPc.rank]
  | checkEmpty =>
    refine makerWork_goto rfl rfl ?_
    cases he : s.mkRec.isEmpty <;> simp [hpc, MakerPc.rank]
  | take =>
    rw [hpc] at hphase
    dsimp only
    split_ifs with he
    · exact absurd ((h.mkRec.isEmpty_iff (by decide)).mp he) hphase.ne
    · exact makerWork_goto rfl rfl (by simp [hpc, MakerPc.rank])
  | advance aMem =>
    rw [hpc] at hphase
    exact lex_left (Ring.backlog_consume (List.getElem?_eq_some_iff.mp hphase).1)
  | space r =>
    rw [hfull]
    exact makerWork_goto rfl rfl (by simp [hpc, MakerPc.rank])
  | publish r =>
    refine makerWork_goto rfl rfl ?_
    cases he : s.mkRec.isEmpty <;> simp [hpc, MakerPc.rank]
  | read | count aMem | storeRecord r | storeSize r | finish =>
    exact makerWork_goto rfl rfl (by simp [hpc, MakerPc.rank])
  | exited =>
    rw [hpc] at hexit
    cases hexit

/-- `consumer_func` waits for a record. -/
def ConsumerWaits (s : State) : Prop :=
  (∃ i, s.consumer.pc = .pollDone i) ∧ s.pcs.isEmpty = true ∧ s.pcsDone = false

/-- A step of `consumer_func` that takes nothing from its ring. -/
lemma consumerWork_goto {pc : ConsumerPc} (hpcs : s'.pcs = s.pcs) (hpc : s'.consumer.pc = pc)
    (hlt : pc.rank s.pcs.isEmpty < s.consumer.pc.rank s.pcs.isEmpty) :
    consumerWork s' < consumerWork s := by
  refine lex_right (by rw [hpcs]) ?_
  rw [hpcs, hpc]
  exact hlt

lemma write_rank_lt {batchPkt : List UInt8} {nbuffer n : ℕ} {last empty : Bool} (hlt : nbuffer < n)
    (hn : n < recvBufSize) :
    (ConsumerPc.write batchPkt n last).rank empty <
      (ConsumerPc.write batchPkt nbuffer last).rank empty := by
  cases last <;> simp only [ConsumerPc.rank] <;> omega

lemma consumerWork_lt (h : Packing s) (n : ℕ) (hexit : s.consumer.pc ≠ .exited)
    (hcrash : s.consumer.pc ≠ .crashed) (hwait : ¬ ConsumerWaits s) :
    consumerWork (consumerStep n s) < consumerWork s := by
  have hphase := h.consumer.phase
  unfold consumerStep
  cases hpc : s.consumer.pc with
  | poll i =>
    refine consumerWork_goto rfl rfl ?_
    cases he : s.pcs.isEmpty <;> simp [hpc, ConsumerPc.rank]
  | pollDone i =>
    refine consumerWork_goto rfl rfl ?_
    cases he : s.pcs.isEmpty <;> cases hd : s.pcsDone <;> simp [hpc, ConsumerPc.rank]
    exact hwait ⟨⟨i, hpc⟩, he, hd⟩
  | check i =>
    refine consumerWork_goto rfl rfl ?_
    cases hd : s.pcsDone <;> simp [hpc, ConsumerPc.rank]
  | checkEmpty i =>
    refine consumerWork_goto rfl rfl ?_
    cases he : s.pcs.isEmpty <;> cases i <;> simp [hpc, ConsumerPc.rank, loopRank]
  | take i =>
    rw [hpc] at hphase
    dsimp only
    split_ifs with he
    · exact absurd ((h.pcs.isEmpty_iff (by decide)).mp he) hphase.ne
    · exact consumerWork_goto rfl rfl (by simp [hpc, ConsumerPc.rank])
  | size i =>
    dsimp only
    split_ifs with hsend
    · obtain ⟨rfl, -⟩ := hsend
      exact consumerWork_goto rfl rfl (by simp [hpc, ConsumerPc.rank, loopRank])
    · exact consumerWork_goto rfl rfl (by simp [hpc, ConsumerPc.rank])
  | copy i size =>
    have hpos : 0 < loopRank i := by cases i <;> simp [loopRank]
    dsimp only
    split_ifs <;> exact consumerWork_goto rfl rfl (by simpa [hpc, ConsumerPc.rank] using hpos)
  | advance =>
    rw [hpc] at hphase
    exact lex_left (Ring.backlog_consume hphase)
  | send => exact consumerWork_goto rfl rfl (by simp only [hpc, ConsumerPc.rank]; omega)
  | finish => exact consumerWork_goto rfl rfl (by simp only [hpc, ConsumerPc.rank]; omega)
  | write batchPkt nbuffer last =>
    dsimp only
    refine consumerWork_goto rfl rfl ?_
    rw [hpc]
    split_ifs with hmore hlast
    · exact write_rank_lt (by omega) hmore
    · simp only [hlast, ConsumerPc.rank]
      omega
    · obtain rfl : last = false := Bool.eq_false_iff.mpr hlast
      cases s.pcs.isEmpty <;>
        simp only [ConsumerPc.rank, loopRank, Bool.false_eq_true, if_true, if_false] <;> omega
  | exited => exact absurd hpc hexit
  | crashed => exact absurd hpc hcrash

/-- The host's `producer_func` waits for bytes, or for room in its ring. -/
lemma channelWork_lt (h : Inv q s) (n : ℕ) (hexit : s.hostProducer.pc.isExited = false)
    (hfull : s.pc.isFull bufPool = false) (hwire : s.hostProducer.pc = .recv → s.wire ≠ []) :
    channelWork (hostProducerStep n s) < channelWork s := by
  unfold hostProducerStep channelWork
  cases hpc : s.hostProducer.pc with
  | recv =>
    have hpos := List.length_pos_iff.mpr (hwire hpc)
    have hdata := h.wire.tcpData
    dsimp only
    split_ifs <;> simp only [List.length_drop, HostProducerPc.rank] <;> omega
  | space b =>
    rw [hfull]
    simp [HostProducerPc.rank]
  | store b => simp [HostProducerPc.rank]
  | publish b =>
    dsimp only
    split_ifs <;> simp [HostProducerPc.rank]
  | exited =>
    rw [hpc] at hexit
    cases hexit

/-- The host's `consumer_func` waits for a batch. -/
lemma tableWork_lt (h : Inv q s) (hexit : s.hostConsumer.pc.isExited = false)
    (hwait : ¬ (s.hostConsumer.pc = .poll ∧ s.pc.isEmpty = true)) :
    tableWork (hostConsumerStep s) < tableWork s := by
  have hphase := h.hostConsumer.phase
  unfold hostConsumerStep
  cases hpc : s.hostConsumer.pc with
  | poll =>
    dsimp only
    split_ifs with he
    · exact absurd ⟨hpc, he⟩ hwait
    · exact lex_right rfl (by simp [hpc, HostConsumerPc.rank])
  | read => exact lex_right rfl (by simp [hpc, HostConsumerPc.rank])
  | advance b =>
    rw [hpc] at hphase
    exact lex_left (Ring.backlog_consume (List.getElem?_eq_some_iff.mp hphase).1)
  | insert records => cases records <;> exact lex_right rfl (by simp [hpc, HostConsumerPc.rank])
  | exited =>
    rw [hpc] at hexit
    cases hexit
  | crashed =>
    rw [hpc] at hphase
    exact hphase.elim

end IronSafe.Pipeline
