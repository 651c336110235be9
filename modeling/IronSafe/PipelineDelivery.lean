import IronSafe.PipelineFields

/-! Delivery: at any moment the host has inserted the first of the records that the storage
server has encoded, and when its consumer exits it has inserted all of them. -/
namespace IronSafe.Pipeline
open Bytes Packet Record

variable {cfg : Config} {q : Query} {s : State}

/-- The frames of the records in the order in which they were encoded. -/
def State.produced (s : State) : List (List UInt8) := s.maker.made.map fun m => serialize m.record

lemma map_slotOf_produced (s : State) :
    s.produced.map slotOf = s.maker.made.map fun m => slotOf (serialize m.record) := by
  rw [State.produced, List.map_map]
  rfl

/-- The packets hold the first frames. -/
lemma Inv.packed_prefix (h : Inv q s) : s.consumer.packets.flatMap Sent.frames <+: s.produced := by
  have hpre :
      (s.consumer.packets.flatMap Sent.frames ++ s.consumer.frames).map slotOf <+:
        s.produced.map slotOf := by
    rw [h.consumer.frames, map_slotOf_produced, ← h.maker.slots]
    exact (List.take_prefix _ _).trans (List.prefix_append _ _)
  obtain ⟨fs, hfs, heq⟩ := List.prefix_map_iff.mp hpre
  rw [← slotOf_injective.list_map heq] at hfs
  exact (List.prefix_append _ _).trans hfs

lemma Inv.packed_fits (h : Inv q s) :
    ∀ frame ∈ s.consumer.packets.flatMap Sent.frames, frame.length ≤ payloadSize := by
  intro frame hframe
  obtain ⟨p, hp, hmem⟩ := List.mem_flatMap.mp hframe
  exact (h.consumer.sent p hp).fits frame hmem

lemma received_of_prefix {frames : List (List UInt8)} {made : List Made}
    (hpre : frames <+: made.map fun m => serialize m.record)
    (hfit : ∀ f ∈ frames, f.length ≤ payloadSize) {table : List HostMem}
    (htable : table.map some = frames.map hostMem) :
    table.map HostMem.bytes = (made.take frames.length).map fun m => m.record.z := by
  have hframes := List.prefix_iff_eq_take.mp hpre
  rw [← List.map_take] at hframes
  have hmem :
      frames.map hostMem = ((made.take frames.length).map fun m => m.record.received).map some := by
    have hcongr : ∀ m ∈ made.take frames.length,
        hostMem (serialize m.record) = some m.record.received := by
      intro m hm
      refine hostMem_serialize (hfit _ ?_)
      rw [hframes]
      exact List.mem_map_of_mem hm
    conv_lhs => rw [hframes]
    rw [List.map_map, List.map_map]
    exact List.map_congr_left hcongr
  rw [hmem] at htable
  rw [(Option.some_injective _).list_map htable, List.map_map]
  simp [Function.comp_def]

/-- The host has inserted the first records. -/
lemma Inv.inserted_prefix (h : Inv q s) :
    s.hostConsumer.table.map HostMem.bytes <+: s.maker.made.map fun m => m.record.z := by
  have hsub : (s.consumer.packets.take s.pc.taken).flatMap Sent.frames <+:
      s.consumer.packets.flatMap Sent.frames := (List.take_prefix _ _).flatMap _
  have hrecv :=
    received_of_prefix (hsub.trans h.packed_prefix) (fun f hf => h.packed_fits f (hsub.subset hf))
    h.hostConsumer.table
  rw [List.map_append, List.map_take] at hrecv
  have hpre := List.prefix_append (s.hostConsumer.table.map HostMem.bytes)
    (s.hostConsumer.pc.inHand.map HostMem.bytes)
  rw [hrecv] at hpre
  exact hpre.trans (List.take_prefix _ _)

/-- When the encoder is done it has encoded the rows of the query. -/
lemma Inv.encoded (h : Inv q s) (hdone : s.pcsDone = true) :
    s.maker.made.map Made.row = q.rows ∧ s.pcs.log = s.produced.map slotOf := by
  obtain ⟨hrows, hslots, hexit, hphase⟩ := h.maker
  rw [hdone] at hexit
  cases hpc : s.maker.pc <;> rw [hpc] at hexit hrows hslots hphase <;> try cases hexit
  obtain ⟨hmk, htaken⟩ := hphase
  obtain ⟨hq, hqexit, hqphase⟩ := h.query
  rw [hmk] at hqexit
  cases hqpc : s.query.pc <;> rw [hqpc] at hqexit hq hqphase <;> try cases hqexit
  rw [show s.query.todo = [] from hqphase] at hq
  rw [htaken, List.take_length] at hrows
  simp only [MakerPc.inHand, MakerPc.unpublished, QueryPc.inHand,
    List.append_nil] at hrows hslots hq
  exact ⟨hrows.trans hq.symm, by rw [hslots, map_slotOf_produced]⟩

/-- When the end packet is made all records are in packets. -/
lemma Inv.packed (h : Inv q s) (hlast : s.consumer.pc.isLast = true) :
    s.consumer.packets.flatMap Sent.frames = s.produced ∧ s.maker.made.map Made.row = q.rows := by
  obtain ⟨hframes, -, hfill, -, -, hphase⟩ := h.consumer
  have hend : s.pcsDone = true ∧ s.pcs.taken = s.pcs.log.length ∧ s.consumer.frames = [] := by
    cases hpc : s.consumer.pc <;> rw [hpc] at hlast hfill hphase <;> try cases hlast
    · exact ⟨(hphase.2.2 rfl).1, (hphase.2.2 rfl).2, hfill.1⟩
    · exact ⟨hphase.1, hphase.2, hfill.1⟩
  obtain ⟨hdone, htaken, hnil⟩ := hend
  obtain ⟨hrows, hlog⟩ := h.encoded hdone
  rw [hnil, List.append_nil, htaken, List.take_of_length_le (Nat.le_add_right _ _), hlog] at hframes
  exact ⟨slotOf_injective.list_map hframes, hrows⟩

lemma HostConsumerPc.eq_exited {pc : HostConsumerPc} (hexit : pc.isExited = true) :
    pc = .exited := by
  cases pc <;> first | rfl | cases hexit

lemma HostConsumerPc.inHand_exited {pc : HostConsumerPc} (hexit : pc.isExited = true) :
    pc.inHand = [] := by
  rw [HostConsumerPc.eq_exited hexit]
  rfl

/-- The host's consumer exits only on the last packet. -/
lemma Inv.all_taken (h : Inv q s) (hexit : s.hostConsumer.pc.isExited = true) :
    s.consumer.pc.isLast = true ∧ s.consumer.packets.take s.pc.taken = s.consumer.packets := by
  obtain ⟨b, hb, hend⟩ := h.hostConsumer.ended.mp hexit
  obtain ⟨i, hi, hget⟩ := List.mem_take_iff_getElem.mp hb
  have hget' : s.pc.log[i]? = some b := by rw [← hget]; exact List.getElem?_eq_getElem _
  obtain ⟨p, hp, rfl⟩ := h.wire.getElem hget'
  have hlast : s.consumer.pc.isLast = true := by
    by_contra hnot
    exact h.consumer.notLast (by simpa using hnot) p (List.mem_of_getElem? hp) hend
  obtain ⟨ps, p', hps, -, hothers⟩ := h.consumer.last hlast
  refine ⟨hlast, List.take_of_length_le ?_⟩
  have hnot : ¬ i < ps.length := by
    intro hlt
    rw [hps, List.getElem?_append_left hlt] at hp
    exact hothers p (List.mem_of_getElem? hp) hend
  rw [hps, List.length_append, List.length_singleton]
  omega

/-- Then it has inserted all records. -/
lemma Inv.inserted_all (h : Inv q s) (hexit : s.hostConsumer.pc.isExited = true) :
    s.hostConsumer.table.map HostMem.bytes = (s.maker.made.map fun m => m.record.z) ∧
      s.maker.made.map Made.row = q.rows := by
  obtain ⟨hlast, htake⟩ := h.all_taken hexit
  obtain ⟨hpacked, hrows⟩ := h.packed hlast
  have htable := h.hostConsumer.table
  rw [htake, HostConsumerPc.inHand_exited hexit, List.append_nil] at htable
  have hrecv := received_of_prefix h.packed_prefix h.packed_fits htable
  rw [hpacked, State.produced, List.length_map, List.take_length] at hrecv
  exact ⟨hrecv, hrows⟩

/-- The records of the query's rows fit a packet, with either number of fields. -/
def Fits (cfg : Config) (q : Query) : Prop :=
  ∀ row ∈ q.rows, ∀ a, ∀ nField ∈ [1, q.nCol],
    (serialize (cfg.record a nField row)).length ≤ payloadSize

lemma FieldsOk.fits (h : FieldsOk cfg q s) (hinv : Inv q s) (hfits : Fits cfg q) :
    ∀ m ∈ s.maker.made, (serialize m.record).length ≤ payloadSize := by
  intro m hm
  obtain ⟨i, hi⟩ := List.mem_iff_getElem?.mp hm
  obtain ⟨hfield, a, ha⟩ := h.made i m hi
  rw [ha]
  refine hfits m.row (hinv.made_rows.subset (List.mem_map_of_mem hm)) a m.nField ?_
  rcases hfield with hset | ⟨-, hone⟩
  · simp [hset]
  · simp [hone]

/-- A packet overflows only if a record does not fit. -/
lemma Inv.not_crashed (h : Inv q s)
    (hfits : ∀ m ∈ s.maker.made, (serialize m.record).length ≤ payloadSize) :
    s.consumer.pc ≠ .crashed := by
  intro hpc
  have hphase := h.consumer.phase
  rw [hpc] at hphase
  obtain ⟨x, hx, hsize⟩ := hphase
  obtain ⟨m, hm, rfl⟩ := h.slot_made hx
  exact absurd (hfits m hm) (Nat.not_le.mpr hsize)

lemma record_length {row : List Mem} (hreal : ∀ m ∈ row, m.intReal = false)
    (hst : ∀ m ∈ row, serialTypeOf cfg.fileFormat m < 2^32) (a : Alloc)
    (hsize : (makeSsdRecord cfg.fileFormat cfg.toDouble row.length row a.garbage).nHdr < 2^31) :
    (serialize (cfg.record a row.length row)).length =
      9 + (makeSsdRecord cfg.fileFormat cfg.toDouble row.length row a.garbage).nByte := by
  rw [serialize_length, ← (makeSsdRecord_made hreal hst a.garbage hsize).length]
  rfl

end IronSafe.Pipeline
