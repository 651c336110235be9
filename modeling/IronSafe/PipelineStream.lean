import IronSafe.Greedy
import IronSafe.PipelinePackets

/-! The packets of `consumer_func` are the greedy partition of the records, no matter when the
records and the flag that ends them arrive. -/
namespace IronSafe.Pipeline
open Bytes Packet Record Greedy

variable {s s' : State} {frames : List (List UInt8)}

/-- A record packet that holds the given frames. -/
structure Carries (b : RecordBatch) (frames : List (List UInt8)) : Prop where
  pktType : b.pktType = .recPkt
  numRecords : b.numRecords = frames.length
  serialData : frames.flatten <+: b.serialData

lemma Filled.carries {b : Batching} (h : Filled b frames) : Carries b.batch frames := by
  obtain ⟨rs, stale, rfl, hfit, hs, rfl⟩ := h
  have hbatch := buildBatch_eq hfit hs
  unfold buildBatch at hbatch
  rw [hbatch]
  exact ⟨rfl, (List.length_map _).symm, List.prefix_append _ _⟩

/-- The record packets that were sent. -/
def ConsumerThread.records (t : ConsumerThread) : List Sent :=
  t.packets.filter fun p => p.batch.pktType ≠ .endPkt

def ConsumerThread.parts (t : ConsumerThread) : List (List (List UInt8)) :=
  t.records.map Sent.frames

/-- The last of the packets takes no more records. -/
def Closed (pcs : Ring PoolSlot) (pcsDone : Bool) (parts : List (List (List UInt8))) : Prop :=
  parts = [] ∨ ∃ ps part, parts = ps ++ [part] ∧ Begins List.length payloadSize ps part ∧
    Full pcs pcsDone (total List.length part)

/-- Between two packets the last one is closed; within a packet the partition goes on from it. -/
structure StreamOk (s : State) : Prop where
  filling : s.consumer.pc.inner = true →
    Begins List.length payloadSize s.consumer.parts s.consumer.frames
  full : s.consumer.pc = .send → Full s.pcs s.pcsDone s.consumer.batching.sbytes
  closed : s.consumer.pc.inner = false → Closed s.pcs s.pcsDone s.consumer.parts
  carries : ∀ p ∈ s.consumer.records, Carries p.batch p.frames
  sbytes : s.consumer.batching.sbytes ≤ payloadSize
  bytes : s.sent ++ s.consumer.pc.unsent =
    (s.consumer.packets.map fun p => serializeBeforeSend p.batch).flatten

/-- The next frame begins a packet. -/
lemma Closed.begins {pcs : Ring PoolSlot} {pcsDone : Bool} {parts : List (List (List UInt8))}
    (h : Closed pcs pcsDone parts) {frame : List UInt8}
    (hx : pcs.log[pcs.taken]? = some (slotOf frame)) :
    Begins List.length payloadSize parts [frame] := by
  rcases h with rfl | ⟨ps, part, rfl, hbegins, ⟨x, hx', hover⟩ | ⟨-, hend⟩⟩
  · exact begins_singleton frame
  · rw [hx] at hx'
    cases hx'
    exact hbegins.cut hover
  · have hlt := (List.getElem?_eq_some_iff.mp hx).1
    omega

/-- When there is no next frame the partition is complete. -/
lemma Closed.complete {pcs : Ring PoolSlot} {pcsDone : Bool} {parts : List (List (List UInt8))}
    (h : Closed pcs pcsDone parts) :
    parts = Greedy.parts List.length payloadSize parts.flatten := by
  rcases h with rfl | ⟨ps, part, rfl, hbegins, -⟩
  · rfl
  · rw [List.flatten_append, List.flatten_singleton]
    exact hbegins.last.symm

/-- A frame is copied: it fits the packet, or it is the first. -/
lemma StreamOk.begins_copy (h : StreamOk s) (hp : Packing s) {i : Bool} {r : SsdRecord}
    (hpc : s.consumer.pc = .copy i (serialize r).length)
    (hx : s.pcs.log[s.pcs.taken]? = some (slotOf (serialize r)))
    (hfits : (s.consumer.target i).sbytes + (serialize r).length ≤ payloadSize) :
    Begins List.length payloadSize s.consumer.parts (s.consumer.frames ++ [serialize r]) := by
  have hfill := hp.consumer.filling
  rw [hpc] at hfill
  cases i with
  | true =>
    have hbytes : s.consumer.batching.sbytes = total List.length s.consumer.frames :=
      Filled.sbytes hfill
    refine (h.filling (by rw [hpc]; rfl)).fits ?_
    rw [← hbytes]
    exact hfits
  | false =>
    rw [hfill.1]
    exact (h.closed (by rw [hpc]; rfl)).begins hx

lemma ConsumerThread.records_append (t : ConsumerThread) {p : Sent} (pc : ConsumerPc) (b : Batching)
    (frames : List (List UInt8)) (hp : p.batch.pktType ≠ .endPkt) :
    (ConsumerThread.mk pc b frames (t.packets ++ [p])).records = t.records ++ [p] := by
  simp [ConsumerThread.records, List.filter_append, hp]

lemma ConsumerThread.records_end (t : ConsumerThread) {p : Sent} (pc : ConsumerPc) (b : Batching)
    (frames : List (List UInt8)) (hp : p.batch.pktType = .endPkt) :
    (ConsumerThread.mk pc b frames (t.packets ++ [p])).records = t.records := by
  simp [ConsumerThread.records, List.filter_append, hp]

lemma ConsumerMove.stream (hm : ConsumerMove s s') (hp : Packing s) (h : StreamOk s) :
    StreamOk s' := by
  have hbytes := h.bytes
  cases hm with
  | stay => exact h
  | goto hinner _ _ hunsent _ hfull =>
    rw [hunsent, ← List.append_assoc] at hbytes
    exact ⟨fun hi => h.filling (hinner ▸ hi), hfull, fun hi => h.closed (hinner ▸ hi), h.carries,
      h.sbytes, hbytes⟩
  | copy hpc hx hfits =>
    rw [hpc] at hbytes
    exact ⟨fun _ => h.begins_copy hp hpc hx hfits, (by cases ·), (by cases ·), h.carries,
      hfits, hbytes⟩
  | advance hpc =>
    rw [hpc] at hbytes
    exact ⟨fun _ => h.filling (by rw [hpc]; rfl), (by cases ·), (by cases ·), h.carries, h.sbytes,
      hbytes⟩
  | send hpc =>
    have hfill := hp.consumer.filling
    rw [hpc] at hfill hbytes
    have hfilled : Filled s.consumer.batching s.consumer.frames := hfill
    have hcarries := hfilled.carries
    have htype : s.consumer.batching.batch.pktType ≠ .endPkt := by
      rw [hcarries.pktType]
      exact (by cases ·)
    have hrecords := s.consumer.records_append (p := ⟨s.consumer.batching.batch, s.consumer.frames⟩)
      (.write (serializeBeforeSend s.consumer.batching.batch) 0 false) s.consumer.batching [] htype
    refine ⟨(by cases ·), (by cases ·), fun _ => ?_, ?_, h.sbytes, ?_⟩
    · have hfull := h.full hpc
      rw [hfilled.sbytes] at hfull
      refine .inr ⟨s.consumer.parts, s.consumer.frames, ?_, h.filling (by rw [hpc]; rfl), hfull⟩
      dsimp only [ConsumerThread.parts]
      rw [hrecords, List.map_append]
      rfl
    · intro p hmem
      rw [hrecords] at hmem
      rcases List.mem_append.mp hmem with hmem | hmem
      · exact h.carries p hmem
      · rw [List.mem_singleton.mp hmem]
        exact hcarries
    · simp [ConsumerPc.unsent, ← hbytes]
  | finish hpc hb =>
    rw [hpc] at hbytes
    have hrecords :=
      s.consumer.records_end (p := ⟨{ s.consumer.batching.batch with pktType := .endPkt },[]⟩)
      (.write (serializeBeforeSend { s.consumer.batching.batch with pktType := .endPkt }) 0 true)
      { s.consumer.batching with batch := { s.consumer.batching.batch with pktType := .endPkt } }
        s.consumer.frames rfl
    subst hb
    refine ⟨(by cases ·), (by cases ·), fun _ => ?_, ?_, h.sbytes, ?_⟩
    · dsimp only [ConsumerThread.parts]
      rw [hrecords]
      exact h.closed (by rw [hpc]; rfl)
    · dsimp only
      rw [hrecords]
      exact h.carries
    · simp [ConsumerPc.unsent, ← hbytes]

/-- A step of the thread that fills the ring. -/
structure Fed (s s' : State) (xs : List PoolSlot) : Prop where
  grown : Grown s.pcs s'.pcs xs
  wf : s'.pcs.Wf recPool
  more : s.pcsDone = true → xs = []
  done : s.pcsDone = true → s'.pcsDone = true
  consumer : s'.consumer = s.consumer
  sent : s'.sent = s.sent

section Fed

variable {xs : List PoolSlot}

lemma Packing.fed (h : Packing s) (hf : Fed s s' xs)
    (hslots : ∀ x ∈ s'.pcs.log, ∃ r, x = slotOf (serialize r)) : Packing s' := by
  refine ⟨hf.wf, hslots, ?_⟩
  rw [hf.consumer]
  exact h.consumer.grown hf.grown h.pcs.taken_le hf.more hf.done

/-- A closed packet stays closed: the next record is there already, or none will come. -/
lemma Full.fed (hf : Fed s s' xs) {sbytes : ℕ} (h : Full s.pcs s.pcsDone sbytes) :
    Full s'.pcs s'.pcsDone sbytes := by
  rcases h with ⟨x, hx, hover⟩ | ⟨hdone, hend⟩
  · refine .inl ⟨x, ?_, hover⟩
    rw [hf.grown.taken]
    exact hf.grown.getElem hx
  · refine .inr ⟨hf.done hdone, ?_⟩
    rw [hf.grown.taken, hf.grown.log, hf.more hdone, List.append_nil]
    exact hend

lemma StreamOk.fed (h : StreamOk s) (hf : Fed s s' xs) : StreamOk s' := by
  obtain ⟨hfill, hfull, hclosed, hcarries, hsbytes, hbytes⟩ := h
  rw [← hf.consumer] at hfill hfull hclosed hcarries hsbytes hbytes
  rw [← hf.sent] at hbytes
  refine ⟨hfill, fun hpc => (hfull hpc).fed hf, fun hi => ?_, hcarries, hsbytes, hbytes⟩
  rcases hclosed hi with hnil | ⟨ps, part, hparts, hbegins, hlast⟩
  · exact .inl hnil
  · exact .inr ⟨ps, part, hparts, hbegins, hlast.fed hf⟩

end Fed

/-- The end packet has no frames. -/
lemma ConsumerOk.parts_flatten {pcs : Ring PoolSlot} {pcsDone : Bool} {t : ConsumerThread}
    (h : ConsumerOk pcs pcsDone t) : t.parts.flatten = t.packets.flatMap Sent.frames := by
  have hsent := h.sent
  rw [ConsumerThread.parts, ConsumerThread.records, ← List.flatMap_def]
  generalize t.packets = packets at hsent
  induction packets with
  | nil => rfl
  | cons p packets ih =>
    have hrest := ih fun p' hp' => hsent p' (List.mem_cons_of_mem _ hp')
    rcases (hsent p List.mem_cons_self).content with ⟨hend, hnil⟩ | ⟨hrec, -⟩
    · rw [List.filter_cons_of_neg (by simp [hend]), hrest, List.flatMap_cons, hnil, List.nil_append]
    · rw [List.filter_cons_of_pos (by simp [hrec]), List.flatMap_cons, hrest, List.flatMap_cons]

/-- The frames that have been packed are the first ones. -/
lemma Packing.packed (h : Packing s) (hlog : s.pcs.log <+: frames.map slotOf) :
    s.consumer.parts.flatten ++ s.consumer.frames =
      frames.take (s.pcs.taken + s.consumer.pc.ahead) := by
  have hpacked := h.consumer.frames
  have hahead := h.consumer.ahead_le h.pcs.taken_le
  rw [← h.consumer.parts_flatten, List.prefix_iff_eq_take.mp hlog, List.take_take,
    min_eq_left hahead, ← List.map_take] at hpacked
  exact slotOf_injective.list_map hpacked

lemma Packing.packed_outer (h : Packing s) (hi : s.consumer.pc.inner = false)
    (hlog : s.pcs.log <+: frames.map slotOf) :
    s.consumer.parts.flatten = frames.take s.pcs.taken := by
  have hpacked := h.packed hlog
  have hfill := h.consumer.filling
  have hahead : s.consumer.pc.ahead = 0 := by
    cases hpc : s.consumer.pc <;> rw [hpc] at hi <;> first | rfl | cases hi
  rw [hi] at hfill
  rw [hfill.1, hahead, List.append_nil] at hpacked
  exact hpacked

/-- When all records have been packed the packets are the partition. -/
lemma StreamOk.parts_eq (h : StreamOk s) (hp : Packing s) (hi : s.consumer.pc.inner = false)
    (hlog : s.pcs.log = frames.map slotOf) (hend : s.pcs.taken = s.pcs.log.length) :
    s.consumer.parts = Greedy.parts List.length payloadSize frames := by
  have hpacked := hp.packed_outer hi (by rw [hlog])
  rw [hend, hlog, List.length_map, List.take_length] at hpacked
  have hparts := (h.closed hi).complete
  rw [hpacked] at hparts
  exact hparts

/-- At any moment the packets are the first of the partition. -/
lemma StreamOk.parts_prefix (h : StreamOk s) (hp : Packing s)
    (hlog : s.pcs.log <+: frames.map slotOf)
    (hdone : s.pcsDone = true → s.pcs.log = frames.map slotOf) :
    s.consumer.parts <+: Greedy.parts List.length payloadSize frames := by
  cases hi : s.consumer.pc.inner with
  | true =>
    obtain ⟨rest, hrest⟩ : s.consumer.parts.flatten ++ s.consumer.frames <+: frames := by
      rw [hp.packed hlog]
      exact List.take_prefix _ _
    rw [← hrest]
    exact (h.filling hi).first_parts rest
  | false =>
    rcases h.closed hi with hnil | ⟨ps, part, hparts, hbegins, ⟨x, hx, -⟩ | ⟨hd, hend⟩⟩
    · rw [hnil]
      exact List.nil_prefix
    · obtain ⟨frame, hframe, rfl⟩ : ∃ frame, frames[s.pcs.taken]? = some frame ∧
        slotOf frame = x := by
        obtain ⟨rest, hrest⟩ := hlog
        have hget : (frames.map slotOf)[s.pcs.taken]? = some x := by
          rw [← hrest, List.getElem?_append_left (List.getElem?_eq_some_iff.mp hx).1, hx]
        rwa [List.getElem?_map, Option.map_eq_some_iff] at hget
      have hsplit :
          frames = s.consumer.parts.flatten ++ [frame] ++ frames.drop (s.pcs.taken+1) := by
        rw [hp.packed_outer hi hlog, ← Option.toList_some, ← hframe, ← List.take_add_one,
          List.take_append_drop]
      rw [hsplit]
      exact ((h.closed hi).begins hx).first_parts _
    · rw [h.parts_eq hp hi (hdone hd) hend]

end IronSafe.Pipeline
