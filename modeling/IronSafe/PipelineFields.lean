import IronSafe.PipelineHost

/-! The number of fields. The query thread publishes a row inside `sqlite3_step` and sets
`num_rec_fields` only after the first step has returned, so the first row can be encoded with
the number that an earlier query left. No other row can. -/
namespace IronSafe.Pipeline
open Packet Record

variable {cfg : Config} {q : Query} {s : State}

/-- Rows published before the number of fields is set. -/
def QueryPc.early : QueryPc → ℕ
  | .returned => 1
  | _ => 0

structure FieldsOk (cfg : Config) (q : Query) (s : State) : Prop where
  unset : s.query.callbackIsInit = false → s.numRecFields = 1 ∧
    s.mkRec.log.length = s.query.pc.early
  set : s.query.callbackIsInit = true → s.numRecFields = q.nCol
  made : ∀ i m, s.maker.made[i]? = some m →
    (m.nField = q.nCol ∨ i = 0 ∧ m.nField = 1) ∧ ∃ a, m.record = cfg.record a m.nField m.row

lemma FieldsOk.same {s' : State} (h : FieldsOk cfg q s) (hs : SameMaker s s') :
    FieldsOk cfg q s' := by
  refine ⟨?_, ?_, ?_⟩
  · rw [hs.query, hs.numRecFields, hs.mkRec]
    exact h.unset
  · rw [hs.query, hs.numRecFields]
    exact h.set
  · rw [hs.maker]
    exact h.made

lemma FieldsOk.query_step (h : FieldsOk cfg q s) : FieldsOk cfg q (queryStep q s) := by
  have hunset := h.unset
  unfold queryStep
  cases hpc : s.query.pc with
  | step =>
    rw [hpc] at hunset
    cases s.query.todo <;> exact ⟨hunset, h.set, h.made⟩
  | wait row =>
    rw [hpc] at hunset
    dsimp only
    split_ifs
    · exact h
    · exact ⟨hunset, h.set, h.made⟩
  | store row =>
    rw [hpc] at hunset
    exact ⟨hunset, h.set, h.made⟩
  | publish row =>
    rw [hpc] at hunset
    refine ⟨fun hinit => ⟨(hunset hinit).1, ?_⟩, h.set, h.made⟩
    rw [Ring.publish_log, List.length_append, (hunset hinit).2]
    rfl
  | returned =>
    refine ⟨nofun, fun _ => ?_, h.made⟩
    dsimp only
    split_ifs with hinit
    · exact h.set hinit
    · rfl
  | finish =>
    rw [hpc] at hunset
    exact ⟨hunset, h.set, h.made⟩
  | exited => exact h

/-- The encoder reads the number that was set, unless it holds the first row. -/
lemma FieldsOk.fields_read (h : FieldsOk cfg q s) (hinv : Inv q s) {aMem : List Mem}
    (hpc : s.maker.pc = .count aMem) :
    s.numRecFields = q.nCol ∨ s.maker.made.length = 0 ∧ s.numRecFields = 1 ∧
      s.query.pc.early = 1 := by
  have hrows := congrArg List.length hinv.maker.rows
  have hle := hinv.mkRec.taken_le
  rw [hpc, List.length_append, List.length_map, List.length_take] at hrows
  simp only [MakerPc.inHand, List.length_singleton] at hrows
  cases hinit : s.query.callbackIsInit with
  | true => exact .inl (h.set hinit)
  | false =>
    obtain ⟨hone, hlen⟩ := h.unset hinit
    have hearly : s.query.pc.early ≤ 1 := by cases s.query.pc <;> simp [QueryPc.early]
    exact .inr ⟨by omega, hone, by omega⟩

lemma FieldsOk.maker_step (h : FieldsOk cfg q s) (hinv : Inv q s) (a : Alloc) :
    FieldsOk cfg q (makerStep cfg a s) := by
  cases hpc : s.maker.pc with
  | count aMem =>
    have hread := h.fields_read hinv hpc
    unfold makerStep
    rw [hpc]
    refine ⟨h.unset, h.set, fun i m hm => ?_⟩
    rw [List.getElem?_append] at hm
    split_ifs at hm with hi
    · exact h.made i m hm
    · obtain ⟨hi', rfl⟩ : i - s.maker.made.length = 0 ∧ ⟨aMem, s.numRecFields, _⟩ = m := by
        simpa [List.getElem?_singleton] using hm
      refine ⟨?_, a, rfl⟩
      exact hread.imp id fun hr => ⟨by omega, hr.2.1⟩
  | advance aMem =>
    unfold makerStep
    rw [hpc]
    exact ⟨h.unset, h.set, h.made⟩
  | poll | pollDone | check | checkEmpty | take | read | space | storeRecord | storeSize | publish
  | finish | exited =>
    unfold makerStep
    rw [hpc]
    dsimp only
    try split_ifs
    all_goals exact ⟨h.unset, h.set, h.made⟩

lemma FieldsOk.step (h : FieldsOk cfg q s) (hinv : Inv q s) (action : Action) :
    FieldsOk cfg q (step cfg q s action) := by
  cases action with
  | query => exact h.query_step
  | maker a => exact h.maker_step hinv a
  | consumer n => exact h.same (consumerStep_same n s)
  | hostProducer n => exact h.same (hostProducerStep_same n s).toSameMaker
  | hostConsumer => exact h.same (hostConsumerStep_same s).toSameMaker
  | hostMain => exact h.same (hostMainStep_same s).toSameMaker

/-- In every run only the first row can be encoded with a number of fields that is not its own. -/
theorem fieldsOk_run (cfg : Config) (q : Query) (schedule : List Action) :
    FieldsOk cfg q (run cfg q schedule) := by
  have hboth : Inv q (run cfg q schedule) ∧ FieldsOk cfg q (run cfg q schedule) :=
    @run_induction cfg q (fun s => Inv q s ∧ FieldsOk cfg q s)
      ⟨inv_initial cfg q, fun _ => ⟨rfl, rfl⟩, nofun, nofun⟩
      (fun _ action h => ⟨h.1.step cfg action, h.2.step h.1 action⟩) schedule
  exact hboth.2

/-- The encoder takes the first row before the step that published it has returned. -/
def race (a : Alloc) : List Action := List.replicate 4 .query ++ List.replicate 6 (.maker a)

lemma race_made {row : List Mem} {rest : List (List Mem)} (hrows : q.rows = row :: rest)
    (a : Alloc) : (run cfg q (race a)).maker.made = [⟨row, 1, cfg.record a 1 row⟩] := by
  obtain ⟨nCol, rows, width, failed⟩ := q
  obtain rfl : rows = row :: rest := hrows
  simp [race, run, step, queryStep, makerStep, initial, Ring.create, Ring.isFull, Ring.isEmpty,
    Ring.store, Ring.publish, Ring.consume, Ring.front, Ring.slot, mkRecPool]

lemma Inv.made_rows (h : Inv q s) : s.maker.made.map Made.row <+: q.rows := by
  rw [h.query.rows, List.append_assoc]
  refine List.IsPrefix.trans ⟨s.maker.pc.inHand, h.maker.rows⟩ ?_
  exact (List.take_prefix _ _).trans (List.prefix_append _ _)

lemma Inv.made_width (h : Inv q s) {m : Made} (hm : m ∈ s.maker.made) : m.row.length = q.nCol :=
  q.width _ (h.made_rows.subset (List.mem_map_of_mem hm))

/-- Every row is encoded with its own number of fields in all interleavings exactly if that
number is the one which the schema query left. -/
theorem fields_agree_iff (cfg : Config) (q : Query) :
    (∀ schedule, ∀ m ∈ (run cfg q schedule).maker.made, m.nField = m.row.length) ↔
      q.nCol = 1 ∨ q.rows = [] := by
  constructor
  · intro hall
    cases hrows : q.rows with
    | nil => exact .inr rfl
    | cons row rest =>
      have hm :=
        hall (race default) ⟨row, 1, _⟩ (by rw [race_made hrows]; exact List.mem_singleton_self _)
      have hwidth := q.width row (by rw [hrows]; exact List.mem_cons_self)
      exact .inl (hwidth.symm.trans hm.symm)
  · rintro hq schedule m hm
    have hinv := inv_run cfg q schedule
    obtain ⟨i, hi⟩ := List.mem_iff_getElem?.mp hm
    rw [hinv.made_width hm]
    rcases ((fieldsOk_run cfg q schedule).made i m hi).1 with hset | ⟨-, hone⟩
    · exact hset
    · have hrow := hinv.made_rows.subset (List.mem_map_of_mem hm)
      rcases hq with hq | hq
      · rw [hone, hq]
      · rw [hq] at hrow
        exact absurd hrow List.not_mem_nil

def plainConfig : Config where
  fileFormat := 4
  toDouble := id
  recPkt := ⟨.recPkt, 0, List.replicate payloadSize 0⟩
  sound := ⟨List.length_replicate, by decide⟩

lemma intCell_size : ([] : List UInt8).length + 0 < 2^31 := by decide

/-- The integer 5. -/
def intCell : Mem := ⟨false, false, true, false, false, false, false, 5, 0, [], intCell_size⟩

lemma textCell_size : ([97,98] : List UInt8).length + 0 < 2^31 := by decide

/-- The text `ab`. -/
def textCell : Mem := ⟨false, true, false, false, false, false, false, 0, 0, [97,98], textCell_size⟩

def twoColumns : Query where
  nCol := 2
  rows := [[intCell, textCell]]
  width := by simp
  failed := false

theorem second_column_lost :
    ¬ ∀ schedule, ∀ m ∈ (run plainConfig twoColumns schedule).maker.made,
      m.nField = m.row.length := by
  intro hall
  have hm := hall (race default) ⟨_, 1, _⟩ (by rw [race_made rfl]; exact List.mem_singleton_self _)
  exact absurd hm (by decide)

end IronSafe.Pipeline
