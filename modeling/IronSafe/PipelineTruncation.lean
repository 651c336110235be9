import IronSafe.PipelineProgress

/-! A subquery that fails. The storage server prints the error and ends the stream as it does
after the last row, so the host cannot tell the rows before the failure from a whole result. -/
namespace IronSafe.Pipeline
open Bytes Packet Record

variable {cfg : Config} {q : Query} {s : State}

/-- The query fails after its rows. -/
def Query.aborted (q : Query) : Query := { q with failed := true }

/-- The rows are the whole result. -/
def Query.complete (q : Query) : Query := { q with failed := false }

/-- Whenever the host answers, the bytes that it received tell it whether the query failed. -/
def NoSilentTruncation (cfg : Config) (q : Query) : Prop :=
  ∀ schedule schedule', (run cfg q.aborted schedule).answer.isSome →
    (run cfg q.complete schedule').answer.isSome →
    (run cfg q.aborted schedule).sent ≠ (run cfg q.complete schedule').sent

def State.setError (s : State) (b : Bool) : State :=
  { s with query := { s.query with sqlError := b } }

lemma setError_ite (c : Prop) [Decidable c] (s t : State) (b : Bool) :
    (if c then s else t).setError b = if c then s.setError b else t.setError b :=
  apply_ite (fun s : State => s.setError b) c s t

lemma queryStep_setError (q : Query) (s : State) (b : Bool) :
    ∃ b', queryStep q.complete (s.setError b) = (queryStep q.aborted s).setError b' := by
  obtain ⟨⟨pc, todo, _⟩, _⟩ := s
  cases pc with
  | step => cases todo <;> exact ⟨_, rfl⟩
  | wait row =>
    refine ⟨b, ?_⟩
    simp only [queryStep, setError_ite]
    rfl
  | store | publish | returned | finish | exited => exact ⟨_, rfl⟩

lemma makerStep_setError (cfg : Config) (a : Alloc) (s : State) (b : Bool) :
    makerStep cfg a (s.setError b) = (makerStep cfg a s).setError b := by
  obtain ⟨_, _, _, _, ⟨pc, _⟩, _⟩ := s
  cases pc <;> first | rfl | simp only [makerStep, setError_ite]; rfl

lemma consumerStep_setError (n : ℕ) (s : State) (b : Bool) :
    consumerStep n (s.setError b) = (consumerStep n s).setError b := by
  obtain ⟨_, _, _, _, _, _, _, ⟨pc, _⟩, _⟩ := s
  cases pc <;> first | rfl | simp only [consumerStep, setError_ite]; rfl

lemma hostProducerStep_setError (n : ℕ) (s : State) (b : Bool) :
    hostProducerStep n (s.setError b) = (hostProducerStep n s).setError b := by
  obtain ⟨_, _, _, _, _, _, _, _, _, _, ⟨pc, _⟩, _⟩ := s
  cases pc <;> first | rfl | simp only [hostProducerStep, setError_ite]; rfl

lemma hostConsumerStep_setError (s : State) (b : Bool) :
    hostConsumerStep (s.setError b) = (hostConsumerStep s).setError b := by
  obtain ⟨_, _, _, _, _, _, _, _, _, _, _, _, ⟨pc, _⟩, _⟩ := s
  cases pc with
  | poll =>
    simp only [hostConsumerStep, setError_ite]
    rfl
  | insert records => cases records <;> rfl
  | read | advance | exited | crashed => rfl

lemma hostMainStep_setError (s : State) (b : Bool) :
    hostMainStep (s.setError b) = (hostMainStep s).setError b := by
  obtain ⟨_, _, _, _, _, _, _, _, _, _, ⟨pc, _⟩, _, ⟨pc', _⟩, _⟩ := s
  cases pc <;> cases pc' <;> rfl

/-- No step reads whether the query failed. -/
lemma step_setError (cfg : Config) (q : Query) (s : State) (b : Bool) (action : Action) :
    ∃ b', step cfg q.complete (s.setError b) action =
      (step cfg q.aborted s action).setError b' := by
  cases action with
  | query => exact queryStep_setError q s b
  | maker a => exact ⟨b, makerStep_setError cfg a s b⟩
  | consumer n => exact ⟨b, consumerStep_setError n s b⟩
  | hostProducer n => exact ⟨b, hostProducerStep_setError n s b⟩
  | hostConsumer => exact ⟨b, hostConsumerStep_setError s b⟩
  | hostMain => exact ⟨b, hostMainStep_setError s b⟩

/-- In the same interleaving a failed and a whole query differ in nothing but the error code. -/
lemma run_setError (cfg : Config) (q : Query) (schedule : List Action) :
    ∃ b, run cfg q.complete schedule = (run cfg q.aborted schedule).setError b := by
  have hsteps : ∀ s b, ∃ b', schedule.foldl (step cfg q.complete) (State.setError s b) =
      (schedule.foldl (step cfg q.aborted) s).setError b' := by
    induction schedule with
    | nil => exact fun s b => ⟨b, rfl⟩
    | cons action schedule ih =>
      intro s b
      obtain ⟨b', hstep⟩ := step_setError cfg q s b action
      rw [List.foldl_cons, hstep]
      exact ih _ b'
  exact hsteps (initial cfg q.aborted) false

/-- Every row can be encoded so that its record fits a packet: with its own number of fields or,
if it is the first, with one. -/
def Deliverable (cfg : Config) (q : Query) : Prop :=
  ∀ i row, q.rows[i]? = some row →
    ∃ a nField, (nField = q.nCol ∨ i = 0 ∧ nField = 1) ∧
    (serialize (cfg.record a nField row)).length ≤ payloadSize

lemma deliverable_of_answer {schedule : List Action} (h : (run cfg q schedule).answer.isSome) :
    Deliverable cfg q := by
  intro i row hrow
  have hinv := inv_run cfg q schedule
  obtain ⟨table, ht⟩ := Option.isSome_iff_exists.mp h
  obtain ⟨hexit, -⟩ := hinv.answer table ht
  obtain ⟨hpacked, hrows⟩ := hinv.packed (hinv.all_taken hexit).1
  rw [← hrows, List.getElem?_map, Option.map_eq_some_iff] at hrow
  obtain ⟨m, hm, rfl⟩ := hrow
  obtain ⟨hfield, a, ha⟩ := (fieldsOk_run cfg q schedule).made i m hm
  refine ⟨a, m.nField, hfield, ?_⟩
  rw [← ha]
  refine hinv.packed_fits _ ?_
  rw [hpacked]
  exact List.mem_map_of_mem (List.mem_of_getElem? hm)

lemma ready_initial
    (hfit : ∀ row ∈ q.rows, ∃ a, (serialize (cfg.record a q.nCol row)).length ≤ payloadSize) :
    Ready cfg q (initial cfg q) :=
  ⟨inv_initial cfg q, fieldsOk_run cfg q [], nofun, hfit⟩

/-- A first row that fits only with one field is encoded before the number is set. -/
lemma ready_race {row : List Mem} {rest : List (List Mem)} (hrows : q.rows = row :: rest)
    {a : Alloc} (hfirst : (serialize (cfg.record a 1 row)).length ≤ payloadSize)
    (hrest : ∀ row ∈ rest, ∃ a, (serialize (cfg.record a q.nCol row)).length ≤ payloadSize) :
    Ready cfg q (run cfg q (race a)) := by
  refine ⟨inv_run cfg q _, fieldsOk_run cfg q _, ?_, ?_⟩
  · rw [race_made hrows]
    intro m hm
    rw [List.mem_singleton.mp hm]
    exact hfirst
  · rw [race_made hrows, hrows]
    exact hrest

lemma Deliverable.answers (h : Deliverable cfg q) :
    ∃ schedule, (run cfg q schedule).answer.isSome := by
  cases hrows : q.rows with
  | nil => exact (ready_initial (by rw [hrows]; nofun)).answers
  | cons row rest =>
    have hrest : ∀ row ∈ rest, ∃ a, (serialize (cfg.record a q.nCol row)).length ≤ payloadSize := by
      intro row' hrow'
      obtain ⟨i, hi⟩ := List.mem_iff_getElem?.mp hrow'
      obtain ⟨a, nField, hfield, hfit⟩ := h (i+1) row' (by rw [hrows]; exact hi)
      obtain rfl : nField = q.nCol := hfield.resolve_right (by simp)
      exact ⟨a, hfit⟩
    obtain ⟨a, nField, hfield, hfit⟩ := h 0 row (by rw [hrows]; rfl)
    rcases hfield with rfl | ⟨-, rfl⟩
    · refine (ready_initial ?_).answers
      rw [hrows]
      exact List.forall_mem_cons.mpr ⟨⟨a, hfit⟩, hrest⟩
    · obtain ⟨schedule, hsome⟩ := (ready_race hrows hfit hrest).answers
      refine ⟨race a ++ schedule, ?_⟩
      rw [run, List.foldl_append]
      exact hsome

lemma Deliverable.unnoticed (h : Deliverable cfg q) : ¬ NoSilentTruncation cfg q := by
  intro hno
  obtain ⟨schedule, hsome⟩ := @Deliverable.answers cfg q.aborted h
  obtain ⟨b, hrun⟩ := run_setError cfg q schedule
  refine hno schedule schedule hsome ?_ ?_ <;> rw [hrun]
  · exact hsome
  · rfl

/-- A failed query is noticed only if the host never answers, because a record of the rows
before the failure is too long for a packet. -/
theorem truncation_noticed_iff (cfg : Config) (q : Query) :
    NoSilentTruncation cfg q ↔ ¬ Deliverable cfg q :=
  ⟨fun hno h => h.unnoticed hno, fun h _ _ hsome => absurd (deliverable_of_answer hsome) h⟩

lemma fits_twoColumns : Fits plainConfig twoColumns := by
  intro row hrow a nField hfield
  obtain rfl := List.mem_singleton.mp hrow
  rcases List.mem_pair.mp hfield with rfl | rfl
  · have hlen := @record_length plainConfig [intCell] (by simp [intCell]) (by decide) a
      (show (2 : ℕ) < 2^31 by norm_num)
    exact hlen.trans_le (show 9 + 3 ≤ payloadSize by decide)
  · have hlen :=
      @record_length plainConfig [intCell, textCell] (by simp [intCell, textCell]) (by decide) a
      (show (3 : ℕ) < 2^31 by norm_num)
    exact hlen.trans_le (show 9 + 6 ≤ payloadSize by decide)

theorem one_row_truncated : ¬ NoSilentTruncation plainConfig twoColumns := by
  refine Deliverable.unnoticed fun i row hrow => ⟨default, 2, .inl rfl, ?_⟩
  exact fits_twoColumns row (List.mem_of_getElem? hrow) default 2 (by decide)

end IronSafe.Pipeline
