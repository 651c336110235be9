import IronSafe.PolicyServer

/-! The log along a history of requests and of executed queries. -/
namespace IronSafe.Policy

/-- A request to the server, or a call of the execution logger. -/
inductive Event
  | request (w : World) (useCase : UseCase) (data : List UInt8)
  | execution (w : World) (hostQuery storageQuery userKey : Str)

variable (rt : Runtime)

/-- The log that an event leaves. -/
def Event.step : Event → Log → Log
  | .request w useCase data, log => ((runServer rt w useCase data).exec log).2
  | .execution w hostQuery storageQuery userKey, log =>
    ((logQueryExecution w hostQuery storageQuery userKey).exec log).2

def runEvents (log : Log) (events : List Event) : Log :=
  events.foldl (fun log e => e.step rt log) log

/-- The line that is written for an executed query. -/
def executionEntry (hostQuery storageQuery userKey now : Str) : Str :=
  now ++ ',' :: userKey ++ ',' :: hostQuery ++ ',' :: storageQuery ++ ['\n']

/-- A use case that logs grants the request for this key and query. -/
structure Grants (log : Log) (w : World) (useCase : UseCase) (data : List UInt8) (k q : Str) :
    Prop where
  logs : useCase = .riskAgnostic ∨ useCase = .hidingBreaches
  compiled : ∃ s d, decode data = .ok s ∧ compilePolicy s = .ok (some d) ∧ Compiled d k q
  reply : ((runServer rt w useCase data).exec log).1 = .ok (encode success)

/-- A use case that logs has to grant the request: the server can read its file of keys, the key of
the policy is in it, and in the risk agnostic use case the policy names the values of both nodes. -/
structure Entitled (w : World) (useCase : UseCase) (data : List UInt8) (k q : Str) : Prop where
  logs : useCase = .riskAgnostic ∨ useCase = .hidingBreaches
  policy : ∃ s d, decode data = .ok s ∧ compilePolicy s = .ok (some d) ∧ Compiled d k q ∧
    (useCase = .riskAgnostic → ∀ check ∈ nodeChecks, Meets d check)
  key : ∃ p, w.accessPolicy = some p ∧ k ∈ p.sessionKeyIs

/-- The events that leave an entry. -/
def Event.Writes : Event → Prop
  | .request w useCase data => ∃ k q, Entitled w useCase data k q
  | .execution _ _ _ _ => True

/-- The event adds its entry to the log, and nothing else happens to the log. -/
def Logged (log : Log) : Event → Prop
  | .request w useCase data =>
    (∀ k q, Grants rt log w useCase data k q →
      (Event.request w useCase data).step rt log = some (log.getD [] ++ accessEntry k q w.now)) ∧
    ((¬ ∃ k q, Grants rt log w useCase data k q) → (Event.request w useCase data).step rt log = log)
  | .execution w hostQuery storageQuery userKey =>
    (Event.execution w hostQuery storageQuery userKey).step rt log =
      some (log.getD [] ++ executionEntry hostQuery storageQuery userKey w.now)

/-- No event of the history loses an entry. -/
def NeverLoses (log : Log) (events : List Event) : Prop :=
  ∀ pre e post, events = pre ++ e :: post → Logged rt (runEvents rt log pre) e

section Steps

variable {rt} {w : World} {useCase : UseCase} {log : Log}

/-- The first three use cases do not write the log. -/
lemma log_useCaseResult (hrisk : useCase ≠ .riskAgnostic) (hhiding : useCase ≠ .hidingBreaches)
    (clientDict : Option PolicyDict) :
    ((useCaseResult rt w useCase clientDict).exec log).2 = log := by
  cases useCase with
  | timelyDeletion => rfl
  | indiscriminate => cases h : runIndiscrUseCase w clientDict <;> simp [useCaseResult, h]
  | sharedData =>
    rw [useCaseResult, runObtainUserSharedData]
    cases readUserDataAccessPolicy w with
    | error e => rfl
    | ok p =>
      cases subscript clientDict sessionKeyIs with
      | error e => rfl
      | ok key =>
        simp only [exec_bind, exec_lift]
        cases key.is p.userIdentity <;> cases log <;> rfl
  | riskAgnostic => exact absurd rfl hrisk
  | hidingBreaches => exact absurd rfl hhiding
  | unknown => rfl

/-- A handler leaves the log as it was, or grants the request and writes its entry. -/
def GrantsOrKeeps (log : Log) (entry : Str) (r : Except Raised Bool × Log) : Prop :=
  (r.2 = log ∧ r.1 ≠ .ok true) ∨ r = (.ok true, some entry)

lemma runRiskAgnoUseCase_cases {p : DataAccessPolicy} {d : PolicyDict} {k q : Str}
    (hw : w.accessPolicy = some p) (hd : Compiled d k q) :
    GrantsOrKeeps log (accessEntry k q w.now) ((runRiskAgnoUseCase rt w (some d)).exec log) := by
  rw [exec_runRiskAgnoUseCase rt hw hd]
  split_ifs with hk
  · rcases offersAll (some d) nodeChecks with e | (- | -)
    · exact .inl ⟨rfl, by simp⟩
    · exact .inl ⟨rfl, by simp⟩
    · exact .inr rfl
  · exact .inl ⟨rfl, by simp⟩

lemma runHidingBreaches_cases {p : DataAccessPolicy} {d : PolicyDict} {k q : Str}
    (hw : w.accessPolicy = some p) (hd : Compiled d k q) :
    GrantsOrKeeps log (accessEntry k q w.now) ((runHidingBreaches rt w (some d)).exec log) := by
  rw [exec_runHidingBreaches rt hw hd]
  split_ifs with hk
  · exact .inr rfl
  · exact .inl ⟨rfl, by simp⟩

lemma verdict_eq_success {granted : Bool} : verdict granted = success ↔ granted = true := by
  cases granted <;> decide

/-- The reply that is sent for the verdict of a handler. -/
lemma GrantsOrKeeps.reply {h : Handler Bool} {entry : Str}
    (hh : GrantsOrKeeps log entry (h.exec log)) :
    let r := (do return some (verdict (← h)) : Handler (Option Str)).exec log
    (r.2 = log ∧ r.1 ≠ .ok (some success)) ∨ r = (.ok (some success), some entry) := by
  rcases hh with ⟨hlog, hr⟩ | hr
  · refine .inl ?_
    revert hlog hr
    simp only [bind_pure_comp, exec_map]
    generalize h.exec log = r
    obtain ⟨e | granted, log'⟩ := r
    · simp
    · simp +contextual [verdict_eq_success]
  · refine .inr ?_
    simp [hr, verdict]

/-- The other two leave the log as it was, unless they grant the request. -/
lemma useCaseResult_cases (rt : Runtime) (w : World) (log : Log)
    (hlogs : useCase = .riskAgnostic ∨ useCase = .hidingBreaches) {s : Str}
    {clientDict : Option PolicyDict} (hc : compilePolicy s = .ok clientDict) :
    (((useCaseResult rt w useCase clientDict).exec log).2 = log ∧
      ((useCaseResult rt w useCase clientDict).exec log).1 ≠ .ok (some success)) ∨
    ∃ d k q, clientDict = some d ∧ Compiled d k q ∧
      (useCaseResult rt w useCase clientDict).exec log =
        (.ok (some success), some (accessEntry k q w.now)) := by
  have hknown : useCase ≠ .unknown := by
    rintro rfl
    simp at hlogs
  cases hw : w.accessPolicy with
  | none =>
    rw [exec_useCaseResult_unreadable rt hw hknown]
    exact .inl ⟨rfl, by simp⟩
  | some p =>
    cases clientDict with
    | none =>
      rw [exec_useCaseResult_none rt hw hknown]
      exact .inl ⟨rfl, by simp⟩
    | some d =>
      obtain ⟨k, q, hd⟩ := exists_compiled hc
      rcases hlogs with rfl | rfl
      · exact (runRiskAgnoUseCase_cases hw hd).reply.imp id fun h => ⟨d, k, q, rfl, hd, h⟩
      · exact (runHidingBreaches_cases hw hd).reply.imp id fun h => ⟨d, k, q, rfl, hd, h⟩

/-- A request that is not granted leaves the log as it was. -/
lemma step_of_not_grants {data : List UInt8} (h : ¬ ∃ k q, Grants rt log w useCase data k q) :
    (Event.request w useCase data).step rt log = log := by
  rw [Event.step]
  cases hs : decode data with
  | error e => rw [exec_runServer_error rt hs]
  | ok s =>
    rw [exec_runServer rt hs]
    cases hc : compilePolicy s with
    | error e => rw [exec_answer_error rt hc]
    | ok c =>
      rw [exec_answer rt hc]
      by_cases hlogs : useCase = .riskAgnostic ∨ useCase = .hidingBreaches
      · rcases useCaseResult_cases rt w log hlogs hc with ⟨hlog, -⟩ | ⟨d, k, q, rfl, hd, hexec⟩
        · exact hlog
        · refine absurd ⟨k, q, hlogs, ⟨s, d, hs, hc, hd⟩, ?_⟩ h
          rw [exec_runServer rt hs, exec_answer rt hc, hexec]
          rfl
      · rw [not_or] at hlogs
        exact log_useCaseResult hlogs.1 hlogs.2 c

/-- A request that is granted leaves its own entry. -/
lemma Grants.step {data : List UInt8} {k q : Str} (h : Grants rt log w useCase data k q) :
    (Event.request w useCase data).step rt log = some (accessEntry k q w.now) := by
  obtain ⟨s, d, hs, hc, hd⟩ := h.compiled
  have hreply := h.reply
  rw [exec_runServer rt hs, exec_answer rt hc] at hreply
  rw [Event.step, exec_runServer rt hs, exec_answer rt hc]
  rcases useCaseResult_cases rt w log h.logs hc with ⟨-, hne⟩ | ⟨d', k', q', hd', hd'', hexec⟩
  · refine absurd ?_ hne
    rwa [map_encode_eq_ok, sent_eq_ok] at hreply
  · cases hd'
    obtain rfl : k = k' := by simpa using hd.key.symm.trans hd''.key
    obtain rfl : q = q' := by simpa using hd.query.symm.trans hd''.query
    rw [hexec]

/-- The verdict of the two use cases that log. -/
lemma useCaseResult_success_iff (hlogs : useCase = .riskAgnostic ∨ useCase = .hidingBreaches)
    {s : Str} {d : PolicyDict} {k q : Str} (hc : compilePolicy s = .ok (some d))
    (hd : Compiled d k q) :
    ((useCaseResult rt w useCase (some d)).exec log).1 = .ok (some success) ↔
      (∃ p, w.accessPolicy = some p ∧ k ∈ p.sessionKeyIs) ∧
        (useCase = .riskAgnostic → ∀ check ∈ nodeChecks, Meets d check) := by
  cases hw : w.accessPolicy with
  | none =>
    have hknown : useCase ≠ .unknown := by
      rintro rfl
      simp at hlogs
    rw [exec_useCaseResult_unreadable rt hw hknown]
    simp
  | some p =>
    obtain ⟨kvs, -, -, -, hcol⟩ := compilePolicy_eq_some hc
    rcases hlogs with rfl | rfl
    · simp only [useCaseResult, bind_pure_comp, exec_map, exec_runRiskAgnoUseCase rt hw hd]
      by_cases hk : k ∈ p.sessionKeyIs
      · rcases hcol.offersAll_cases listed_nodeChecks with ⟨hn, key, hkey⟩ | ⟨-, b, hb, hiff⟩
        · exact iff_of_false (by simp [hk, hkey]) fun h => hn (settled_of_meets (h.2 trivial))
        · cases b with
          | false =>
            refine iff_of_false (by simp [hk, hb, verdict_eq_success]) fun h => ?_
            exact Bool.false_ne_true (hiff.mpr (h.2 trivial))
          | true =>
            exact iff_of_true (by simp [hk, hb, verdict]) ⟨⟨p, rfl, hk⟩, fun _ => hiff.mp rfl⟩
      · simp [hk, verdict_eq_success]
    · simp only [useCaseResult, bind_pure_comp, exec_map, exec_runHidingBreaches rt hw hd]
      by_cases hk : k ∈ p.sessionKeyIs <;> simp [hk, verdict_eq_success]

/-- What is granted is what the request entitles to, whatever the log holds. -/
lemma grants_iff_entitled {data : List UInt8} {k q : Str} :
    Grants rt log w useCase data k q ↔ Entitled w useCase data k q := by
  constructor
  · rintro ⟨hlogs, ⟨s, d, hs, hc, hd⟩, hreply⟩
    rw [exec_runServer rt hs, exec_answer rt hc, map_encode_eq_ok, sent_eq_ok] at hreply
    obtain ⟨hkey, hnodes⟩ := (useCaseResult_success_iff hlogs hc hd).mp hreply
    exact ⟨hlogs, ⟨s, d, hs, hc, hd, hnodes⟩, hkey⟩
  · rintro ⟨hlogs, ⟨s, d, hs, hc, hd, hnodes⟩, hkey⟩
    refine ⟨hlogs, ⟨s, d, hs, hc, hd⟩, ?_⟩
    rw [exec_runServer rt hs, exec_answer rt hc, map_encode_eq_ok, sent_eq_ok]
    exact (useCaseResult_success_iff hlogs hc hd).mpr ⟨hkey, hnodes⟩

/-- An entry is never empty, so that an event leaves an empty log only if it writes none. -/
lemma Event.step_eq_nil_iff (e : Event) :
    (e.step rt log).getD [] = [] ↔ log.getD [] = [] ∧ ¬ e.Writes := by
  cases e with
  | request w useCase data =>
    by_cases h : ∃ k q, Grants rt log w useCase data k q
    · obtain ⟨k, q, hg⟩ := h
      rw [hg.step]
      exact iff_of_false (by simp [accessEntry]) fun hn => hn.2 ⟨k, q, grants_iff_entitled.mp hg⟩
    · have hwrites : ¬ (Event.request w useCase data).Writes := by
        rintro ⟨k, q, he⟩
        exact h ⟨k, q, grants_iff_entitled.mpr he⟩
      rw [step_of_not_grants h, and_iff_left hwrites]
  | execution w hostQuery storageQuery userKey =>
    simp [Event.step, Event.Writes, logQueryExecution]

/-- The log is empty after a history if it was empty and no event wrote an entry. -/
lemma runEvents_eq_nil_iff (events : List Event) :
    (runEvents rt log events).getD [] = [] ↔ log.getD [] = [] ∧ ∀ e ∈ events, ¬ e.Writes := by
  induction events generalizing log with
  | nil => simp [runEvents]
  | cons e events ih =>
    have hrun : runEvents rt log (e :: events) = runEvents rt (e.step rt log) events := rfl
    rw [hrun, ih, Event.step_eq_nil_iff, and_assoc, List.forall_mem_cons]

lemma logged_request_iff {data : List UInt8} :
    Logged rt log (.request w useCase data) ↔
      ((∃ k q, Grants rt log w useCase data k q) → log.getD [] = []) := by
  constructor
  · rintro ⟨hadds, -⟩ ⟨k, q, hg⟩
    have hstep := hadds k q hg
    rw [hg.step] at hstep
    simpa using hstep
  · intro hempty
    refine ⟨fun k q hg => ?_, step_of_not_grants⟩
    rw [hg.step, hempty ⟨k, q, hg⟩, List.nil_append]

lemma logged_execution (hostQuery storageQuery userKey : Str) :
    Logged rt log (.execution w hostQuery storageQuery userKey) := by
  simp [Logged, Event.step, logQueryExecution, executionEntry]

/-- `run_hiding_breaches` grants every policy of a known key. -/
lemma grants_hidingBreaches {p : DataAccessPolicy} {s : Str} {d : PolicyDict} {k q : Str}
    (hc : compilePolicy s = .ok (some d)) (hd : Compiled d k q) (hw : w.accessPolicy = some p)
    (hk : k ∈ p.sessionKeyIs) : Grants rt log w .hidingBreaches (encode s) k q :=
  grants_iff_entitled.mpr ⟨.inr rfl, ⟨s, d, decode_encode s, hc, hd, by simp⟩, ⟨p, hw, hk⟩⟩

end Steps

/-- A history loses no entry exactly if the log is empty at first and no event has written one
whenever a use case that logs has to grant a request. -/
theorem never_loses_iff (log : Log) (events : List Event) :
    NeverLoses rt log events ↔
      ∀ pre w useCase data post, events = pre ++ .request w useCase data :: post →
        (∃ k q, Entitled w useCase data k q) → log.getD [] = [] ∧ ∀ e ∈ pre, ¬ e.Writes := by
  constructor
  · rintro h pre w useCase data post hevents ⟨k, q, he⟩
    exact (runEvents_eq_nil_iff pre).mp
      (logged_request_iff.mp (h pre _ post hevents) ⟨k, q, grants_iff_entitled.mpr he⟩)
  · intro h pre e post hevents
    cases e with
    | request w useCase data =>
      refine logged_request_iff.mpr ?_
      rintro ⟨k, q, hg⟩
      exact (runEvents_eq_nil_iff pre).mpr
        (h pre w useCase data post hevents ⟨k, q, grants_iff_entitled.mp hg⟩)
    | execution w hostQuery storageQuery userKey =>
      exact logged_execution hostQuery storageQuery userKey

/-- The second of two granted requests erases the entry of the first. -/
theorem second_grant_erases :
    let w : World := ⟨some ⟨[['a'], ['b']], [], []⟩, ['t']⟩
    let first := Event.request w .hidingBreaches (encode "sessionKeyIs(a)&query(x)".toList)
    let second := Event.request w .hidingBreaches (encode "sessionKeyIs(b)&query(y)".toList)
    runEvents asciiRuntime none [first, second] = some (accessEntry ['b'] ['y'] ['t']) ∧
      ¬ NeverLoses asciiRuntime none [first, second] := by
  intro w first second
  have hfirst : ∀ log,
      Grants asciiRuntime log w .hidingBreaches (encode "sessionKeyIs(a)&query(x)".toList)
      ['a'] ['x'] :=
    fun log => grants_hidingBreaches rfl ⟨rfl, rfl⟩ rfl (by simp)
  have hsecond : ∀ log,
      Grants asciiRuntime log w .hidingBreaches (encode "sessionKeyIs(b)&query(y)".toList)
      ['b'] ['y'] :=
    fun log => grants_hidingBreaches rfl ⟨rfl, rfl⟩ rfl (by simp)
  have hrun : runEvents asciiRuntime none [first] = some (accessEntry ['a'] ['x'] ['t']) :=
    (hfirst none).step
  refine ⟨(hsecond _).step, fun h => ?_⟩
  have hlogged := logged_request_iff.mp (h [first] second [] rfl) ⟨_, _, hsecond _⟩
  rw [hrun] at hlogged
  cases hlogged

end IronSafe.Policy
