import IronSafe.PolicyServer

/-! What reaches the server and what it replies. -/
namespace IronSafe.Policy

section Transport

/-- How the transport delivers the bytes that the client sends: it cuts them into segments, some
have arrived when the server receives, and the server takes some of their bytes. -/
structure Delivery (bytes : List UInt8) where
  segments : List (List UInt8)
  ne_nil : ∀ segment ∈ segments, segment ≠ []
  flatten_eq : segments.flatten = bytes
  arrived : ℕ
  taken : ℕ
  taken_pos : 0 < taken
  taken_le : taken ≤ (segments.take arrived).flatten.length
  taken_le_buffer : taken ≤ 1024

variable {bytes : List UInt8}

/-- The bytes that `recv` returns. -/
def Delivery.data (dl : Delivery bytes) : List UInt8 :=
  (dl.segments.take dl.arrived).flatten.take dl.taken

/-- What the server does on the text itself: the bytes it replies with, or an exception, and the
log. -/
def actsOn (rt : Runtime) (w : World) (useCase : UseCase) (s : Str) (log : Log) :
    Except Raised (List UInt8) × Log :=
  (((answer rt w useCase s).exec log).1.map encode, ((answer rt w useCase s).exec log).2)

/-- A reply that is not a refusal. -/
def Granted (r : Except Raised (List UInt8)) : Prop :=
  ∃ reply, r = .ok reply ∧ reply ≠ encode failure

/-- The complete text is compiled, however it is delivered. -/
def CompilesWhole (s : Str) : Prop := ∀ dl : Delivery (encode s), decode dl.data = .ok s

/-- However the text is delivered, the server acts as the complete text asks it to, and grants
nothing on a proper prefix. -/
structure EnforcesWhole (s : Str) : Prop where
  acts : ∀ (dl : Delivery (encode s)) rt w useCase log,
    (runServer rt w useCase dl.data).exec log = actsOn rt w useCase s log
  grants : ∀ (dl : Delivery (encode s)) rt w useCase log,
    Granted ((runServer rt w useCase dl.data).exec log).1 → dl.data = encode s

/-- The bytes are a text that `compile_policy` gives up on. -/
def NoPolicy (data : List UInt8) : Prop := ∃ t, decode data = .ok t ∧ compilePolicy t = .ok none

/-- The text and all that one `recv` can return of it. -/
def NeverPolicy (s : Str) : Prop :=
  (encode s ≠ [] → compilePolicy s = .ok none) ∧
    ∀ n, 0 < n → n ≤ 1024 → n ≤ (encode s).length → NoPolicy ((encode s).take n)

lemma Delivery.data_prefix (dl : Delivery bytes) : dl.data <+: bytes := by
  obtain ⟨t, ht⟩ := List.take_prefix dl.arrived dl.segments
  have hflat : (dl.segments.take dl.arrived).flatten ++ t.flatten = bytes := by
    rw [← List.flatten_append, ht, dl.flatten_eq]
  exact (List.take_prefix _ _).trans ⟨t.flatten, hflat⟩

lemma Delivery.data_length (dl : Delivery bytes) : dl.data.length = dl.taken := by
  rw [data, List.length_take]
  exact min_eq_left dl.taken_le

lemma Delivery.data_eq (dl : Delivery bytes) : dl.data = bytes.take dl.taken := by
  rw [← dl.data_length]
  exact List.prefix_iff_eq_take.mp dl.data_prefix

/-- One segment, of which the first `n` bytes are received. -/
def Delivery.first (hne : bytes ≠ []) {n : ℕ} (hpos : 0 < n) (hbuf : n ≤ 1024)
    (hlen : n ≤ bytes.length) : Delivery bytes where
  segments := [bytes]
  ne_nil := by simpa using hne
  flatten_eq := by simp
  arrived := 1
  taken := n
  taken_pos := hpos
  taken_le := by simpa using hlen
  taken_le_buffer := hbuf

lemma Delivery.first_data (hne : bytes ≠ []) {n : ℕ} (hpos : 0 < n) (hbuf : n ≤ 1024)
    (hlen : n ≤ bytes.length) : (Delivery.first hne hpos hbuf hlen).data = bytes.take n := data_eq _

section Rejected

variable {s t : Str} {data : List UInt8}

lemma decode_error {e : Raised} (h : decode data = .error e) : e = .unicodeDecodeError := by
  rw [decode] at h
  split at h
  · exact (Except.error.inj h).symm
  · cases h

/-- Whatever the use case, texts that are no policies end in the same exception and leave the
log. -/
lemma exec_answer_noPolicy (rt : Runtime) (w : World) (useCase : UseCase) (log : Log) :
    ∃ e, ∀ t, compilePolicy t = .ok none → (answer rt w useCase t).exec log = (.error e, log) := by
  have hresult : ∃ e, (sent ((useCaseResult rt w useCase none).exec log).1,
      ((useCaseResult rt w useCase none).exec log).2) = (.error e, log) := by
    by_cases huse : useCase = .unknown
    · subst huse
      exact ⟨.attributeError, rfl⟩
    · cases hw : w.accessPolicy with
      | none => exact ⟨.osError, by rw [exec_useCaseResult_unreadable rt hw huse]; rfl⟩
      | some p => exact ⟨.typeError, by rw [exec_useCaseResult_none rt hw huse]; rfl⟩
  obtain ⟨e, he⟩ := hresult
  exact ⟨e, fun t ht => by rw [exec_answer rt ht, he]⟩

/-- The reply of the second use case to an owner's policy that names no key. It tells texts that are
no policies from all others. -/
def probe (data : List UInt8) : Except Raised (List UInt8) :=
  ((runServer asciiRuntime ⟨some ⟨[], [], []⟩, []⟩ .indiscriminate data).exec none).1

lemma probe_cases (h : decode data = .ok t) :
    (compilePolicy t = .ok none ∧ probe data = .error .typeError) ∨
      (∃ key, probe data = .error (.keyError key)) ∨ ∃ reply, probe data = .ok reply := by
  rw [probe, exec_runServer _ h]
  rcases compilePolicy_cases t with ⟨-, hc⟩ | ⟨_, key, -, -, -, hc⟩ | ⟨_, d, -, -, -, hc, -⟩
  · exact .inl ⟨hc, by rw [exec_answer _ hc]; rfl⟩
  · exact .inr (.inl ⟨key, by rw [exec_answer_error _ hc]; rfl⟩)
  · obtain ⟨k, q, hd⟩ := exists_compiled hc
    have hw : (World.mk (some ⟨[], [], []⟩) []).accessPolicy = some ⟨[], [], []⟩ := rfl
    refine .inr (.inr ⟨encode (verdict false), ?_⟩)
    rw [exec_answer _ hc]
    simp [useCaseResult, runIndiscrUseCase_eq hw hd, sent]

lemma probe_eq_typeError : probe data = .error .typeError ↔ NoPolicy data := by
  constructor
  · intro h
    cases hdec : decode data with
    | error e =>
      obtain rfl := decode_error hdec
      rw [probe, exec_runServer_error _ hdec] at h
      cases h
    | ok t =>
      rcases probe_cases hdec with ⟨hc, -⟩ | ⟨key, hkey⟩ | ⟨reply, hreply⟩
      · exact ⟨t, hdec, hc⟩
      · rw [hkey] at h
        cases h
      · rw [hreply] at h
        cases h
  · rintro ⟨t, ht, hc⟩
    rw [probe, exec_runServer _ ht, exec_answer _ hc]
    rfl

lemma length_le_encode (s : Str) : s.length ≤ (encode s).length := by
  induction s with
  | nil => simp
  | cons c s ih =>
    have hpos := Char.utf8Size_pos c
    rw [encode, List.flatMap_cons, List.length_append, ← encode, String.length_utf8EncodeChar,
      List.length_cons]
    omega

/-- A single byte is no policy: it is no text, or a text without one of the parentheses. -/
lemma probe_byte (b : UInt8) :
    probe [b] = .error .unicodeDecodeError ∨ probe [b] = .error .typeError := by
  cases hdec : decode [b] with
  | error e =>
    obtain rfl := decode_error hdec
    exact .inl (by rw [probe, exec_runServer_error _ hdec])
  | ok t =>
    have hlen : t.length ≤ 1 :=
      (length_le_encode t).trans (congrArg List.length (encode_of_decode hdec)).le
    exact .inr (probe_eq_typeError.mpr ⟨t, hdec, compilePolicy_short hlen⟩)

/-- With the first byte of a text the server acts as on the text only if that is no policy. -/
lemma noPolicy_of_first (h : probe ((encode s).take 1) = probe (encode s)) (hne : encode s ≠ []) :
    NoPolicy (encode s) := by
  obtain ⟨b, rest, hbytes⟩ := List.exists_cons_of_ne_nil hne
  have htake : (encode s).take 1 = [b] := by simp [hbytes]
  rw [htake] at h
  rcases probe_byte b with herr | htype
  · rw [herr] at h
    rcases probe_cases (decode_encode s) with ⟨-, htype⟩ | ⟨key, hkey⟩ | ⟨reply, hreply⟩
    · rw [htype] at h
      cases h
    · rw [hkey] at h
      cases h
    · rw [hreply] at h
      cases h
  · exact probe_eq_typeError.mp (h.symm.trans htype)

end Rejected

/-- The server acts as the complete text asks it to exactly if neither the text nor anything that a
`recv` can return of it is a policy. -/
lemma enforcesWhole_iff_neverPolicy (s : Str) : EnforcesWhole s ↔ NeverPolicy s := by
  constructor
  · intro h
    have hprobe : ∀ n, 0 < n → n ≤ 1024 → n ≤ (encode s).length →
        probe ((encode s).take n) = probe (encode s) := by
      intro n hpos hbuf hlen
      have hne : encode s ≠ [] := List.ne_nil_of_length_pos (by omega)
      have hacts :=
        h.acts (.first hne hpos hbuf hlen) asciiRuntime ⟨some ⟨[], [], []⟩, []⟩ .indiscriminate none
      rw [Delivery.first_data] at hacts
      rw [probe, probe, hacts, exec_runServer _ (decode_encode s)]
      rfl
    have hwhole : encode s ≠ [] → NoPolicy (encode s) := fun hne =>
      noPolicy_of_first (hprobe 1 one_pos (by decide) (List.length_pos_iff.mpr hne)) hne
    refine ⟨fun hne => ?_, fun n hpos hbuf hlen => ?_⟩
    · obtain ⟨t, ht, hc⟩ := hwhole hne
      rw [decode_encode] at ht
      cases ht
      exact hc
    · have hne : encode s ≠ [] := List.ne_nil_of_length_pos (by omega)
      exact probe_eq_typeError.mp
        ((hprobe n hpos hbuf hlen).trans (probe_eq_typeError.mpr (hwhole hne)))
  · rintro ⟨hs, hprefix⟩
    have hend : ∀ (dl : Delivery (encode s)) rt w useCase log, ∃ e,
        (runServer rt w useCase dl.data).exec log = (.error e, log) ∧
          (answer rt w useCase s).exec log = (.error e, log) := by
      intro dl rt w useCase log
      have hle := dl.data_prefix.length_le
      rw [dl.data_length] at hle
      have hne : encode s ≠ [] := List.ne_nil_of_length_pos (dl.taken_pos.trans_le hle)
      obtain ⟨t, ht, hc⟩ := hprefix dl.taken dl.taken_pos dl.taken_le_buffer hle
      obtain ⟨e, he⟩ := exec_answer_noPolicy rt w useCase log
      refine ⟨e, ?_, he s (hs hne)⟩
      rw [dl.data_eq, exec_runServer _ ht, he t hc]
      rfl
    refine ⟨fun dl rt w useCase log => ?_, fun dl rt w useCase log hg => ?_⟩
    · obtain ⟨e, hrun, hanswer⟩ := hend dl rt w useCase log
      rw [hrun, actsOn, hanswer]
      rfl
    · obtain ⟨e, hrun, -⟩ := hend dl rt w useCase log
      obtain ⟨reply, hreply, -⟩ := hg
      rw [hrun] at hreply
      cases hreply

lemma compilesWhole_iff (s : Str) : CompilesWhole s ↔ (encode s).length ≤ 1 := by
  constructor
  · intro h
    by_cases hne : encode s = []
    · simp [hne]
    · have hpos := List.length_pos_iff.mpr hne
      have hdata := encode_of_decode (h (.first hne one_pos (by decide) hpos))
      rw [Delivery.first_data] at hdata
      rw [hdata, List.length_take]
      exact min_le_left 1 _
  · intro hlen dl
    have hle := dl.data_prefix.length_le
    have hpos := dl.data_length ▸ dl.taken_pos
    have hdata : dl.data = encode s := dl.data_prefix.eq_of_length (by omega)
    rw [hdata, decode_encode]

/-- Of a text that can be granted, a part can be acted on: the server acts as the complete text asks
it to, in whatever pieces it comes, exactly if neither the text nor anything that a `recv` can
return of it is a policy. And it compiles the complete text in every case only if that is a single
byte or empty. -/
theorem enforces_whole_iff (s : Str) :
    (EnforcesWhole s ↔ NeverPolicy s) ∧ (CompilesWhole s ↔ (encode s).length ≤ 1) :=
  ⟨enforcesWhole_iff_neverPolicy s, compilesWhole_iff s⟩

/-- A text that is no policy is granted on its first 24 bytes. -/
theorem malformed_granted :
    ∃ dl : Delivery (encode "sessionKeyIs(k)&query(q)&oops".toList),
      compilePolicy "sessionKeyIs(k)&query(q)&oops".toList = .ok none ∧
      ((runServer asciiRuntime ⟨some ⟨[['k']], [], []⟩, []⟩ .hidingBreaches dl.data).exec none).1 =
        .ok (encode success) ∧
      ¬ EnforcesWhole "sessionKeyIs(k)&query(q)&oops".toList := by
  have hdata : ∃ dl : Delivery (encode "sessionKeyIs(k)&query(q)&oops".toList),
      dl.data = encode "sessionKeyIs(k)&query(q)".toList :=
    ⟨⟨[encode "sessionKeyIs(k)&query(q)".toList, encode "&oops".toList],
      by decide, by decide, 1, 24, by decide, by decide, by decide⟩, by decide⟩
  obtain ⟨dl, hdl⟩ := hdata
  have hgrant :
      ((runServer asciiRuntime ⟨some ⟨[['k']], [], []⟩, []⟩ .hidingBreaches dl.data).exec none).1 =
      .ok (encode success) := by
    have hw : (World.mk (some ⟨[['k']], [], []⟩) []).accessPolicy = some ⟨[['k']], [], []⟩ := rfl
    have hc : ∃ d, compilePolicy "sessionKeyIs(k)&query(q)".toList = .ok (some d) ∧
        Compiled d ['k'] ['q'] :=
      ⟨_, rfl, rfl, rfl⟩
    obtain ⟨d, hc, hd⟩ := hc
    rw [hdl, exec_runServer _ (decode_encode _), exec_answer _ hc, map_encode_eq_ok, sent_eq_ok]
    simp [useCaseResult, exec_runHidingBreaches asciiRuntime hw hd, verdict]
  refine ⟨dl, rfl, hgrant, fun h => ?_⟩
  have hwhole := h.grants dl _ _ _ _ ⟨_, hgrant, by decide⟩
  rw [hdl] at hwhole
  exact absurd hwhole (by decide)

end Transport

section Replies

variable (rt : Runtime) (p : DataAccessPolicy)

/-- The keys that a use case accepts. -/
def Authorised (useCase : UseCase) (k : Str) : Prop :=
  match useCase with
  | .sharedData => k = p.userIdentity
  | _ => k ∈ p.sessionKeyIs

/-- The request has to be refused. -/
def Refused (useCase : UseCase) (s : Str) : Prop :=
  (¬ ∃ d, compilePolicy s = .ok (some d)) ∨
  ∃ d k q, compilePolicy s = .ok (some d) ∧ Compiled d k q ∧
    (¬ Authorised p useCase k ∨ useCase = .riskAgnostic ∧ ∃ check ∈ nodeChecks, ¬ Meets d check)

/-- The positive result of a use case. -/
def positive (log : Str) (useCase : UseCase) (q : Str) : Str :=
  match useCase with
  | .timelyDeletion => rewriteTables rt p.expiryDate (rt.caseMap.lower q)
  | .sharedData => rstrip (universalNewlines log)
  | _ => success

/-- The request is answered, with a refusal if it has to be refused. The answer is what the handler
gives to `sendall`: a positive result that is empty, such as a log without contents, puts no byte on
the wire, and the client only sees the connection closed, as it does after an exception. -/
def Answered (now log : Str) (useCase : UseCase) (s : Str) : Prop :=
  ∃ reply, ((answer rt ⟨some p, now⟩ useCase s).exec (some log)).1 = .ok reply ∧
    (Refused p useCase s → reply = failure) ∧
    (¬ Refused p useCase s →
      ∀ d k q, compilePolicy s = .ok (some d) → Compiled d k q →
      reply = positive rt p log useCase q)

variable {rt p} {useCase : UseCase} {s : Str} {d : PolicyDict} {k q : Str}

lemma Compiled.unique {k' q' : Str} (h : Compiled d k q) (h' : Compiled d k' q') :
    k = k' ∧ q = q' :=
  ⟨by simpa using h.key.symm.trans h'.key, by simpa using h.query.symm.trans h'.query⟩

lemma refused_iff (hc : compilePolicy s = .ok (some d)) (hd : Compiled d k q) :
    Refused p useCase s ↔
      ¬ Authorised p useCase k ∨
        useCase = .riskAgnostic ∧ ∃ check ∈ nodeChecks, ¬ Meets d check := by
  constructor
  · rintro (hnone | ⟨d', k', q', hc', hd', h⟩)
    · exact absurd ⟨d, hc⟩ hnone
    · rw [hc] at hc'
      cases hc'
      obtain ⟨rfl, rfl⟩ := hd.unique hd'
      exact h
  · exact fun h => .inr ⟨d, k, q, hc, hd, h⟩

variable {now log : Str}

lemma answered_of_reply {reply : Str} (hc : compilePolicy s = .ok (some d)) (hd : Compiled d k q)
    (hreply : ((answer rt ⟨some p, now⟩ useCase s).exec (some log)).1 = .ok reply)
    (hrefused : Refused p useCase s → reply = failure)
    (hgranted : ¬ Refused p useCase s → reply = positive rt p log useCase q) :
    Answered rt p now log useCase s := by
  refine ⟨reply, hreply, hrefused, fun hn d' k' q' hc' hd' => ?_⟩
  rw [hc] at hc'
  cases hc'
  obtain ⟨rfl, rfl⟩ := hd.unique hd'
  exact hgranted hn

/-- The value that a use case gives for a compiled policy. -/
def outcome (rt : Runtime) (p : DataAccessPolicy) (log : Str) (useCase : UseCase) (d : PolicyDict)
    (k q : Str) : Except Raised (Option Str) :=
  match useCase with
  | .timelyDeletion =>
    .ok (if k ∈ p.sessionKeyIs then some (rewriteTables rt p.expiryDate (rt.caseMap.lower q))
      else none)
  | .indiscriminate => .ok (some (verdict (p.sessionKeyIs.contains k)))
  | .sharedData => .ok (if k = p.userIdentity then some (rstrip (universalNewlines log)) else none)
  | .riskAgnostic =>
    if k ∈ p.sessionKeyIs then (offersAll (some d) nodeChecks).map fun b => some (verdict b)
    else .ok (some failure)
  | .hidingBreaches => .ok (some (verdict (p.sessionKeyIs.contains k)))
  | .unknown => .ok none

lemma useCaseResult_outcome {w : World} (hw : w.accessPolicy = some p) (hd : Compiled d k q) :
    ((useCaseResult rt w useCase (some d)).exec (some log)).1 = outcome rt p log useCase d k q := by
  cases useCase with
  | timelyDeletion => simp [useCaseResult, runTimelyDeletionCase_eq rt hw hd, outcome]
  | indiscriminate => simp [useCaseResult, runIndiscrUseCase_eq hw hd, outcome]
  | sharedData => simp [useCaseResult, exec_runObtainUserSharedData hw hd, outcome]
  | riskAgnostic =>
    rw [outcome]
    by_cases hk : k ∈ p.sessionKeyIs
    · rcases hoffers : offersAll (some d) nodeChecks with e | (- | -) <;>
        simp [useCaseResult, exec_runRiskAgnoUseCase rt hw hd, hk, hoffers]
    · simp [useCaseResult, exec_runRiskAgnoUseCase rt hw hd, hk, verdict]
  | hidingBreaches =>
    by_cases hk : k ∈ p.sessionKeyIs <;>
      simp [useCaseResult, exec_runHidingBreaches rt hw hd, hk, outcome]
  | unknown => rfl

/-- No missing predicate is reached, and the use cases that have no word for a refusal do not need
one. -/
def Answerable (p : DataAccessPolicy) (useCase : UseCase) (d : PolicyDict) (k : Str) : Prop :=
  match useCase with
  | .timelyDeletion => k ∈ p.sessionKeyIs
  | .sharedData => k = p.userIdentity
  | .riskAgnostic => k ∈ p.sessionKeyIs → Settled d nodeChecks
  | _ => True

lemma answerable_of_sent {reply : Str} (hc : compilePolicy s = .ok (some d))
    (h : sent (outcome rt p log useCase d k q) = .ok reply) : Answerable p useCase d k := by
  rw [sent_eq_ok] at h
  cases useCase with
  | timelyDeletion =>
    by_contra (hk : k ∉ p.sessionKeyIs)
    rw [outcome, if_neg hk] at h
    cases h
  | sharedData =>
    by_contra (hk : k ≠ p.userIdentity)
    rw [outcome, if_neg hk] at h
    cases h
  | riskAgnostic =>
    intro hk
    obtain ⟨kvs, -, -, -, hcol⟩ := compilePolicy_eq_some hc
    rcases hcol.offersAll_cases listed_nodeChecks with ⟨-, key, hkey⟩ | ⟨hsettled, -⟩
    · rw [outcome, if_pos hk, hkey] at h
      cases h
    · exact hsettled
  | indiscriminate => trivial
  | hidingBreaches => trivial
  | unknown => trivial

/-- A verdict is the right reply if it is positive exactly for what is not refused. -/
lemma verdict_right {granted : Bool} (hgranted : granted = true ↔ ¬ Refused p useCase s) :
    (Refused p useCase s → verdict granted = failure) ∧
      (¬ Refused p useCase s → verdict granted = success) := by
  refine ⟨fun h => ?_, fun h => ?_⟩
  · rw [Bool.eq_false_iff.mpr fun hg => hgranted.mp hg h]
    rfl
  · rw [hgranted.mpr h]
    rfl

lemma sent_of_answerable (huse : useCase ≠ .unknown) (hc : compilePolicy s = .ok (some d))
    (hd : Compiled d k q) (h : Answerable p useCase d k) :
    ∃ reply, sent (outcome rt p log useCase d k q) = .ok reply ∧
      (Refused p useCase s → reply = failure) ∧
        (¬ Refused p useCase s → reply = positive rt p log useCase q) := by
  have hrefused := @refused_iff p useCase s d k q hc hd
  simp only [sent_eq_ok]
  cases useCase with
  | timelyDeletion =>
    have hk : k ∈ p.sessionKeyIs := h
    refine ⟨rewriteTables rt p.expiryDate (rt.caseMap.lower q),
      by rw [outcome, if_pos hk], fun hr => ?_, fun _ => rfl⟩
    exact absurd hk (by simpa [Authorised] using hrefused.mp hr)
  | sharedData =>
    have hk : k = p.userIdentity := h
    refine ⟨rstrip (universalNewlines log), by rw [outcome, if_pos hk], fun hr => ?_, fun _ => rfl⟩
    exact absurd hk (by simpa [Authorised] using hrefused.mp hr)
  | indiscriminate => exact ⟨_, rfl, verdict_right (by simp [hrefused, Authorised])⟩
  | hidingBreaches => exact ⟨_, rfl, verdict_right (by simp [hrefused, Authorised])⟩
  | riskAgnostic =>
    by_cases hk : k ∈ p.sessionKeyIs
    · obtain ⟨kvs, -, -, -, hcol⟩ := compilePolicy_eq_some hc
      rcases hcol.offersAll_cases listed_nodeChecks with ⟨hn, -⟩ | ⟨-, b, hb, hiff⟩
      · exact absurd (h hk) hn
      · refine ⟨verdict b, by rw [outcome, if_pos hk, hb]; rfl, verdict_right ?_⟩
        simp [hrefused, Authorised, hk, hiff]
    · exact ⟨failure,
        by rw [outcome, if_neg hk], fun _ => rfl, fun hr => absurd (hrefused.mpr (.inl hk)) hr⟩
  | unknown => exact absurd rfl huse

/-- A request is answered as it should be exactly if it compiles, no missing predicate is reached,
and the two use cases that reply with a text are asked by a key that they accept. -/
theorem answered_iff (rt : Runtime) (p : DataAccessPolicy) (now log : Str) (useCase : UseCase)
    (s : Str) (huse : useCase ≠ .unknown) :
    Answered rt p now log useCase s ↔
      ∃ d k q, compilePolicy s = .ok (some d) ∧ Compiled d k q ∧ Answerable p useCase d k := by
  have hw : (World.mk (some p) now).accessPolicy = some p := rfl
  constructor
  · rintro ⟨reply, hreply, -⟩
    cases hc : compilePolicy s with
    | error e =>
      rw [exec_answer_error rt hc] at hreply
      cases hreply
    | ok c =>
      rw [exec_answer rt hc] at hreply
      cases c with
      | none =>
        rw [exec_useCaseResult_none rt hw huse] at hreply
        cases hreply
      | some d =>
        obtain ⟨k, q, hd⟩ := exists_compiled hc
        rw [useCaseResult_outcome hw hd] at hreply
        exact ⟨d, k, q, rfl, hd, answerable_of_sent hc hreply⟩
  · rintro ⟨d, k, q, hc, hd, h⟩
    obtain ⟨reply, hreply, hrefused, hgranted⟩ :=
      @sent_of_answerable rt p useCase s d k q log huse hc hd h
    refine answered_of_reply hc hd ?_ hrefused hgranted
    rw [exec_answer rt hc, useCaseResult_outcome hw hd]
    exact hreply

theorem answered_known_key :
    Answered asciiRuntime ⟨[['k']], [], []⟩ [] [] .indiscriminate
      "sessionKeyIs(k)&query(q)".toList :=
  (answered_iff _ _ _ _ _ _ (by decide)).mpr ⟨_, _, _, rfl, ⟨rfl, rfl⟩, trivial⟩

/-- A key that is not known makes the first use case raise. -/
theorem unknown_key_raises :
    ((answer asciiRuntime ⟨some ⟨[], [], []⟩, []⟩ .timelyDeletion
      "sessionKeyIs(k)&query(q)".toList).exec (some [])).1 =
      .error .attributeError ∧
    ¬ Answered asciiRuntime ⟨[], [], []⟩ [] [] .timelyDeletion
      "sessionKeyIs(k)&query(q)".toList := by
  have hraise : ((answer asciiRuntime ⟨some ⟨[], [], []⟩, []⟩ .timelyDeletion
      "sessionKeyIs(k)&query(q)".toList).exec (some [])).1 = .error .attributeError := by
    rfl
  refine ⟨hraise, fun ⟨reply, hreply, _⟩ => ?_⟩
  rw [hraise] at hreply
  cases hreply

end Replies

end IronSafe.Policy
