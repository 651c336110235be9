import IronSafe.PolicyCompiler

/-! The language of policies and what the compiler accepts. -/
namespace IronSafe.Policy

/-- No parenthesis and no operator. -/
def Plain (s : Str) : Prop := ∀ c ∈ s, c ∉ ['(', ')', '&', '|']

instance (s : Str) : Decidable (Plain s) := List.decidableBAll _ s

/-- The texts of the language with their predicates: `|` joins predicates of one name, `&`
joins predicates of different names. -/
inductive Sentence : List (Str × Str) → Str → Prop
  | one {name value : Str} : Plain name → Plain value → Sentence [(name,value)] (item name value)
  | or {name value value' : Str} {items : List (Str × Str)} {text : Str} : Plain value →
      Sentence ((name,value') :: items) text →
      Sentence ((name,value) :: (name,value') :: items) (item name value ++ '|' :: text)
  | and {name value name' value' : Str} {items : List (Str × Str)} {text : Str} : Plain name →
      Plain value →
      name ≠ name' → Sentence ((name',value') :: items) text →
      Sentence ((name,value) :: (name',value') :: items) (item name value ++ '&' :: text)

/-- The language, up to trailing blanks. -/
def InLanguage (s : Str) : Prop :=
  ∃ items, Sentence items (rstrip s) ∧ sessionKeyIs ∈ items.map Prod.fst ∧
    query ∈ items.map Prod.fst

lemma Plain.not_mem {s : Str} (h : Plain s) {c : Char} (hc : c ∈ ['(', ')', '&', '|']) : c ∉ s :=
  fun hs => h c hs hc

lemma Plain.isOp {s : Str} (h : Plain s) : ∀ c ∈ s, isOp c = false := by
  intro c hc
  have hn := h c hc
  simp only [List.mem_cons, List.not_mem_nil, or_false, not_or] at hn
  simp [Policy.isOp, hn]

lemma isOp_item {name value : Str} (hname : Plain name) (hvalue : Plain value) :
    ∀ c ∈ item name value, isOp c = false := by
  intro c hc
  simp only [item, List.mem_append, List.mem_cons, List.not_mem_nil, or_false] at hc
  rcases hc with (hc | rfl | hc) | rfl
  · exact hname.isOp c hc
  · rfl
  · exact hvalue.isOp c hc
  · rfl

lemma Sentence.plain {items : List (Str × Str)} {text : Str} (h : Sentence items text) :
    ∀ kv ∈ items, Plain kv.1 ∧ Plain kv.2 := by
  induction h with
  | one hname hvalue =>
    intro kv hkv
    rw [List.mem_singleton.mp hkv]
    exact ⟨hname, hvalue⟩
  | or hvalue _ ih => exact List.forall_mem_cons.mpr ⟨⟨(ih _ List.mem_cons_self).1, hvalue⟩, ih⟩
  | and hname hvalue _ _ ih => exact List.forall_mem_cons.mpr ⟨⟨hname, hvalue⟩, ih⟩

/-- A text of the language is cut into its predicates. -/
lemma Sentence.splitOnP {items : List (Str × Str)} {text : Str} (h : Sentence items text) :
    text.splitOnP isOp = items.map fun kv => item kv.1 kv.2 := by
  induction h with
  | one hname hvalue => exact List.splitOnP_eq_singleton (isOp_item hname hvalue)
  | or hvalue hrest ih =>
    have hname := (hrest.plain _ List.mem_cons_self).1
    rw [List.splitOnP_append_cons_of_forall_mem (isOp_item hname hvalue) _ rfl, ih]
    rfl
  | and hname hvalue _ _ ih =>
    rw [List.splitOnP_append_cons_of_forall_mem (isOp_item hname hvalue) _ rfl, ih]
    rfl

lemma mapM_obtainKeyVal_items {items : List (Str × Str)}
    (h : ∀ kv ∈ items, Plain kv.1 ∧ Plain kv.2) :
    (items.map fun kv => item kv.1 kv.2).mapM obtainKeyVal = some items := by
  induction items with
  | nil => rfl
  | cons kv items ih =>
    obtain ⟨⟨hname, hvalue⟩, hitems⟩ := List.forall_mem_cons.mp h
    have hkv :=
      obtainKeyVal_item (hname.not_mem (by simp)) (hname.not_mem (by simp))
        (hvalue.not_mem (by simp))
    rw [List.map_cons, List.mapM_cons, hkv, ih hitems]
    rfl

lemma Sentence.keyVals {items : List (Str × Str)} {s : Str} (h : Sentence items (rstrip s)) :
    (segments s).mapM obtainKeyVal = some items := by
  rw [segments_eq, h.splitOnP]
  exact mapM_obtainKeyVal_items h.plain

lemma mapM_obtainKeyVal_eq_none {segs : List Str} :
    segs.mapM obtainKeyVal = none ↔ ∃ seg ∈ segs, '(' ∉ seg ∨ ')' ∉ seg := by
  induction segs with
  | nil => simp
  | cons seg segs ih =>
    rw [List.mapM_cons, List.exists_mem_cons_iff, ← ih, ← obtainKeyVal_eq_none]
    cases obtainKeyVal seg <;> cases segs.mapM obtainKeyVal <;> simp

/-- The value is in the dictionary under the name. -/
def Kept (d : PolicyDict) (name value : Str) : Prop :=
  match d.get? name with
  | some (.str s) => value = s
  | some (.list vs) => value ∈ vs
  | _ => False

/-- At the given text the compiler does what its language asks for. -/
def AcceptsExactly (s : Str) : Prop :=
  ((∃ d, compilePolicy s = .ok (some d)) ↔ InLanguage s) ∧
  (¬ InLanguage s → compilePolicy s = .ok none) ∧
  ∀ d, compilePolicy s = .ok (some d) → ∀ items, Sentence items (rstrip s) →
    ∀ kv ∈ items, Kept d kv.1 kv.2

/-- The name is given one value, perhaps more than once. -/
def OneValue (name : Str) (items : List (Str × Str)) : Prop :=
  ∃ v ∈ Dict.values name items, ∀ w ∈ Dict.values name items, w = v

lemma OneValue.mem {name : Str} {items : List (Str × Str)} (h : OneValue name items) :
    name ∈ items.map Prod.fst := by
  obtain ⟨v, hv, -⟩ := h
  exact List.mem_map_of_mem (Dict.mem_values.mp hv)

lemma OneValue.head {name : Str} {items : List (Str × Str)} (h : OneValue name items) {v : Str}
    (hv : v ∈ Dict.values name items) : (Dict.values name items).head? = some v := by
  obtain ⟨w, hw, hall⟩ := h
  obtain ⟨u, us, hus⟩ := List.exists_cons_of_ne_nil (List.ne_nil_of_mem hw)
  rw [hus, List.head?_cons, hall v hv, hall u (by rw [hus]; exact List.mem_cons_self)]

/-- Under the session key and the query only the first value is kept. -/
lemma Collects.oneValue {items : List (Str × Str)} {d : PolicyDict} (h : Collects items d)
    {name : Str} (hname : name = sessionKeyIs ∨ name = query) (hmem : Dict.values name items ≠ [])
    (hkept : ∀ kv ∈ items, Kept d kv.1 kv.2) : OneValue name items := by
  obtain ⟨v, vs, hvs⟩ := List.exists_cons_of_ne_nil hmem
  have hget := h name
  rw [entryOf, if_pos hname, hvs] at hget
  refine ⟨v, by rw [hvs]; exact List.mem_cons_self, fun w hw => ?_⟩
  have hw' := hkept (name,w) (Dict.mem_values.mp hw)
  rw [Kept, hget] at hw'
  exact hw'

lemma Collects.kept {items : List (Str × Str)} {d : PolicyDict} (h : Collects items d)
    (hkey : OneValue sessionKeyIs items) (hquery : OneValue query items) :
    ∀ kv ∈ items, Kept d kv.1 kv.2 := by
  rintro ⟨name, value⟩ hkv
  have hv := Dict.mem_values.mpr hkv
  rw [Kept, h name, entryOf]
  split_ifs with hname
  · have hone : OneValue name items := by
      rcases hname with rfl | rfl
      · exact hkey
      · exact hquery
    rw [hone.head hv]
    rfl
  · rw [Dict.listed, if_neg (List.ne_nil_of_mem hv)]
    exact hv

/-- The compiler agrees with its language on a text exactly if some predicate lacks a
parenthesis, or the text is in the language and gives the session key and the query one value. -/
theorem accepts_exactly_iff (s : Str) :
    AcceptsExactly s ↔ (∃ seg ∈ segments s, '(' ∉ seg ∨ ')' ∉ seg) ∨
      ∃ items, Sentence items (rstrip s) ∧ OneValue sessionKeyIs items ∧ OneValue query items := by
  rw [← mapM_obtainKeyVal_eq_none]
  constructor
  · rintro ⟨haccept, hrefuse, hkept⟩
    by_cases hlang : InLanguage s
    · obtain ⟨items, hitems, hkey, hquery⟩ := hlang
      have hkvs := hitems.keyVals
      have hkey' := Dict.values_ne_nil_iff.mpr hkey
      have hquery' := Dict.values_ne_nil_iff.mpr hquery
      obtain ⟨d, hd, hcol⟩ := compilePolicy_some hkvs hkey' hquery'
      have hall := hkept d hd items hitems
      exact .inr ⟨items, hitems, hcol.oneValue (.inl rfl) hkey' hall,
        hcol.oneValue (.inr rfl) hquery' hall⟩
    · left
      rcases compilePolicy_cases s with ⟨hnone, -⟩ | ⟨_, _, -, -, -, h⟩ | ⟨_, _, -, -, -, h, -⟩
      · exact hnone
      · rw [hrefuse hlang] at h
        cases h
      · rw [hrefuse hlang] at h
        cases h
  · rintro (hnone | ⟨items, hitems, hkey, hquery⟩)
    · have hcompile := compilePolicy_none hnone
      have hlang : ¬ InLanguage s := by
        rintro ⟨items, hitems, -⟩
        rw [hitems.keyVals] at hnone
        cases hnone
      refine ⟨iff_of_false ?_ hlang, fun _ => hcompile, ?_⟩
      · rintro ⟨d, hd⟩
        rw [hcompile] at hd
        cases hd
      · intro d hd
        rw [hcompile] at hd
        cases hd
    · have hlang : InLanguage s := ⟨items, hitems, hkey.mem, hquery.mem⟩
      obtain ⟨d, hd, hcol⟩ :=
        compilePolicy_some hitems.keyVals (Dict.values_ne_nil_iff.mpr hkey.mem)
        (Dict.values_ne_nil_iff.mpr hquery.mem)
      refine ⟨iff_of_true ⟨d, hd⟩ hlang, fun h => absurd hlang h, ?_⟩
      intro d' hd' items' hitems'
      rw [hd] at hd'
      cases hd'
      obtain rfl : items = items' := Option.some.inj (hitems.keyVals.symm.trans hitems'.keyVals)
      exact hcol.kept hkey hquery

/-- A policy without a session key raises. -/
theorem keyless_raises :
    compilePolicy "query(q)".toList = .error (.keyError sessionKeyIs) ∧
      ¬ AcceptsExactly "query(q)".toList := by
  have hraise : compilePolicy "query(q)".toList = .error (.keyError sessionKeyIs) := by rfl
  refine ⟨hraise, fun ⟨_, hrefuse, _⟩ => ?_⟩
  have hlang : ¬ InLanguage "query(q)".toList := by
    rintro ⟨items, hitems, hkey, -⟩
    have hkvs : some [(query,['q'])] = some items := hitems.keyVals
    rw [← Option.some.inj hkvs] at hkey
    revert hkey
    decide
  rw [hrefuse hlang] at hraise
  cases hraise

section Submission

/-- The policy text with which a client submits a query. -/
def submission (k q : Str) : Str := item sessionKeyIs k ++ '&' :: item query q

/-- Every parenthesis that is closed has been opened, and all are closed at the end. -/
def balanced : ℕ → Str → Bool
  | depth, [] => depth == 0
  | depth, '(' :: s => balanced (depth+1) s
  | 0, ')' :: _ => false
  | depth+1, ')' :: s => balanced depth s
  | depth, _ :: s => balanced depth s

/-- The submitted query is the one in the dictionary, and nothing else has been understood. -/
def QueryKept (k q : Str) : Prop :=
  ∃ d, compilePolicy (submission k q) = .ok (some d) ∧ d.get? query = some (.str q) ∧
    ∀ name ∈ d.keys, name = sessionKeyIs ∨ name = query

lemma balanced_of_not_mem {depth : ℕ} {s : Str} (hs : ')' ∉ s) (h : balanced depth s = true) :
    depth = 0 ∧ '(' ∉ s := by
  fun_induction balanced depth s with
  | case1 depth => simpa using h
  | case2 depth s ih =>
    rw [List.mem_cons, not_or] at hs
    exact absurd (ih hs.2 h).1 (Nat.succ_ne_zero depth)
  | case3 => cases h
  | case4 depth s => simp at hs
  | case5 depth c s hopen _ _ ih =>
    rw [List.mem_cons, not_or] at hs
    obtain ⟨hdepth, hmem⟩ := ih hs.2 h
    refine ⟨hdepth, ?_⟩
    rw [List.mem_cons, not_or]
    exact ⟨fun hc => hopen hc.symm, hmem⟩

lemma plain_sessionKeyIs : Plain sessionKeyIs := by decide

lemma plain_query : Plain query := by decide

lemma rstrip_submission (k q : Str) : rstrip (submission k q) = submission k q := by
  have hlast : submission k q = (item sessionKeyIs k ++ '&' :: (query ++ '(' :: q)) ++ [')'] := by
    simp [submission, item]
  rw [hlast, rstrip, List.rdropWhile_concat_neg _ _ _ (by decide)]

lemma segments_submission {k : Str} (hk : Plain k) (q : Str) :
    segments (submission k q) = item sessionKeyIs k :: (item query q).splitOnP isOp := by
  rw [segments_eq, rstrip_submission, submission,
    List.splitOnP_append_cons_of_forall_mem (isOp_item plain_sessionKeyIs hk) _ rfl]

/-- The first predicate with the name of the query is read up to its first `)`. -/
lemma obtainKeyVal_open {name rest : Str} {kv : Str × Str} (hopen : '(' ∉ name)
    (hclose : ')' ∉ name) (h : obtainKeyVal (name ++ '(' :: rest) = some kv) :
    ∃ value tail, kv = (name,value) ∧ rest = value ++ ')' :: tail ∧ ')' ∉ value := by
  have hmem : ')' ∈ rest := by
    by_contra hn
    rw [obtainKeyVal_eq_none.mpr (.inr (by simp [hclose, hn]))] at h
    cases h
  obtain ⟨value, tail, rfl, hval⟩ := List.eq_append_cons_of_mem hmem
  rw [obtainKeyVal_append hopen hclose hval] at h
  exact ⟨value, tail, (Option.some.inj h).symm, rfl, hval⟩

/-- The first segment of the query's predicate ends before the query does if there is an operator
in the query. -/
lemma splitOnP_item_query (q : Str) :
    ∃ rest segs, (item query q).splitOnP isOp = (query ++ '(' :: rest) :: segs ∧
      ((∀ c ∈ q, isOp c = false) ∧ rest = q ++ [')'] ∨ rest.length < q.length) := by
  have hquery : ∀ q0 : Str, (∀ c ∈ q0, isOp c = false) →
      ∀ c ∈ query ++ '(' :: q0, isOp c = false := by
    intro q0 h c hc
    rcases List.mem_append.mp hc with hc | hc
    · exact plain_query.isOp c hc
    · rcases List.mem_cons.mp hc with rfl | hc
      · rfl
      · exact h c hc
  cases hfind : q.find? isOp with
  | none =>
    have hnone : ∀ c ∈ q, isOp c = false := by simpa using hfind
    have hitem : item query q = query ++ '(' :: (q ++ [')']) := by simp [item]
    refine ⟨q ++ [')'], [], ?_, .inl ⟨hnone, rfl⟩⟩
    rw [hitem, List.splitOnP_eq_singleton (hquery _ ?_)]
    intro c hc
    rcases List.mem_append.mp hc with hc | hc
    · exact hnone c hc
    · rw [List.mem_singleton.mp hc]
      rfl
  | some c =>
    obtain ⟨hop, q0, q1, rfl, hq0⟩ := List.find?_eq_some_iff_append.mp hfind
    have hitem : item query (q0 ++ c :: q1) = (query ++ '(' :: q0) ++ c :: (q1 ++ [')']) := by
      simp [item]
    refine ⟨q0, (q1 ++ [')']).splitOnP isOp, ?_, .inr (by simp)⟩
    rw [hitem, List.splitOnP_append_cons_of_forall_mem (hquery q0 (by simpa using hq0)) _ hop]

/-- The predicates that are read from a submission. -/
lemma keyVals_submission {k q : Str} (hk : Plain k) {kvs : List (Str × Str)}
    (h : (segments (submission k q)).mapM obtainKeyVal = some kvs) :
    ∃ value tail kvs', kvs = (sessionKeyIs,k) :: (query,value) :: kvs' ∧ ')' ∉ value ∧
      ((∀ c ∈ q, isOp c = false) ∧ value ++ ')' :: tail = q ++ [')'] ∨
        value.length < q.length) := by
  obtain ⟨rest, segs, hsplit, hrest⟩ := splitOnP_item_query q
  have hkey :=
    obtainKeyVal_item (plain_sessionKeyIs.not_mem (by simp)) (plain_sessionKeyIs.not_mem (by simp))
    (hk.not_mem (by simp))
  rw [segments_submission hk, hsplit, List.mapM_cons, List.mapM_cons, hkey] at h
  simp only [Option.bind_eq_bind, Option.bind_some, Option.bind_eq_some_iff, Option.pure_def,
    Option.some.injEq] at h
  obtain ⟨_, ⟨kv, hkv, kvs', -, rfl⟩, rfl⟩ := h
  obtain ⟨value, tail, rfl, rfl, hval⟩ :=
    obtainKeyVal_open (plain_query.not_mem (by simp)) (plain_query.not_mem (by simp)) hkv
  refine ⟨value, tail, kvs', rfl, hval, hrest.imp id fun hlt => ?_⟩
  rw [List.length_append] at hlt
  omega

lemma plain_of_kept {k q : Str} (hk : Plain k) (hq : balanced 0 q = true) {kvs : List (Str × Str)}
    {d : PolicyDict} (hkvs : (segments (submission k q)).mapM obtainKeyVal = some kvs)
    (hcol : Collects kvs d) (hget : d.get? query = some (.str q)) : Plain q := by
  obtain ⟨value, tail, kvs', rfl, hval, hcut⟩ := keyVals_submission hk hkvs
  have hvalue : value = q := by
    have hentry := (hcol query).symm.trans hget
    rw [entryOf, if_pos (.inr rfl), Dict.values_cons, if_neg sessionKeyIs_ne_query,
      Dict.values_cons, if_pos rfl] at hentry
    simpa using hentry
  subst hvalue
  rcases hcut with ⟨hop, -⟩ | hlt
  · have hopen := (balanced_of_not_mem hval hq).2
    intro c hc hmem
    simp only [List.mem_cons, List.not_mem_nil, or_false] at hmem
    rcases hmem with rfl | rfl | rfl | rfl
    · exact hopen hc
    · exact hval hc
    · exact absurd (hop _ hc) (by decide)
    · exact absurd (hop _ hc) (by decide)
  · exact absurd hlt (lt_irrefl _)

/-- A submitted query is the one that is checked exactly if it has no parenthesis and no
operator. -/
theorem query_kept_iff (k q : Str) (hk : Plain k) (hq : balanced 0 q = true) :
    QueryKept k q ↔ Plain q := by
  constructor
  · rintro ⟨d, hd, hget, -⟩
    obtain ⟨kvs, hkvs, -, -, hcol⟩ := compilePolicy_eq_some hd
    exact plain_of_kept hk hq hkvs hcol hget
  · intro hplain
    have hsentence : Sentence [(sessionKeyIs,k), (query,q)] (rstrip (submission k q)) := by
      rw [rstrip_submission]
      exact .and plain_sessionKeyIs hk sessionKeyIs_ne_query (.one plain_query hplain)
    have hkey : Dict.values sessionKeyIs [(sessionKeyIs,k), (query,q)] = [k] := rfl
    have hquery : Dict.values query [(sessionKeyIs,k), (query,q)] = [q] := rfl
    obtain ⟨d, hd, hcol⟩ := compilePolicy_some hsentence.keyVals (by simp [hkey]) (by simp [hquery])
    refine ⟨d, hd, ?_, fun name hname => ?_⟩
    · rw [hcol, hquery]
      rfl
    · simpa using (hcol.mem_keys name).mp hname

theorem query_kept_select :
    Plain ['k'] ∧ balanced 0 "select 1".toList = true ∧ QueryKept ['k'] "select 1".toList :=
  ⟨by decide, by decide,
    (query_kept_iff ['k'] "select 1".toList (by decide) (by decide)).mpr (by decide)⟩

/-- A call in the query cuts it short. -/
theorem call_cut_short :
    (∃ d, compilePolicy (submission ['k'] "count(x)".toList) = .ok (some d) ∧
      d.get? query = some (.str "count(x".toList)) ∧
    Plain ['k'] ∧ balanced 0 "count(x)".toList = true ∧ ¬ QueryKept ['k'] "count(x)".toList := by
  have hcompile : compilePolicy (submission ['k'] "count(x)".toList) =
      .ok (some ⟨[(sessionKeyIs, .str ['k']), (query, .str "count(x".toList)], by decide⟩) := rfl
  refine ⟨⟨_, hcompile, rfl⟩, by decide, by decide, ?_⟩
  rintro ⟨d, hd, hget, -⟩
  rw [hcompile] at hd
  cases hd
  cases hget

end Submission

end IronSafe.Policy
