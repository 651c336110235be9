import IronSafe.PolicyCompiler
import IronSafe.Text

/-! The use cases and the policy server. A request reads the owner's data access policy and may
read or write the log; an exception ends it. -/
namespace IronSafe.Policy

/-- The owner's policy, as it is read from its file. -/
structure DataAccessPolicy where
  sessionKeyIs : List Str
  expiryDate : Str
  userIdentity : Str

/-- The functions of the language's library that the server uses: lower case, the quoted form of
a string and the number that a string denotes. -/
structure Runtime where
  caseMap : Text.CaseMap
  repr : Str → Str
  int : Str → Option ℤ

/-- A library that knows lower case for ASCII only. -/
def asciiRuntime : Runtime := ⟨Text.asciiCase, id, fun _ => none⟩

/-- What a request finds: the data access policy, if its file can be read, and the time. -/
structure World where
  accessPolicy : Option DataAccessPolicy
  now : Str

/-- The contents of the log file, if there is one. -/
abbrev Log := Option Str

abbrev Handler := ExceptT Raised (StateM Log)

/-- Run a handler: its end and the log that it leaves. -/
def Handler.exec {α : Type} (h : Handler α) (log : Log) : Except Raised α × Log :=
  StateT.run (ExceptT.run h) log

def hostLocIs : Str := "hostLocIs".toList

def storageLocIs : Str := "storageLocIs".toList

def hostFwVersionIs : Str := "hostFwVersionIs".toList

def storageFwVersionIs : Str := "storageFwVersionIs".toList

lemma nodup_storageDict : [storageLocIs, storageFwVersionIs].Nodup := by decide

lemma nodup_hostDict : [hostLocIs, hostFwVersionIs].Nodup := by decide

def storageDict : Dict Str Str :=
  ⟨[(storageLocIs, "uk".toList), (storageFwVersionIs, "latest".toList)], nodup_storageDict⟩

def hostDict : Dict Str Str :=
  ⟨[(hostLocIs, "uk".toList), (hostFwVersionIs, "latest".toList)], nodup_hostDict⟩

def tableList : List Str :=
  ["LINEITEM", "ORDERS", "PARTSUPP", "CUSTOMER", "PART", "SUPPLIER", "NATION", "REGION"].map
    String.toList

section Values

variable (rt : Runtime)

/-- `key in names` for a list of strings. -/
def PolicyVal.isIn : PolicyVal → List Str → Bool
  | .str s, names => names.contains s
  | _, _ => false

def PolicyVal.is : PolicyVal → Str → Bool
  | .str s, t => s = t
  | _, _ => false

/-- `v in value`. -/
def PolicyVal.has (v : Str) : PolicyVal → Bool
  | .str s => v <:+: s
  | .list vs => vs.contains v
  | .table entries => entries.keys.contains v

def PolicyVal.lower : PolicyVal → Except Raised Str
  | .str s => .ok (rt.caseMap.lower s)
  | _ => .error .attributeError

def formatList (vs : List Str) : Str := '[' :: ", ".toList.intercalate (vs.map rt.repr) ++ [']']

/-- What `format` puts for a value. -/
def PolicyVal.format : PolicyVal → Str
  | .str s => s
  | .list vs => formatList rt vs
  | .table entries =>
    '\x7b' :: ", ".toList.intercalate
      (entries.entries.map fun e => rt.repr e.1 ++ ": ".toList ++ formatList rt e.2)
      ++ ['\x7d']

/-- Subscript a dictionary, or the `None` of a policy that did not compile. -/
def subscript (clientDict : Option PolicyDict) (key : Str) : Except Raised PolicyVal :=
  match clientDict with
  | none => .error .typeError
  | some d =>
    match d.get? key with
    | none => .error (.keyError key)
    | some v => .ok v

end Values

section UseCases

variable (rt : Runtime) (w : World) (clientDict : Option PolicyDict)

def readUserDataAccessPolicy : Except Raised DataAccessPolicy :=
  match w.accessPolicy with
  | none => .error .osError
  | some userDataPolicy => .ok userDataPolicy

/-- The text that a table name is replaced by. -/
def selectFrom (table expiryDate : Str) : Str :=
  "(select * from ".toList ++ table ++ " where expiry_date >= '".toList ++ expiryDate ++ "')".toList

/-- The loop of `run_timely_deletion_case`. -/
def rewriteTables (expiryDate query : Str) : Str :=
  tableList.foldl (fun query i =>
    Text.replace (rt.caseMap.lower i) (selectFrom (rt.caseMap.lower i) expiryDate) query) query

/-- The query or, if the key is not known, `False`, for which `none` stands. -/
def runTimelyDeletionCase : Except Raised (Option Str) := do
  let userDataPolicy ← readUserDataAccessPolicy w
  let key ← subscript clientDict sessionKeyIs
  if !key.isIn userDataPolicy.sessionKeyIs then
    return none
  let q ← (← subscript clientDict query).lower rt
  return some (rewriteTables rt userDataPolicy.expiryDate q)

def runIndiscrUseCase : Except Raised Bool := do
  let userDataPolicy ← readUserDataAccessPolicy w
  let key ← subscript clientDict sessionKeyIs
  return key.isIn userDataPolicy.sessionKeyIs

/-- Line ends in a file that is read as text. -/
def universalNewlines : Str → Str
  | [] => []
  | '\r' :: '\n' :: s => '\n' :: universalNewlines s
  | '\r' :: s => '\n' :: universalNewlines s
  | c :: s => c :: universalNewlines s

def runObtainUserSharedData : Handler (Option Str) := do
  let userDataPolicy ← readUserDataAccessPolicy w
  let key ← subscript clientDict sessionKeyIs
  if !key.is userDataPolicy.userIdentity then
    return none
  match ← get with
  | none => throw .osError
  | some log => return some (rstrip (universalNewlines log))

/-- Whether one of the values of the predicate is the node's. -/
def offers (nodeDict : Dict Str Str) (name : Str) : Except Raised Bool :=
  match nodeDict.get? name with
  | none => .error (.keyError name)
  | some v => (subscript clientDict name).map (PolicyVal.has v)

/-- The checks of `run_risk_agno_use_case` on the nodes, in their order. -/
def nodeChecks : List (Dict Str Str × Str) :=
  [(hostDict, hostLocIs), (storageDict, storageLocIs), (hostDict, hostFwVersionIs),
    (storageDict, storageFwVersionIs)]

def offersAll : List (Dict Str Str × Str) → Except Raised Bool
  | [] => .ok true
  | (nodeDict, name) :: checks => do
    if !(← offers clientDict nodeDict name) then
      return false
    offersAll checks

/-- Write to the log; the mode `"w"` clears it, the mode `"a"` does not. -/
def openToWrite : Handler Unit := set (some [] : Log)

def openToAppend : Handler Unit := modify fun log : Log => some (log.getD [])

def write (s : Str) : Handler Unit := modify fun log : Log => some (log.getD [] ++ s)

/-- The end of `run_risk_agno_use_case` and of `run_hiding_breaches`. -/
def writeAccess : Handler Unit := do
  openToWrite
  let key ← subscript clientDict sessionKeyIs
  let q ← subscript clientDict query
  write (key.format rt ++ '|' :: q.format rt ++ '|' :: w.now)
  write ['\n']

def runRiskAgnoUseCase : Handler Bool := do
  let userDataPolicy ← readUserDataAccessPolicy w
  let key ← subscript clientDict sessionKeyIs
  if !key.isIn userDataPolicy.sessionKeyIs then
    return false
  if !(← offersAll clientDict nodeChecks) then
    return false
  writeAccess rt w clientDict
  return true

def runHidingBreaches : Handler Bool := do
  let userDataPolicy ← readUserDataAccessPolicy w
  let key ← subscript clientDict sessionKeyIs
  if !key.isIn userDataPolicy.sessionKeyIs then
    return false
  writeAccess rt w clientDict
  return true

def logQueryExecution (hostQuery storageQuery userKey : Str) : Handler Unit := do
  openToAppend
  write (w.now ++ ',' :: userKey ++ ',' :: hostQuery ++ ',' :: storageQuery)
  write ['\n']

end UseCases

section Server

/-- The use cases `"1"` to `"5"`, and any other argument. -/
inductive UseCase
  | timelyDeletion | indiscriminate | sharedData | riskAgnostic | hidingBreaches | unknown
  deriving DecidableEq

variable (rt : Runtime) (w : World) (useCase : UseCase)

def success : Str := "Success".toList

def failure : Str := "Failure".toList

def verdict (granted : Bool) : Str := if granted then success else failure

/-- The value to be sent for a compiled policy; `none` stands for `False` and for `None`. -/
def useCaseResult (userPolicy : Option PolicyDict) : Handler (Option Str) :=
  match useCase with
  | .timelyDeletion => runTimelyDeletionCase rt w userPolicy
  | .indiscriminate => return some (verdict (← runIndiscrUseCase w userPolicy))
  | .sharedData => runObtainUserSharedData w userPolicy
  | .riskAgnostic => return some (verdict (← runRiskAgnoUseCase rt w userPolicy))
  | .hidingBreaches => return some (verdict (← runHidingBreaches rt w userPolicy))
  | .unknown => return none

/-- The reply to a policy text. -/
def answer (userPolicy : Str) : Handler Str := do
  let userPolicy ← compilePolicy userPolicy
  match ← useCaseResult rt w useCase userPolicy with
  | none => throw .attributeError
  | some retVal => return retVal

def encode (s : Str) : List UInt8 := s.flatMap String.utf8EncodeChar

def decode (data : List UInt8) : Except Raised Str :=
  match data.toByteArray.utf8Decode? with
  | none => .error .unicodeDecodeError
  | some userPolicy => .ok userPolicy.toList

/-- What the server does with the bytes of its one `recv`. -/
def runServer (data : List UInt8) : Handler (List UInt8) := do
  let userPolicy ← decode data
  let retVal ← answer rt w useCase userPolicy
  return encode retVal

@[simp] lemma decode_encode (s : Str) : decode (encode s) = .ok s := by
  have h : (encode s).toByteArray.utf8Decode? = some s.toArray := List.utf8Decode?_utf8Encode
  rw [decode, h]

lemma encode_of_decode {data : List UInt8} {s : Str} (h : decode data = .ok s) :
    encode s = data := by
  rw [decode] at h
  cases hdec : data.toByteArray.utf8Decode? with
  | none =>
    rw [hdec] at h
    cases h
  | some chars =>
    rw [hdec] at h
    cases h
    have hget := @ByteArray.utf8Encode_get_utf8Decode? data.toByteArray (by simp [hdec])
    simp only [hdec, Option.get_some] at hget
    have hlist := congrArg (fun b : ByteArray => b.data.toList) hget
    simpa [List.utf8Encode, encode] using hlist

end Server

section Exec

variable {α β : Type}

@[simp] lemma pure_eq_ok (a : α) : (pure a : Except Raised α) = .ok a := rfl

@[simp] lemma ok_bind (a : α) (f : α → Except Raised β) : (Except.ok a >>= f) = f a := rfl

@[simp] lemma error_bind (e : Raised) (f : α → Except Raised β) :
    (Except.error e >>= f) = .error e := rfl

@[simp] lemma map_ok (f : α → β) (a : α) : (Except.ok a : Except Raised α).map f = .ok (f a) := rfl

@[simp] lemma map_error (f : α → β) (e : Raised) : (Except.error e).map f = .error e := rfl

@[simp] lemma exec_pure (a : α) (log : Log) : (pure a : Handler α).exec log = (.ok a, log) := rfl

@[simp] lemma exec_lift (x : Except Raised α) (log : Log) :
    (liftM x : Handler α).exec log = (x, log) := rfl

@[simp] lemma exec_throw (e : Raised) (log : Log) :
    (throw e : Handler α).exec log = (.error e, log) := rfl

@[simp] lemma exec_get (log : Log) : (get : Handler Log).exec log = (.ok log, log) := rfl

@[simp] lemma exec_openToWrite (log : Log) : openToWrite.exec log = (.ok (), some []) := rfl

@[simp] lemma exec_openToAppend (log : Log) :
    openToAppend.exec log = (.ok (), some (log.getD [])) := rfl

@[simp] lemma exec_write (s : Str) (log : Log) :
    (write s).exec log = (.ok (), some (log.getD [] ++ s)) := rfl

@[simp] lemma exec_bind (x : Handler α) (f : α → Handler β) (log : Log) :
    (x >>= f).exec log =
      match x.exec log with
      | (.ok a, log') => (f a).exec log'
      | (.error e, log') => (.error e, log') := by
  have h : (x >>= f).exec log = StateT.run (ExceptT.bindCont f (x.exec log).1) (x.exec log).2 := rfl
  rw [h]
  obtain ⟨r, log'⟩ := x.exec log
  cases r <;> rfl

@[simp] lemma exec_map (f : α → β) (x : Handler α) (log : Log) :
    (f <$> x).exec log = ((x.exec log).1.map f, (x.exec log).2) := by
  rw [map_eq_pure_bind, exec_bind]
  obtain ⟨r, log'⟩ := x.exec log
  cases r <;> rfl

end Exec

section Compiled

/-- The session key and the query of a compiled policy. -/
structure Compiled (d : PolicyDict) (k q : Str) : Prop where
  key : d.get? sessionKeyIs = some (.str k)
  query : d.get? query = some (.str q)

lemma Collects.compiled {kvs : List (Str × Str)} {d : PolicyDict} (h : Collects kvs d)
    (hkey : Dict.values sessionKeyIs kvs ≠ []) (hquery : Dict.values Policy.query kvs ≠ []) :
    ∃ k q, Compiled d k q := by
  obtain ⟨k, ks, hks⟩ := List.exists_cons_of_ne_nil hkey
  obtain ⟨q, qs, hqs⟩ := List.exists_cons_of_ne_nil hquery
  refine ⟨k, q, ?_, ?_⟩
  · rw [h, hks]
    rfl
  · rw [h, hqs]
    rfl

lemma exists_compiled {s : Str} {d : PolicyDict} (h : compilePolicy s = .ok (some d)) :
    ∃ k q, Compiled d k q := by
  obtain ⟨kvs, -, hkey, hquery, hcol⟩ := compilePolicy_eq_some h
  exact hcol.compiled hkey hquery

variable {d : PolicyDict} {k q : Str}

lemma Compiled.subscript_key (h : Compiled d k q) :
    subscript (some d) sessionKeyIs = .ok (.str k) := by
  rw [subscript, h.key]

lemma Compiled.subscript_query (h : Compiled d k q) :
    subscript (some d) Policy.query = .ok (.str q) := by
  rw [subscript, h.query]

end Compiled

section Results

variable (rt : Runtime) {w : World} {p : DataAccessPolicy} {d : PolicyDict} {k q : Str}

/-- The line that is written for a request. -/
def accessEntry (k q now : Str) : Str := k ++ '|' :: q ++ '|' :: now ++ ['\n']

lemma readUserDataAccessPolicy_eq (hw : w.accessPolicy = some p) :
    readUserDataAccessPolicy w = .ok p := by
  rw [readUserDataAccessPolicy, hw]

lemma exec_writeAccess (hd : Compiled d k q) (log : Log) :
    (writeAccess rt w (some d)).exec log = (.ok (), some (accessEntry k q w.now)) := by
  simp [writeAccess, hd.subscript_key, hd.subscript_query, PolicyVal.format, accessEntry]

lemma runTimelyDeletionCase_eq (hw : w.accessPolicy = some p) (hd : Compiled d k q) :
    runTimelyDeletionCase rt w (some d) =
      .ok (if k ∈ p.sessionKeyIs then some (rewriteTables rt p.expiryDate (rt.caseMap.lower q))
        else none) := by
  by_cases h : k ∈ p.sessionKeyIs <;>
    simp [runTimelyDeletionCase, readUserDataAccessPolicy_eq hw, hd.subscript_key,
      hd.subscript_query, PolicyVal.isIn, PolicyVal.lower, h]

lemma runIndiscrUseCase_eq (hw : w.accessPolicy = some p) (hd : Compiled d k q) :
    runIndiscrUseCase w (some d) = .ok (p.sessionKeyIs.contains k) := by
  simp [runIndiscrUseCase, readUserDataAccessPolicy_eq hw, hd.subscript_key, PolicyVal.isIn]

lemma exec_runObtainUserSharedData (hw : w.accessPolicy = some p) (hd : Compiled d k q)
    (text : Str) : (runObtainUserSharedData w (some d)).exec (some text) =
      (.ok (if k = p.userIdentity then some (rstrip (universalNewlines text)) else none),
        some text) := by
  by_cases h : k = p.userIdentity <;>
    simp [runObtainUserSharedData, readUserDataAccessPolicy_eq hw, hd.subscript_key,
      PolicyVal.is, h]

lemma exec_runRiskAgnoUseCase (hw : w.accessPolicy = some p) (hd : Compiled d k q) (log : Log) :
    (runRiskAgnoUseCase rt w (some d)).exec log =
      if k ∈ p.sessionKeyIs then
        match offersAll (some d) nodeChecks with
        | .error e => (.error e, log)
        | .ok false => (.ok false, log)
        | .ok true => (.ok true, some (accessEntry k q w.now))
      else (.ok false, log) := by
  by_cases h : k ∈ p.sessionKeyIs
  · rcases hoffers : offersAll (some d) nodeChecks with e | (- | -) <;>
      simp [runRiskAgnoUseCase, readUserDataAccessPolicy_eq hw, hd.subscript_key, PolicyVal.isIn,
        h, hoffers, exec_writeAccess rt hd]
  · simp [runRiskAgnoUseCase, readUserDataAccessPolicy_eq hw, hd.subscript_key, PolicyVal.isIn, h]

lemma exec_runHidingBreaches (hw : w.accessPolicy = some p) (hd : Compiled d k q) (log : Log) :
    (runHidingBreaches rt w (some d)).exec log =
      if k ∈ p.sessionKeyIs then (.ok true, some (accessEntry k q w.now))
      else (.ok false, log) := by
  by_cases h : k ∈ p.sessionKeyIs <;>
    simp [runHidingBreaches, readUserDataAccessPolicy_eq hw, hd.subscript_key, PolicyVal.isIn, h,
      exec_writeAccess rt hd]

/-- A policy that did not compile raises, unless the data access policy cannot be read. -/
lemma exec_useCaseResult_none (hw : w.accessPolicy = some p) {useCase : UseCase}
    (huse : useCase ≠ .unknown) (log : Log) :
    (useCaseResult rt w useCase none).exec log = (.error .typeError, log) := by
  cases useCase <;>
    simp [useCaseResult, runTimelyDeletionCase, runIndiscrUseCase, runObtainUserSharedData,
      runRiskAgnoUseCase, runHidingBreaches, readUserDataAccessPolicy_eq hw, subscript] at huse ⊢

lemma exec_useCaseResult_unreadable (hw : w.accessPolicy = none) {useCase : UseCase}
    (huse : useCase ≠ .unknown) (clientDict : Option PolicyDict) (log : Log) :
    (useCaseResult rt w useCase clientDict).exec log = (.error .osError, log) := by
  have hread : readUserDataAccessPolicy w = .error .osError := by rw [readUserDataAccessPolicy, hw]
  cases useCase <;>
    simp [useCaseResult, runTimelyDeletionCase, runIndiscrUseCase, runObtainUserSharedData,
      runRiskAgnoUseCase, runHidingBreaches, hread] at huse ⊢

/-- What is sent for the result of a use case. -/
def sent : Except Raised (Option Str) → Except Raised Str
  | .ok none => .error .attributeError
  | .ok (some retVal) => .ok retVal
  | .error e => .error e

lemma exec_answer {useCase : UseCase} {s : Str} {c : Option PolicyDict}
    (hc : compilePolicy s = .ok c) (log : Log) : (answer rt w useCase s).exec log =
      (sent ((useCaseResult rt w useCase c).exec log).1,
        ((useCaseResult rt w useCase c).exec log).2) := by
  rw [answer, hc]
  simp only [exec_bind, exec_lift]
  rcases (useCaseResult rt w useCase c).exec log with ⟨e | (- | r), log'⟩ <;> rfl

lemma exec_answer_error {useCase : UseCase} {s : Str} {e : Raised} (he : compilePolicy s = .error e)
    (log : Log) : (answer rt w useCase s).exec log = (.error e, log) := by
  simp [answer, he]

lemma exec_runServer {useCase : UseCase} {data : List UInt8} {s : Str} (hs : decode data = .ok s)
    (log : Log) : (runServer rt w useCase data).exec log =
      (((answer rt w useCase s).exec log).1.map encode, ((answer rt w useCase s).exec log).2) := by
  rw [runServer, hs]
  simp

lemma exec_runServer_error {useCase : UseCase} {data : List UInt8} {e : Raised}
    (he : decode data = .error e) (log : Log) :
    (runServer rt w useCase data).exec log = (.error e, log) := by
  simp [runServer, he]

lemma encode_injective {s t : Str} (h : encode s = encode t) : s = t := by
  have hs := decode_encode s
  rw [h, decode_encode] at hs
  exact (Except.ok.inj hs).symm

lemma map_encode_eq_ok {r : Except Raised Str} {s : Str} :
    r.map encode = .ok (encode s) ↔ r = .ok s := by
  cases r with
  | error e => simp
  | ok t => simpa using ⟨encode_injective, congrArg encode⟩

lemma sent_eq_ok {r : Except Raised (Option Str)} {s : Str} :
    sent r = .ok s ↔ r = .ok (some s) := by
  rcases r with e | (- | t) <;> simp [sent]

end Results

section Checks

/-- The policy names the node's value. -/
def Meets (d : PolicyDict) (check : Dict Str Str × Str) : Prop :=
  ∃ v vs, check.1.get? check.2 = some v ∧ d.get? check.2 = some (.list vs) ∧ v ∈ vs

/-- Going through the checks, no predicate is missing before one is found that is not met. -/
def Settled (d : PolicyDict) : List (Dict Str Str × Str) → Prop
  | [] => True
  | check :: checks => (d.get? check.2).isSome ∧ (Meets d check → Settled d checks)

lemma settled_of_present {d : PolicyDict} {checks : List (Dict Str Str × Str)}
    (h : ∀ check ∈ checks, (d.get? check.2).isSome) : Settled d checks := by
  induction checks with
  | nil => trivial
  | cons check checks ih =>
    obtain ⟨hcheck, hrest⟩ := List.forall_mem_cons.mp h
    exact ⟨hcheck, fun _ => ih hrest⟩

lemma settled_of_meets {d : PolicyDict} {checks : List (Dict Str Str × Str)}
    (h : ∀ check ∈ checks, Meets d check) : Settled d checks := by
  refine settled_of_present fun check hcheck => ?_
  obtain ⟨v, vs, -, hget, -⟩ := h check hcheck
  rw [hget]
  rfl

/-- The predicate has a value on the node, and is not the key or the query. -/
def Listed (check : Dict Str Str × Str) : Prop :=
  (check.1.get? check.2).isSome ∧ check.2 ≠ sessionKeyIs ∧ check.2 ≠ query

lemma listed_nodeChecks : ∀ check ∈ nodeChecks, Listed check := by
  simp only [nodeChecks, List.forall_mem_cons, List.not_mem_nil, false_implies, implies_true,
    and_true]
  exact ⟨⟨rfl, by decide, by decide⟩, ⟨rfl, by decide, by decide⟩, ⟨rfl, by decide, by decide⟩,
    ⟨rfl, by decide, by decide⟩⟩

variable {kvs : List (Str × Str)} {d : PolicyDict}

lemma Collects.get?_list (h : Collects kvs d) {name : Str} (hkey : name ≠ sessionKeyIs)
    (hquery : name ≠ query) : d.get? name = (Dict.listed (Dict.values name kvs)).map .list := by
  rw [h, entryOf, if_neg (not_or.mpr ⟨hkey, hquery⟩)]

/-- One check on a compiled policy. -/
lemma Collects.offers_cases (h : Collects kvs d) {check : Dict Str Str × Str}
    (hcheck : Listed check) :
    (d.get? check.2 = none ∧ offers (some d) check.1 check.2 = .error (.keyError check.2)) ∨
    ∃ b, (d.get? check.2).isSome ∧ offers (some d) check.1 check.2 = .ok b ∧
      (b = true ↔ Meets d check) := by
  obtain ⟨hv, hkey, hquery⟩ := hcheck
  obtain ⟨v, hv⟩ := Option.isSome_iff_exists.mp hv
  have hget := h.get?_list hkey hquery
  cases hlisted : Dict.listed (Dict.values check.2 kvs) with
  | none =>
    rw [hlisted] at hget
    exact .inl ⟨hget, by simp [offers, hv, subscript, hget]⟩
  | some vs =>
    rw [hlisted] at hget
    refine .inr
      ⟨vs.contains v, by simp [hget], by simp [offers, hv, subscript, hget, PolicyVal.has], ?_⟩
    simp [Meets, hv, hget]

/-- The checks on a compiled policy: they raise exactly if a missing predicate is reached. -/
lemma Collects.offersAll_cases (h : Collects kvs d) {checks : List (Dict Str Str × Str)}
    (hchecks : ∀ check ∈ checks, Listed check) :
    (¬ Settled d checks ∧ ∃ key, offersAll (some d) checks = .error (.keyError key)) ∨
    (Settled d checks ∧ ∃ b, offersAll (some d) checks = .ok b ∧
      (b = true ↔ ∀ check ∈ checks, Meets d check)) := by
  induction checks with
  | nil => exact .inr ⟨trivial, true, rfl, by simp⟩
  | cons check checks ih =>
    obtain ⟨hcheck, hrest⟩ := List.forall_mem_cons.mp hchecks
    rcases h.offers_cases hcheck with ⟨hnone, hoffers⟩ | ⟨b, hsome, hoffers, hb⟩
    · refine .inl ⟨fun hs => ?_, check.2, by simp [offersAll, hoffers]⟩
      have hs' := hs.1
      rw [hnone] at hs'
      cases hs'
    · cases b with
      | false =>
        have hmeets : ¬ Meets d check := fun hm => Bool.false_ne_true (hb.mpr hm)
        refine .inr ⟨⟨hsome, fun hm => absurd hm hmeets⟩, false, by simp [offersAll, hoffers], ?_⟩
        simp [hmeets]
      | true =>
        have hmeets : Meets d check := hb.mp rfl
        have hstep : offersAll (some d) (check :: checks) = offersAll (some d) checks := by
          simp [offersAll, hoffers]
        rw [hstep]
        refine (ih hrest).imp (fun ⟨hs, hraise⟩ => ⟨fun hs' => hs (hs'.2 hmeets), hraise⟩) ?_
        rintro ⟨hs, b, hb', hiff⟩
        exact ⟨⟨hsome, fun _ => hs⟩, b, hb', by simp [hiff, hmeets]⟩

end Checks

end IronSafe.Policy
