import IronSafe.PolicyServer

/-! The policy checker: the shape of a policy, and whether a storage node complies with it. -/
namespace IronSafe.Policy

def fwVersion : Str := "fwVersion".toList

def policyPredicates : List Str :=
  [sessionKeyIs, storageLocIs, fwVersion, "hostQuery".toList, "storageQuery".toList, query]

def fwVerAttributes : List Str := ["host".toList, "storage".toList]

/-- What a loop over a value goes through. -/
def PolicyVal.items : PolicyVal → List Str
  | .str s => s.map fun c => [c]
  | .list vs => vs
  | .table entries => entries.keys

def checkFwAttributes : List Str → Except Raised Unit
  | [] => .ok ()
  | j :: js =>
    if j ∈ fwVerAttributes then checkFwAttributes js
    else .error (.systemExit
      ("We do not support \"".toList ++ j ++ "\" for firmware version attributes".toList))

def checkEntries : List (Str × PolicyVal) → Except Raised Unit
  | [] => .ok ()
  | (i, value) :: entries =>
    if i ∈ policyPredicates then do
      if i = fwVersion then
        checkFwAttributes value.items
      checkEntries entries
    else .error (.systemExit ("We do not support policy predicate: ".toList ++ i))

def checkPolicy (userPolicyDict : PolicyDict) : Except Raised Unit :=
  checkEntries userPolicyDict.entries

/-- The attributes of a storage node. -/
structure StorageAttr where
  storageLocIs : Str
  storageFwVersion : Str

/-- The rows of the table of firmware versions and the lines of the identity file, if these can
be read. -/
structure CheckerFiles where
  storageFwVersDb : Option (List (List Str))
  identityFile : Option (List Str)

variable (rt : Runtime) (files : CheckerFiles)

def checkNodeLocation (userLocs : List Str) (nodeLoc : Str) : Bool :=
  let userLocs := userLocs.map rt.caseMap.lower
  userLocs.contains "all".toList || userLocs.contains nodeLoc

def openVersDb : Except Raised (List (List Str)) :=
  match files.storageFwVersDb with
  | none => .error .osError
  | some rows => .ok rows

def findVersion (fwHash : Str) : List (List Str) → Except Raised (Option Str)
  | [] => .ok none
  | (vNum :: hashVal :: _) :: rows =>
    if fwHash = hashVal then .ok (some vNum) else findVersion fwHash rows
  | _ :: _ => .error .indexError

def mapStorageFwToVersion (fwHash : Str) : Except Raised (Option Str) := do
  findVersion fwHash (← openVersDb files)

/-- Versions are compared as strings; `none` stands for a hash that is not in the table. -/
def compareVersions (usrVersion nodeVersion : Option Str) : Except Raised Bool :=
  match usrVersion, nodeVersion with
  | none, _ => .ok false
  | some [], _ => .ok false
  | some _, none => .error .typeError
  | some usrVersion, some nodeVersion => .ok (usrVersion ≤ nodeVersion)

def greatestVersion (greatest : ℤ) : List (List Str) → Except Raised ℤ
  | [] => .ok greatest
  | [] :: _ => .error .indexError
  | (vNum :: _) :: rows =>
    match rt.int vNum with
    | none => .error .valueError
    | some n => greatestVersion (if n > greatest then n else greatest) rows

def getLatestStorageFwVersion : Except Raised ℤ := do
  greatestVersion rt 0 (← openVersDb files)

/-- A version number that was read as a string is not equal to any number. -/
def versionIs (_ : Option Str) (_ : ℤ) : Bool := false

def checkNodeFw (userFws : List Str) (nodeFw : Str) : Except Raised Bool := do
  let nodeFw ← mapStorageFwToVersion files nodeFw
  let latestVers ← getLatestStorageFwVersion rt files
  if userFws.contains "latest".toList then
    return versionIs nodeFw latestVers
  let userFws ← userFws.mapM (mapStorageFwToVersion files)
  let userFws ← userFws.mapM fun i => compareVersions i nodeFw
  return userFws.contains true

/-- The lines up to the first blank one. -/
def findIdentity (usrIdentity : PolicyVal) : List Str → Bool
  | [] => false
  | line :: lines =>
    let line := rstrip line
    if line = [] then false
    else if usrIdentity.is line then true
    else findIdentity usrIdentity lines

def checkUsrIdentity (usrIdentity : PolicyVal) : Except Raised Bool :=
  match files.identityFile with
  | none => .error .osError
  | some lines => .ok (findIdentity usrIdentity lines)

/-- Subscript a nested table. -/
def PolicyVal.subscript : PolicyVal → Str → Except Raised (List Str)
  | .table entries, key =>
    match entries.get? key with
    | none => .error (.keyError key)
    | some vs => .ok vs
  | _, _ => .error .typeError

def checkNodePolicyCompliance (userPolicyDict : PolicyDict) (storageNodeAttr : StorageAttr) :
    Except Raised Bool := do
  let userLocs ← subscript (some userPolicyDict) storageLocIs
  if !checkNodeLocation rt userLocs.items storageNodeAttr.storageLocIs then
    return false
  let userFws ← (← subscript (some userPolicyDict) fwVersion).subscript "storage".toList
  if !(← checkNodeFw rt files userFws storageNodeAttr.storageFwVersion) then
    return false
  checkUsrIdentity files (← subscript (some userPolicyDict) sessionKeyIs)

/-- The predicates of the policies that the use cases consume. -/
def documentedPredicates : List Str :=
  [sessionKeyIs, query, storageLocIs, storageFwVersionIs, hostLocIs, hostFwVersionIs]

/-- The checker accepts the dictionary and evaluates it on every node, and it finds no node
compliant whose firmware the policy does not allow. -/
def Agrees (d : PolicyDict) : Prop :=
  checkPolicy d = .ok () ∧
  ∀ attr, ∃ compliant, checkNodePolicyCompliance rt files d attr = .ok compliant ∧
    (compliant = true → ∀ vs, d.get? storageFwVersionIs = some (.list vs) →
      checkNodeFw rt files vs attr.storageFwVersion = .ok true)

section Agreement

variable {rt files} {d : PolicyDict}

lemma checkNodePolicyCompliance_noLocation (h : d.get? storageLocIs = none) (attr : StorageAttr) :
    checkNodePolicyCompliance rt files d attr = .error (.keyError storageLocIs) := by
  simp [checkNodePolicyCompliance, subscript, h]

/-- The policy names some locations, neither all of them nor that of the node. -/
def Elsewhere (rt : Runtime) (d : PolicyDict) (attr : StorageAttr) : Prop :=
  ∃ vs, d.get? storageLocIs = some (.list vs) ∧
    "all".toList ∉ vs.map rt.caseMap.lower ∧ attr.storageLocIs ∉ vs.map rt.caseMap.lower

lemma checkNodeLocation_iff (vs : List Str) (loc : Str) : checkNodeLocation rt vs loc = true ↔
    "all".toList ∈ vs.map rt.caseMap.lower ∨ loc ∈ vs.map rt.caseMap.lower := by
  simp only [checkNodeLocation, Bool.or_eq_true, List.contains_iff_mem]

/-- Without `fwVersion` the check of a node gets no further than the location. -/
lemma checkNodePolicyCompliance_noFirmware {vs : List Str}
    (hloc : d.get? storageLocIs = some (.list vs)) (hfw : d.get? fwVersion = none)
    (attr : StorageAttr) : checkNodePolicyCompliance rt files d attr =
      if checkNodeLocation rt vs attr.storageLocIs then .error (.keyError fwVersion)
      else .ok false := by
  cases hat : checkNodeLocation rt vs attr.storageLocIs <;>
    simp [checkNodePolicyCompliance, subscript, hloc, hfw, PolicyVal.items, hat]

/-- The check of a node returns only for a node that is elsewhere. -/
lemma checkNodePolicyCompliance_eq_ok_iff {kvs : List (Str × Str)} (hcol : Collects kvs d)
    (hfw : d.get? fwVersion = none) (attr : StorageAttr) (compliant : Bool) :
    checkNodePolicyCompliance rt files d attr = .ok compliant ↔ compliant = false ∧
      Elsewhere rt d attr := by
  have hget : d.get? storageLocIs = (Dict.listed (Dict.values storageLocIs kvs)).map .list :=
    hcol.get?_list (by decide) (by decide)
  cases hlisted : Dict.listed (Dict.values storageLocIs kvs) with
  | none =>
    rw [hlisted] at hget
    rw [checkNodePolicyCompliance_noLocation hget]
    refine iff_of_false (by simp) ?_
    rintro ⟨-, vs, hvs, -⟩
    rw [hget] at hvs
    cases hvs
  | some vs =>
    rw [hlisted] at hget
    have helse : Elsewhere rt d attr ↔ ¬ checkNodeLocation rt vs attr.storageLocIs = true := by
      rw [checkNodeLocation_iff, not_or]
      simp [Elsewhere, hget]
    rw [checkNodePolicyCompliance_noFirmware hget hfw, helse]
    split_ifs with hat
    · simp [hat]
    · simp [hat, eq_comm]

end Agreement

/-- The checker agrees with no compiled policy of the documented predicates: it asks for a predicate
that none of them has. It evaluates the policy on a node without raising an exception only if the
policy names locations and the node is elsewhere, and refuses the node then. -/
theorem never_agrees (s : Str) (d : PolicyDict) (hc : compilePolicy s = .ok (some d))
    (hover : ∀ name ∈ d.keys, name ∈ documentedPredicates) :
    ¬ Agrees rt files d ∧ ∀ attr compliant,
      checkNodePolicyCompliance rt files d attr = .ok compliant ↔ compliant = false ∧
        Elsewhere rt d attr := by
  obtain ⟨kvs, -, -, -, hcol⟩ := compilePolicy_eq_some hc
  have hfw : d.get? fwVersion = none := by
    by_contra hn
    have hmem := hover fwVersion ((Dict.mem_keys_iff _ _).mpr (Option.isSome_iff_ne_none.mpr hn))
    revert hmem
    decide
  refine ⟨?_, checkNodePolicyCompliance_eq_ok_iff hcol hfw⟩
  rintro ⟨-, hcompliance⟩
  have hraises (attr : StorageAttr) (h : ¬ Elsewhere rt d attr) : False := by
    obtain ⟨compliant, hok, -⟩ := hcompliance attr
    exact h ((checkNodePolicyCompliance_eq_ok_iff hcol hfw attr compliant).mp hok).2
  have hget : d.get? storageLocIs = (Dict.listed (Dict.values storageLocIs kvs)).map .list :=
    hcol.get?_list (by decide) (by decide)
  cases hvs : Dict.values storageLocIs kvs with
  | nil =>
    rw [hvs] at hget
    refine hraises ⟨[], []⟩ ?_
    rintro ⟨vs, hloc, -⟩
    rw [hget] at hloc
    cases hloc
  | cons v vs =>
    -- a node at the first location that the policy names
    rw [hvs] at hget
    refine hraises ⟨rt.caseMap.lower v, []⟩ ?_
    rintro ⟨vs', hloc, -, hnot⟩
    rw [hget] at hloc
    cases hloc
    exact hnot (by simp)

def locatedPolicy : Str := "sessionKeyIs(k)&storageLocIs(uk)&query(q)".toList

lemma locatedPolicy_compiled : ∃ d, compilePolicy locatedPolicy = .ok (some d) ∧
    (∀ name ∈ d.keys, name ∈ documentedPredicates) ∧
      d.get? storageLocIs = some (.list ["uk".toList]) :=
  ⟨_, rfl, by decide, rfl⟩

lemma elsewhere_us {d : PolicyDict} (h : d.get? storageLocIs = some (.list ["uk".toList])) :
    Elsewhere asciiRuntime d ⟨"us".toList, []⟩ :=
  ⟨_, h, by decide +kernel, by decide +kernel⟩

/-- A policy that names one location is evaluated on a node at another one. -/
theorem never_agrees_located : ∃ d, compilePolicy locatedPolicy = .ok (some d) ∧
    (∀ name ∈ d.keys, name ∈ documentedPredicates) ∧ ¬ Agrees asciiRuntime ⟨some [], some []⟩ d ∧
    checkNodePolicyCompliance asciiRuntime ⟨some [], some []⟩ d ⟨"us".toList, []⟩ = .ok false := by
  obtain ⟨d, hc, hover, hloc⟩ := locatedPolicy_compiled
  obtain ⟨hnot, hiff⟩ := never_agrees asciiRuntime ⟨some [], some []⟩ locatedPolicy d hc hover
  exact ⟨d, hc, hover, hnot, (hiff _ _).mpr ⟨rfl, elsewhere_us hloc⟩⟩

/-- The checker refuses the predicate that the use cases ask for, and raises on a node at a
location that the policy names. -/
theorem sample_disagrees :
    ∃ d, compilePolicy "sessionKeyIs(k)&storageLocIs(uk)&storageFwVersionIs(latest)&query(q)".toList =
        .ok (some d) ∧
      (∀ name ∈ d.keys, name ∈ documentedPredicates) ∧
      checkPolicy d =
        .error (.systemExit "We do not support policy predicate: storageFwVersionIs".toList) ∧
      checkNodePolicyCompliance asciiRuntime ⟨some [], some []⟩ d ⟨"uk".toList, []⟩ =
        .error (.keyError fwVersion) ∧ ¬ Agrees asciiRuntime ⟨some [], some []⟩ d := by
  refine ⟨_, rfl, by decide, rfl, rfl, fun h => ?_⟩
  cases h.1

end IronSafe.Policy
