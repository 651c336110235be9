import IronSafe.PolicyChecker

/-! The two lookups of the policy checker in its files: the firmware of a node in the table of
versions, and a user in the identity file. -/
namespace IronSafe.Policy

/-- A row of the table of versions: a decimal number and a hash. -/
structure VersionRow where
  version : Str
  hash : Str
  nonempty : version ≠ []
  digits : ∀ c ∈ version, c.isDigit = true

def VersionRow.number (row : VersionRow) : ℕ := Nat.ofDigitChars 10 row.version 0

def VersionRow.fields (row : VersionRow) : List Str := [row.version, row.hash]

/-- A table of versions in which every hash has one row. -/
structure VersDb where
  rows : List VersionRow
  distinct : (rows.map VersionRow.hash).Nodup

/-- The row of a version whose number is written without leading zeros. -/
def VersionRow.decimal (n : ℕ) (hash : Str) : VersionRow :=
  ⟨Nat.toDigits 10 n, hash, Nat.toDigits_ne_nil,
    fun _ => Nat.isDigit_of_mem_toDigits (Nat.succ_pos 9) (Nat.le_refl 10)⟩

def VersDb.files (db : VersDb) : CheckerFiles := ⟨some (db.rows.map VersionRow.fields), none⟩

def VersDb.row? (db : VersDb) (fwHash : Str) : Option VersionRow :=
  db.rows.find? fun row => row.hash = fwHash

/-- The library reads a decimal number as its value. -/
def ReadsDecimals (rt : Runtime) : Prop :=
  ∀ row : VersionRow, rt.int row.version = some (row.number : ℤ)

/-- Some row whose hash the user lists satisfies the condition. -/
def VersDb.Lists (db : VersDb) (userFws : List Str) (cond : VersionRow → Prop) : Prop :=
  ∃ row ∈ db.rows, row.hash ∈ userFws ∧ cond row

/-- Whether the user's list allows the version of the node comes out the same if versions are
compared as texts and if they are compared as numbers. -/
def VersDb.SameOrder (db : VersDb) (userFws : List Str) (node : VersionRow) : Prop :=
  (db.Lists userFws fun row => row.version ≤ node.version) ↔
    db.Lists userFws fun row => row.number ≤ node.number

/-- What the check is for: the node runs a known version, the newest one if the user asks for
it, and otherwise one that is not older than some version of the user's list. -/
def VersDb.Allows (db : VersDb) (userFws : List Str) (nodeFw : Str) : Prop :=
  ∃ node ∈ db.rows, node.hash = nodeFw ∧
    if "latest".toList ∈ userFws then ∀ row ∈ db.rows, row.number ≤ node.number
    else db.Lists userFws fun row => row.number ≤ node.number

/-- The check returns, and its answer is the one that it is for. -/
def VersDb.Checked (db : VersDb) (rt : Runtime) (userFws : List Str) (nodeFw : Str) : Prop :=
  ∃ allowed, checkNodeFw rt db.files userFws nodeFw = .ok allowed ∧
    (allowed = true ↔ db.Allows userFws nodeFw)

instance (db : VersDb) (userFws : List Str) (cond : VersionRow → Prop) [DecidablePred cond] :
    Decidable (db.Lists userFws cond) :=
  inferInstanceAs (Decidable (∃ row ∈ db.rows, row.hash ∈ userFws ∧ cond row))

@[simp] lemma number_decimal (n : ℕ) (hash : Str) : (VersionRow.decimal n hash).number = n :=
  Nat.ofDigitChars_ten_toDigits

section Firmware

variable {rt : Runtime} {db : VersDb} {userFws : List Str} {nodeFw : Str}

lemma findVersion_rows (fwHash : Str) (rows : List VersionRow) :
    findVersion fwHash (rows.map VersionRow.fields) =
      .ok ((rows.find? fun row => row.hash = fwHash).map VersionRow.version) := by
  induction rows with
  | nil => rfl
  | cons row rows ih =>
    simp only [List.map_cons, VersionRow.fields, findVersion, List.find?_cons]
    by_cases h : fwHash = row.hash
    · simp [h]
    · simp [h, Ne.symm h, ← ih]

lemma mapStorageFwToVersion_eq (db : VersDb) (fwHash : Str) :
    mapStorageFwToVersion db.files fwHash = .ok ((db.row? fwHash).map VersionRow.version) :=
  findVersion_rows fwHash db.rows

lemma VersDb.row?_eq_some {row : VersionRow} {fwHash : Str} (db : VersDb) :
    db.row? fwHash = some row ↔ row ∈ db.rows ∧ row.hash = fwHash := by
  constructor
  · intro h
    exact ⟨List.mem_of_find?_eq_some h, by simpa using List.find?_some h⟩
  · rintro ⟨hmem, rfl⟩
    cases hfound : db.row? row.hash with
    | none => exact absurd (List.find?_eq_none.mp hfound row hmem) (by simp)
    | some other =>
      have hhash : other.hash = row.hash := by simpa using List.find?_some hfound
      rw [List.inj_on_of_nodup_map db.distinct (List.mem_of_find?_eq_some hfound) hmem hhash]

lemma VersDb.row?_eq_none {fwHash : Str} (db : VersDb) :
    db.row? fwHash = none ↔ ∀ row ∈ db.rows, row.hash ≠ fwHash := by
  simp [VersDb.row?]

lemma VersDb.unlisted_iff (db : VersDb) :
    (∀ fw ∈ userFws, db.row? fw = none) ↔ ∀ row ∈ db.rows, row.hash ∉ userFws := by
  simp only [VersDb.row?_eq_none]
  constructor
  · intro h row hmem hfw
    exact h row.hash hfw row hmem rfl
  · rintro h fw hfw row hmem rfl
    exact h row hmem hfw

lemma VersDb.not_allows (hnode : db.row? nodeFw = none) : ¬ db.Allows userFws nodeFw := by
  rintro ⟨node, hmem, hhash, -⟩
  exact db.row?_eq_none.mp hnode node hmem hhash

lemma VersDb.allows_iff (hlatest : "latest".toList ∉ userFws) {node : VersionRow}
    (hnode : db.row? nodeFw = some node) :
    db.Allows userFws nodeFw ↔ db.Lists userFws fun row => row.number ≤ node.number := by
  simp only [VersDb.Allows, if_neg hlatest]
  constructor
  · rintro ⟨other, hmem, hhash, h⟩
    rw [db.row?_eq_some.mpr ⟨hmem, hhash⟩] at hnode
    cases hnode
    exact h
  · intro h
    obtain ⟨hmem, hhash⟩ := db.row?_eq_some.mp hnode
    exact ⟨node, hmem, hhash, h⟩

lemma greatestVersion_returns (hrt : ReadsDecimals rt) (rows : List VersionRow) (greatest : ℤ) :
    ∃ n, greatestVersion rt greatest (rows.map VersionRow.fields) = .ok n := by
  induction rows generalizing greatest with
  | nil => exact ⟨greatest, rfl⟩
  | cons row rows ih =>
    simp only [List.map_cons, VersionRow.fields, greatestVersion, hrt row]
    exact ih _

lemma mapM_mapStorageFwToVersion (db : VersDb) (userFws : List Str) :
    userFws.mapM (mapStorageFwToVersion db.files) =
      .ok (userFws.map fun fw => (db.row? fw).map VersionRow.version) := by
  induction userFws with
  | nil => rfl
  | cons fw userFws ih => simp [List.mapM_cons, mapStorageFwToVersion_eq, ih]

/-- The check behind the lookups. A node is never found to run the newest version. -/
lemma checkNodeFw_eq (hrt : ReadsDecimals rt) : checkNodeFw rt db.files userFws nodeFw =
    if "latest".toList ∈ userFws then .ok false
    else ((userFws.map fun fw => (db.row? fw).map VersionRow.version).mapM fun i =>
        compareVersions i ((db.row? nodeFw).map VersionRow.version)).map
      fun answers => answers.contains true := by
  obtain ⟨n, hn⟩ := greatestVersion_returns hrt db.rows 0
  have hlatest : getLatestStorageFwVersion rt db.files = .ok n := hn
  simp only [checkNodeFw, mapStorageFwToVersion_eq, hlatest, mapM_mapStorageFwToVersion,
    List.contains_iff_mem]
  rfl

/-- Whether the version that a listed hash stands for, if there is one, is accepted. -/
def accepts (node : VersionRow) (listed : Option VersionRow) : Bool :=
  match listed with
  | none => false
  | some row => row.version ≤ node.version

lemma compareVersions_some (node : VersionRow) (listed : Option VersionRow) :
    compareVersions (listed.map VersionRow.version) (some node.version) =
      .ok (accepts node listed) := by
  cases listed with
  | none => rfl
  | some row =>
    obtain ⟨version, hash, hne, hd⟩ := row
    cases version with
    | nil => exact absurd rfl hne
    | cons c cs => rfl

lemma compareVersions_none {row : VersionRow} :
    compareVersions (some row.version) none = .error .typeError := by
  obtain ⟨version, hash, hne, hd⟩ := row
  cases version with
  | nil => exact absurd rfl hne
  | cons c cs => rfl

/-- A known node: versions are compared as texts. -/
lemma checkNodeFw_known (hrt : ReadsDecimals rt) (hlatest : "latest".toList ∉ userFws)
    {node : VersionRow} (hnode : db.row? nodeFw = some node) :
    ∃ allowed, checkNodeFw rt db.files userFws nodeFw = .ok allowed ∧
      (allowed = true ↔ db.Lists userFws fun row => row.version ≤ node.version) := by
  have hanswers : ∀ fws : List Str,
      ((fws.map fun fw => (db.row? fw).map VersionRow.version).mapM fun i =>
        compareVersions i (some node.version)) =
        .ok (fws.map fun fw => accepts node (db.row? fw)) := by
    intro fws
    induction fws with
    | nil => rfl
    | cons fw fws ih =>
      rw [List.map_cons, List.mapM_cons, compareVersions_some, ih]
      rfl
  refine ⟨(userFws.map fun fw => accepts node (db.row? fw)).contains true, ?_, ?_⟩
  · rw [checkNodeFw_eq hrt, if_neg hlatest, hnode]
    exact congrArg _ (hanswers userFws)
  · rw [List.contains_iff_mem, List.mem_map]
    constructor
    · rintro ⟨fw, hfw, hacc⟩
      cases hrow : db.row? fw with
      | none => simp [hrow, accepts] at hacc
      | some row =>
        obtain ⟨hmem, rfl⟩ := db.row?_eq_some.mp hrow
        exact ⟨row, hmem, hfw, by simpa [hrow, accepts] using hacc⟩
    · rintro ⟨row, hmem, hfw, hle⟩
      exact ⟨row.hash, hfw, by simpa [db.row?_eq_some.mpr ⟨hmem, rfl⟩, accepts] using hle⟩

/-- An unknown node: the check compares `None` with the first version that the user's list names. -/
lemma checkNodeFw_unknown (hrt : ReadsDecimals rt) (hlatest : "latest".toList ∉ userFws)
    (hnode : db.row? nodeFw = none) : checkNodeFw rt db.files userFws nodeFw =
      if ∀ fw ∈ userFws, db.row? fw = none then .ok false else .error .typeError := by
  have hanswers : ∀ fws : List Str,
      ((fws.map fun fw => (db.row? fw).map VersionRow.version).mapM fun i =>
      compareVersions i none) =
        if ∀ fw ∈ fws, db.row? fw = none then .ok (fws.map fun _ => false)
        else .error .typeError := by
    intro fws
    induction fws with
    | nil => rfl
    | cons fw fws ih =>
      rw [List.map_cons, List.mapM_cons, ih]
      cases hrow : db.row? fw with
      | none =>
        simp only [List.forall_mem_cons, hrow, true_and]
        split_ifs <;> rfl
      | some row =>
        simp only [List.forall_mem_cons, hrow, reduceCtorEq, false_and, if_false, Option.map_some,
          compareVersions_none]
        rfl
  rw [checkNodeFw_eq hrt, if_neg hlatest, hnode]
  simp only [Option.map_none, hanswers]
  split_ifs with h
  · simp [Except.map]
  · rfl

/-- The firmware check is right if and only if the newest version is not asked for of a node that
runs it, no version of the table is asked for of an unknown node, and for a known one the order of
the versions as texts gives the answer of their order as numbers. -/
theorem firmware_checked_iff (rt : Runtime) (hrt : ReadsDecimals rt) (db : VersDb)
    (userFws : List Str) (nodeFw : Str) : db.Checked rt userFws nodeFw ↔
      if "latest".toList ∈ userFws then ¬ db.Allows userFws nodeFw
      else match db.row? nodeFw with
        | none => ∀ row ∈ db.rows, row.hash ∉ userFws
        | some node => db.SameOrder userFws node := by
  by_cases hlatest : "latest".toList ∈ userFws
  · rw [if_pos hlatest, VersDb.Checked, checkNodeFw_eq hrt, if_pos hlatest]
    simp
  · rw [if_neg hlatest]
    cases hnode : db.row? nodeFw with
    | none =>
      rw [VersDb.Checked, checkNodeFw_unknown hrt hlatest hnode, ← db.unlisted_iff]
      split_ifs with h
      · simpa [VersDb.not_allows hnode] using h
      · simpa using h
    | some node =>
      obtain ⟨allowed, hcheck, hiff⟩ := checkNodeFw_known hrt hlatest hnode
      rw [VersDb.Checked, hcheck, VersDb.allows_iff hlatest hnode]
      constructor
      · rintro ⟨b, hb, h⟩
        cases hb
        exact hiff.symm.trans h
      · intro h
        exact ⟨allowed, rfl, hiff.trans h⟩

end Firmware

/-- A library that reads decimal numbers only. -/
def decimalRuntime : Runtime :=
  ⟨Text.asciiCase, id, fun s => if s.all Char.isDigit then some (Nat.ofDigitChars 10 s 0) else none⟩

lemma readsDecimals_decimalRuntime : ReadsDecimals decimalRuntime := by
  intro row
  simpa [decimalRuntime, VersionRow.number] using row.digits

def firstFw : Str := "6b86b273ff34fce19d6b804eff5a3f5747ada4eaa22f1d49c01e52ddb7875b4b".toList

def secondFw : Str := "d4735e3a265e16eee03f59718b9b5d03019c07d8b6c51f90da3a666eec13ab35".toList

lemma firstFw_ne_secondFw : firstFw ≠ secondFw := by decide +kernel

/-- Two versions under the hashes of `storage_version.csv`. -/
def twoVersions (m n : ℕ) : VersDb where
  rows := [.decimal m firstFw, .decimal n secondFw]
  distinct := by simpa [VersionRow.decimal] using firstFw_ne_secondFw

lemma latest_not_listed : "latest".toList ∉ [firstFw] := by decide +kernel

lemma lists_first_iff (m n : ℕ) (cond : VersionRow → Prop) :
    (twoVersions m n).Lists [firstFw] cond ↔ cond (.decimal m firstFw) := by
  simp [VersDb.Lists, twoVersions, VersionRow.decimal, Ne.symm firstFw_ne_secondFw]

lemma row?_second (m n : ℕ) : (twoVersions m n).row? secondFw = some (.decimal n secondFw) :=
  (twoVersions m n).row?_eq_some.mpr ⟨by simp [twoVersions], rfl⟩

/-- In the table of the repository the newest version is refused to a user who asks for the newest
one. Version 10 is refused to a user who asks for version 9, and a node that is not in the table
raises an exception. -/
theorem firmware_misjudged :
    checkNodeFw decimalRuntime (twoVersions 1 2).files ["latest".toList] secondFw = .ok false ∧
      ¬ (twoVersions 1 2).Checked decimalRuntime ["latest".toList] secondFw ∧
      checkNodeFw decimalRuntime (twoVersions 9 10).files [firstFw] secondFw = .ok false ∧
      ¬ (twoVersions 9 10).Checked decimalRuntime [firstFw] secondFw ∧
      checkNodeFw decimalRuntime (twoVersions 1 2).files [firstFw] [] = .error .typeError := by
  have hlatest : checkNodeFw decimalRuntime (twoVersions 1 2).files ["latest".toList] secondFw =
      .ok false := by
    rw [checkNodeFw_eq readsDecimals_decimalRuntime, if_pos (by simp)]
  have hten : checkNodeFw decimalRuntime (twoVersions 9 10).files [firstFw] secondFw =
      .ok false := by
    obtain ⟨allowed, hcheck, hiff⟩ :=
      checkNodeFw_known readsDecimals_decimalRuntime latest_not_listed (row?_second 9 10)
    rw [lists_first_iff] at hiff
    have hfalse : allowed = false := Bool.eq_false_iff.mpr fun ht => absurd (hiff.mp ht) (by decide)
    rw [hcheck, hfalse]
  have hunknown : checkNodeFw decimalRuntime (twoVersions 1 2).files [firstFw] [] =
      .error .typeError := by
    have hnode : (twoVersions 1 2).row? [] = none := by decide +kernel
    rw [checkNodeFw_unknown readsDecimals_decimalRuntime latest_not_listed hnode, if_neg]
    intro hnone
    exact absurd (hnone firstFw (by simp)) (by simp [VersDb.row?, twoVersions, VersionRow.decimal])
  refine ⟨hlatest, ?_, hten, ?_, hunknown⟩
  · rintro ⟨allowed, hcheck, hiff⟩
    rw [hlatest] at hcheck
    cases hcheck
    exact absurd (hiff.mpr ⟨.decimal 2 secondFw, by simp [twoVersions], rfl, by simp [twoVersions]⟩)
      (by simp)
  · rintro ⟨allowed, hcheck, hiff⟩
    rw [hten] at hcheck
    cases hcheck
    rw [VersDb.allows_iff latest_not_listed (row?_second 9 10), lists_first_iff] at hiff
    exact absurd (hiff.mpr (by simp)) (by simp)

theorem firmware_checked_two : (twoVersions 1 2).Checked decimalRuntime [firstFw] secondFw := by
  rw [firmware_checked_iff decimalRuntime readsDecimals_decimalRuntime, if_neg latest_not_listed,
    row?_second]
  simp only [VersDb.SameOrder, lists_first_iff]
  exact iff_of_true (by decide) (by simp)

/-- Some line of the file, without the white space at its end, is the identity. -/
def Enrolled (usrIdentity : Str) (lines : List Str) : Prop :=
  ∃ line ∈ lines, rstrip line = usrIdentity

/-- Such a line stands before every blank line. -/
def EnrolledFirst (usrIdentity : Str) (lines : List Str) : Prop :=
  ∃ before line after, lines = before ++ line :: after ∧ rstrip line = usrIdentity ∧ ∀ l ∈ before,
    rstrip l ≠ []

lemma EnrolledFirst.enrolled {usrIdentity : Str} {lines : List Str}
    (h : EnrolledFirst usrIdentity lines) : Enrolled usrIdentity lines := by
  obtain ⟨before, line, after, rfl, hline, -⟩ := h
  exact ⟨line, by simp, hline⟩

lemma enrolledFirst_cons {usrIdentity line : Str} {lines : List Str} :
    EnrolledFirst usrIdentity (line :: lines) ↔
      rstrip line = usrIdentity ∨ (rstrip line ≠ [] ∧ EnrolledFirst usrIdentity lines) := by
  constructor
  · rintro ⟨before, l, after, heq, hl, hbefore⟩
    cases before with
    | nil =>
      cases heq
      exact .inl hl
    | cons b before =>
      cases heq
      exact .inr ⟨hbefore line (by simp), before, l, after, rfl, hl,
        fun x hx => hbefore x (by simp [hx])⟩
  · rintro (h | ⟨hne, before, l, after, rfl, hl, hbefore⟩)
    · exact ⟨[], line, lines, rfl, h, by simp⟩
    · exact ⟨line :: before, l, after, rfl, hl, List.forall_mem_cons.mpr ⟨hne, hbefore⟩⟩

/-- The loop gives up at the first blank line. -/
lemma findIdentity_iff {usrIdentity : Str} (hne : usrIdentity ≠ []) (lines : List Str) :
    findIdentity (.str usrIdentity) lines = true ↔ EnrolledFirst usrIdentity lines := by
  induction lines with
  | nil => simp [findIdentity, EnrolledFirst]
  | cons line lines ih =>
    rw [enrolledFirst_cons, ← ih]
    simp only [findIdentity, PolicyVal.is, decide_eq_true_eq]
    split_ifs with hblank hline
    · simp [hblank, Ne.symm hne]
    · simp [hline]
    · simp [hblank, Ne.symm hline]

/-- The identity lookup is right if and only if a listed identity stands before the first blank
line. A line is what one call of `readline` returns, with or without a newline at its end. -/
theorem identity_found_iff (usrIdentity : Str) (hne : usrIdentity ≠ []) (lines : List Str)
    (versDb : Option (List (List Str))) :
    (checkUsrIdentity ⟨versDb, some lines⟩ (.str usrIdentity) = .ok true ↔
      Enrolled usrIdentity lines) ↔
      (Enrolled usrIdentity lines → EnrolledFirst usrIdentity lines) := by
  have hfound : checkUsrIdentity ⟨versDb, some lines⟩ (.str usrIdentity) = .ok true ↔
      EnrolledFirst usrIdentity lines := by
    rw [← findIdentity_iff hne]
    simp [checkUsrIdentity]
  rw [hfound]
  exact ⟨fun h => h.mpr, fun h => ⟨EnrolledFirst.enrolled, h⟩⟩

theorem identity_found_two :
    (checkUsrIdentity ⟨none, some ["alice\n".toList, "bob".toList]⟩ (.str "bob".toList) = .ok true ↔
      Enrolled "bob".toList ["alice\n".toList, "bob".toList]) :=
  (identity_found_iff "bob".toList (by decide) ["alice\n".toList, "bob".toList] none).mpr fun _ =>
    ⟨["alice\n".toList], "bob".toList, [], rfl, by decide, by decide⟩

/-- A user behind a blank line is not found. -/
theorem identity_behind_blank :
    Enrolled "bob".toList ["alice\n".toList, "\n".toList, "bob\n".toList] ∧
      checkUsrIdentity ⟨none, some ["alice\n".toList, "\n".toList, "bob\n".toList]⟩
        (.str "bob".toList) = .ok false :=
  ⟨⟨"bob\n".toList, by simp, by decide⟩, by decide⟩

end IronSafe.Policy
