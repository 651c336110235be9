import IronSafe.Bytes

/-! The two buffers that the storage server allocates for SQL text: the statement that creates the
temporary table, and the text of its schema. -/
namespace IronSafe.Server

/-- The text of a C string: the bytes in front of the terminator. -/
def cstr (buf : List UInt8) : List UInt8 := buf.takeWhile (· ≠ 0)

def strlen (buf : List UInt8) : ℕ := (cstr buf).length

def ascii (s : String) : List UInt8 := s.toList.map fun c => UInt8.ofNat c.toNat

def createTableCmd : List UInt8 := ascii "CREATE TEMPORARY TABLE TABLE1 AS" ++ [0]

def limitCmd : List UInt8 := ascii "LIMIT 0;" ++ [0]

/-- Cut off the last character, as `make_query_string` does in the buffer of the caller. -/
def dropLastChar (middle : List UInt8) : List UInt8 := middle.set (strlen middle - 1) 0

/-- The bytes that `make_query_string` writes, with the terminator. -/
def makeQueryString (start middle stop : List UInt8) : List UInt8 :=
  cstr start ++ ascii " " ++ cstr (dropLastChar middle) ++ ascii " " ++ cstr stop ++ [0]

/-- The size that is allocated for `create_table_select`. -/
def outStrLen (subquery : List UInt8) : ℕ :=
  let len := strlen createTableCmd + strlen limitCmd + strlen subquery
  if 2*strlen subquery ≤ len then len + 1 else 2*strlen subquery

/-- The size that `schema_callback` allocates, and the bytes that it writes. -/
def schemaCmdLen (schema : List UInt8) : ℕ := strlen schema + 1

def schemaCmd (schema : List UInt8) : List UInt8 := cstr schema ++ ascii ";" ++ [0]

/-- A subquery as it is received: a text that is not empty and ends in the buffer. -/
structure Subquery where
  buf : List UInt8
  size : buf.length = 4096
  terminated : 0 ∈ buf
  nonempty : strlen buf ≠ 0

/-- What is written fits what is allocated. -/
def StatementFits (q : Subquery) : Prop :=
  (makeQueryString createTableCmd q.buf limitCmd).length ≤ outStrLen q.buf

def SchemaFits (schema : List UInt8) : Prop := (schemaCmd schema).length ≤ schemaCmdLen schema

/-- A zero inside a text ends it there. -/
lemma cstr_set_zero (buf : List UInt8) {i : ℕ} (hi : i < strlen buf) :
    cstr (buf.set i 0) = (cstr buf).take i := by
  induction buf generalizing i with
  | nil => simp [strlen, cstr] at hi
  | cons c buf ih =>
    by_cases hc : c = 0
    · simp [strlen, cstr, hc] at hi
    · have hcons : cstr (c :: buf) = c :: cstr buf := by simp [cstr, hc]
      cases i with
      | zero => simp [cstr]
      | succ i =>
        have hlt : i < strlen buf := by simpa [strlen, hcons] using hi
        rw [List.set_cons_succ, hcons, List.take_succ_cons, ← ih hlt]
        simp [cstr, hc]

lemma strlen_dropLastChar (q : Subquery) : strlen (dropLastChar q.buf) = strlen q.buf - 1 := by
  have hpos := q.nonempty
  have hle : strlen q.buf - 1 ≤ (cstr q.buf).length := Nat.sub_le _ _
  rw [strlen, dropLastChar, cstr_set_zero q.buf (by omega), List.length_take, Nat.min_eq_left hle]

lemma strlen_createTableCmd : strlen createTableCmd = 32 := by decide

lemma strlen_limitCmd : strlen limitCmd = 8 := by decide

/-- Two blanks and the terminator are added and one character is dropped. -/
lemma makeQueryString_length (q : Subquery) :
    (makeQueryString createTableCmd q.buf limitCmd).length =
      strlen createTableCmd + strlen limitCmd + strlen q.buf + 2 := by
  have hpos := q.nonempty
  have hlen : (makeQueryString createTableCmd q.buf limitCmd).length =
      strlen createTableCmd + 1 + strlen (dropLastChar q.buf) + 1 + strlen limitCmd + 1 := by
    simp only [makeQueryString, List.length_append, strlen]
    rfl
  rw [hlen, strlen_dropLastChar]
  omega

lemma schemaCmd_length (schema : List UInt8) :
    (schemaCmd schema).length = schemaCmdLen schema + 1 := by
  simp only [schemaCmd, List.length_append, schemaCmdLen, strlen]
  rfl

lemma statementFits_iff (q : Subquery) : StatementFits q ↔ 42 ≤ strlen q.buf := by
  rw [StatementFits, makeQueryString_length, outStrLen, strlen_createTableCmd, strlen_limitCmd]
  split_ifs <;> omega

/-- The schema never fits its buffer. The statement fits if and only if the subquery has at least
42 characters; a shorter one is written one byte past the end, in both branches of the size. -/
theorem buffers_never_fit (q : Subquery) (schema : List UInt8) :
    ¬ (StatementFits q ∧ SchemaFits schema) ∧ (schemaCmd schema).length = schemaCmdLen schema + 1 ∧
      (StatementFits q ↔ 42 ≤ strlen q.buf) ∧
      (strlen q.buf < 42 →
        (makeQueryString createTableCmd q.buf limitCmd).length = outStrLen q.buf + 1) := by
  have hschema := schemaCmd_length schema
  refine ⟨fun h => ?_, hschema, statementFits_iff q, fun hlt => ?_⟩
  · have := h.2
    unfold SchemaFits at this
    omega
  · rw [makeQueryString_length, outStrLen, strlen_createTableCmd, strlen_limitCmd]
    split_ifs <;> omega

lemma strlen_padded (n m : ℕ) : strlen (List.replicate n 65 ++ List.replicate m 0) = n := by
  have hzero : (List.replicate m (0 : UInt8)).takeWhile (· ≠ 0) = [] := by
    cases m <;> simp [List.replicate_succ]
  rw [strlen, cstr, List.takeWhile_append_of_pos (by simp), hzero]
  simp

/-- A subquery of the given length. -/
def paddedQuery (n : ℕ) (hpos : n ≠ 0) (hlt : n < 4096) : Subquery where
  buf := List.replicate n 65 ++ List.replicate (4096-n) 0
  size := by simp; omega
  terminated := List.mem_append_right _ (List.mem_replicate.mpr ⟨Nat.sub_ne_zero_of_lt hlt, rfl⟩)
  nonempty := by rwa [strlen_padded]

/-- Nine characters in the branch of the sum and 41 in the branch of the doubling are written past
the end of the statement, and so is a schema of one character. -/
theorem buffers_overrun :
    (∃ q : Subquery, strlen q.buf = 9 ∧
      (makeQueryString createTableCmd q.buf limitCmd).length = 51 ∧ outStrLen q.buf = 50) ∧
      (∃ q : Subquery, strlen q.buf = 41 ∧
        (makeQueryString createTableCmd q.buf limitCmd).length = 83 ∧ outStrLen q.buf = 82) ∧
      (schemaCmd (ascii "T" ++ [0])).length = 3 ∧ schemaCmdLen (ascii "T" ++ [0]) = 2 := by
  have hlen : ∀ {n : ℕ} (hpos : n ≠ 0) (hlt : n < 4096), strlen (paddedQuery n hpos hlt).buf = n :=
    fun _ _ =>
    strlen_padded _ _
  refine ⟨⟨paddedQuery 9 (by decide) (by decide), hlen _ _, ?_, ?_⟩,
    ⟨paddedQuery 41 (by decide) (by decide), hlen _ _, ?_, ?_⟩, by decide, by decide⟩
  · rw [makeQueryString_length, hlen, strlen_createTableCmd, strlen_limitCmd]
  · rw [outStrLen, hlen, strlen_createTableCmd, strlen_limitCmd, if_pos (by decide)]
  · rw [makeQueryString_length, hlen, strlen_createTableCmd, strlen_limitCmd]
  · rw [outStrLen, hlen, strlen_createTableCmd, strlen_limitCmd, if_neg (by decide)]

end IronSafe.Server
