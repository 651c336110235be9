import IronSafe.PolicyLog

/-! What the execution log tells about the calls that wrote it. Every call writes one line of
comma separated texts, and nothing is quoted. -/
namespace IronSafe.Policy

/-- The format of a time, with a zero for every digit. -/
def stampFormat : Str := "0000-00-00_00:00:00".toList

def isStamp (s : Str) : Bool :=
  s.length == stampFormat.length &&
    (stampFormat.zip s).all fun p => if p.1 = '0' then p.2.isDigit else p.2 = p.1

/-- One call of `log_query_execution` and the time at which it is made. -/
@[ext] structure Execution where
  now : {s : Str // isStamp s = true}
  userKey : Str
  hostQuery : Str
  storageQuery : Str

def Execution.event (call : Execution) : Event :=
  .execution ⟨none, call.now.val⟩ call.hostQuery call.storageQuery call.userKey

def Execution.entry (call : Execution) : Str :=
  executionEntry call.hostQuery call.storageQuery call.userKey call.now.val

def entries (calls : List Execution) : Str := (calls.map Execution.entry).flatten

/-- The bytes of the log after the calls, if there is a log file. -/
def loggedBytes (rt : Runtime) (log : Log) (calls : List Execution) : Option (List UInt8) :=
  (runEvents rt log (calls.map Execution.event)).map encode

/-- No other calls leave the same log. -/
def Unambiguous (rt : Runtime) (log : Log) (calls : List Execution) : Prop :=
  ∀ others, loggedBytes rt log others = loggedBytes rt log calls → others = calls

section Entries

variable {rt : Runtime} {log : Log} {call : Execution} {calls : List Execution}

@[simp] lemma entries_cons (call : Execution) (calls : List Execution) :
    entries (call :: calls) = call.entry ++ entries calls := rfl

lemma step_event (call : Execution) (log : Log) :
    call.event.step rt log = some (log.getD [] ++ call.entry) :=
  logged_execution call.hostQuery call.storageQuery call.userKey

/-- The text behind the earlier contents. Without a call the file is not even created. -/
lemma runEvents_calls (calls : List Execution) (log : Log) :
    runEvents rt log (calls.map Execution.event) =
    if calls = [] then log else some (log.getD [] ++ entries calls) := by
  induction calls generalizing log with
  | nil => rfl
  | cons call calls ih =>
    have hstep : runEvents rt log ((call :: calls).map Execution.event) =
        runEvents rt (some (log.getD [] ++ call.entry)) (calls.map Execution.event) := by
      simp [runEvents, step_event]
    rw [hstep, ih, if_neg (List.cons_ne_nil call calls)]
    split_ifs with hnil
    · simp [hnil, entries]
    · simp

lemma entry_ne_nil (call : Execution) : call.entry ≠ [] := by
  simp [Execution.entry, executionEntry]

lemma entries_eq_nil : entries calls = [] ↔ calls = [] := by
  cases calls with
  | nil => simp [entries]
  | cons call calls => simp [entry_ne_nil]

/-- Two histories leave the same log if and only if they write the same text. -/
lemma loggedBytes_eq_iff (calls others : List Execution) :
    loggedBytes rt log others = loggedBytes rt log calls ↔ entries others = entries calls := by
  have hinj : Function.Injective (Option.map encode) :=
    Option.map_injective fun _ _ => encode_injective
  rw [loggedBytes, loggedBytes, hinj.eq_iff, runEvents_calls, runEvents_calls]
  split_ifs with ho hc hc
  · simp [ho, hc]
  · have hne := entries_eq_nil.not.mpr hc
    cases log <;> simp [ho, hne, entries_eq_nil.mpr, Ne.symm hne]
  · have hne := entries_eq_nil.not.mpr ho
    cases log <;> simp [hc, hne, entries_eq_nil.mpr]
  · simp

/-- A time has digits and the separators of its format. -/
lemma not_mem_stamp {c : Char} (hdigit : c.isDigit = false) (hformat : c ∉ stampFormat) {s : Str}
    (h : isStamp s = true) : c ∉ s := by
  rw [isStamp, Bool.and_eq_true, beq_iff_eq] at h
  intro hmem
  have hzip : (stampFormat.zip s).map Prod.snd = s := List.map_snd_zip (le_of_eq h.1)
  rw [← hzip] at hmem
  obtain ⟨⟨f, c'⟩, hpair, rfl⟩ := List.mem_map.mp hmem
  have hfits := List.all_eq_true.mp h.2 _ hpair
  have hf : f ∈ stampFormat := (List.of_mem_zip hpair).1
  dsimp only at hfits
  split_ifs at hfits with hzero
  · exact Bool.false_ne_true (hdigit.symm.trans hfits)
  · rw [← of_decide_eq_true hfits] at hf
    exact hformat hf

lemma comma_not_mem_stamp {s : Str} (h : isStamp s = true) : ',' ∉ s :=
  not_mem_stamp (by decide) (by decide) h

/-- Commas of the entry: three, and those inside the three texts. -/
lemma count_entry (call : Execution) : call.entry.count ',' =
    3 + (call.userKey.count ',' + call.hostQuery.count ',' + call.storageQuery.count ',') := by
  have hstamp : call.now.val.count ',' = 0 :=
    List.count_eq_zero.mpr (comma_not_mem_stamp call.now.2)
  simp only [Execution.entry, executionEntry, List.count_append, List.count_cons, hstamp]
  simp
  omega

lemma three_mul_le_count_entries (calls : List Execution) :
    3*calls.length ≤ (entries calls).count ',' := by
  induction calls with
  | nil => simp
  | cons call calls ih =>
    rw [entries_cons, List.count_append, count_entry, List.length_cons]
    omega

/-- No text of the call has a comma. -/
def Execution.Plain (call : Execution) : Prop :=
  ',' ∉ call.userKey ∧ ',' ∉ call.hostQuery ∧ ',' ∉ call.storageQuery

lemma plain_iff_count : call.Plain ↔ call.entry.count ',' = 3 := by
  rw [count_entry,
    Execution.Plain, ← List.count_eq_zero, ← List.count_eq_zero, ← List.count_eq_zero]
  omega

/-- Texts without commas can be read back. -/
lemma entry_injective {other : Execution} (hcall : call.Plain) (h : other.entry = call.entry) :
    other = call := by
  have hother : other.Plain := by rwa [plain_iff_count, h, ← plain_iff_count]
  simp only [Execution.entry, executionEntry, List.append_assoc, List.cons_append] at h
  obtain ⟨hnow, h⟩ :=
    Text.append_cons_inj (comma_not_mem_stamp other.now.2) (comma_not_mem_stamp call.now.2) h
  obtain ⟨hkey, h⟩ := Text.append_cons_inj hother.1 hcall.1 h
  obtain ⟨hhost, h⟩ := Text.append_cons_inj hother.2.1 hcall.2.1 h
  exact Execution.ext (Subtype.ext hnow) hkey hhost (List.append_cancel_right h)

/-- No text of the call goes on to another line. -/
def Execution.OneLine (call : Execution) : Prop :=
  '\n' ∉ call.userKey ∧ '\n' ∉ call.hostQuery ∧ '\n' ∉ call.storageQuery

lemma entry_eq_line (call : Execution) : call.entry = call.entry.dropLast ++ ['\n'] := by
  rw [Execution.entry, executionEntry, List.dropLast_concat]

lemma newline_not_mem_line (h : call.OneLine) : '\n' ∉ call.entry.dropLast := by
  have hstamp : '\n' ∉ call.now.val := not_mem_stamp (by decide) (by decide) call.now.2
  obtain ⟨hkey, hhost, hstorage⟩ := h
  rw [Execution.entry, executionEntry, List.dropLast_concat]
  simp [hstamp, hkey, hhost, hstorage]

/-- Calls of one line each, the texts of the first ones without commas, can be read back from the
lines. -/
lemma entries_injective {others : List Execution}
    (hcalls : ∀ call ∈ calls, call.Plain ∧ call.OneLine) (hothers : ∀ other ∈ others, other.OneLine)
    (h : entries others = entries calls) : others = calls := by
  induction calls generalizing others with
  | nil => exact entries_eq_nil.mp h
  | cons call calls ih =>
    cases others with
    | nil => exact absurd (entries_eq_nil.mp h.symm) (List.cons_ne_nil call calls)
    | cons other others =>
      obtain ⟨⟨hplain, hline⟩, hrest⟩ := List.forall_mem_cons.mp hcalls
      obtain ⟨hline', hrest'⟩ := List.forall_mem_cons.mp hothers
      rw [entries_cons, entries_cons, entry_eq_line other, entry_eq_line call, List.append_assoc,
        List.append_assoc] at h
      obtain ⟨hsame, htail⟩ :=
        Text.append_cons_inj (newline_not_mem_line hline') (newline_not_mem_line hline) h
      have hentry : other.entry = call.entry := by
        rw [entry_eq_line other, entry_eq_line call, hsame]
      rw [entry_injective hplain hentry, ih hrest hrest' htail]

/-- One call that writes two lines: its storage query goes on to the end of the second one. -/
def Execution.absorb (call next : Execution) : Execution :=
  { call with storageQuery := call.storageQuery ++ '\n' :: next.entry.dropLast }

lemma entry_absorb (call next : Execution) :
    (call.absorb next).entry = call.entry ++ next.entry := by
  have happ : (call.absorb next).entry = call.entry ++ (next.entry.dropLast ++ ['\n']) := by
    simp [Execution.entry, Execution.absorb, executionEntry]
  rw [happ, ← entry_eq_line]

/-- A comma inside a text can also be read as the end of that text. -/
lemma exists_other_of_not_plain (h : ¬ call.Plain) :
    ∃ other, other.entry = call.entry ∧ other ≠ call := by
  simp only [Execution.Plain, not_and_or, not_not] at h
  obtain ⟨now, userKey, hostQuery, storageQuery⟩ := call
  rcases h with h | h | h
  · obtain ⟨x, y, rfl⟩ := List.append_of_mem h
    exact ⟨⟨now, x, y, hostQuery ++ ',' :: storageQuery⟩,
      by simp [Execution.entry, executionEntry], by simp⟩
  · obtain ⟨x, y, rfl⟩ := List.append_of_mem h
    exact ⟨⟨now, userKey, x, y ++ ',' :: storageQuery⟩,
      by simp [Execution.entry, executionEntry], by simp⟩
  · obtain ⟨x, y, rfl⟩ := List.append_of_mem h
    exact ⟨⟨now, userKey ++ ',' :: hostQuery, x, y⟩,
      by simp [Execution.entry, executionEntry], by simp⟩

end Entries

/-- The log tells the calls that wrote it if and only if there is no call, or a single one whose
texts have no comma. Among calls of one line each it tells any calls whose texts have no comma. -/
theorem unambiguous_iff (rt : Runtime) (log : Log) (calls : List Execution) :
    (Unambiguous rt log calls ↔ calls = [] ∨ ∃ call, calls = [call] ∧ call.Plain) ∧
      ∀ others, (∀ call ∈ calls, call.Plain ∧ call.OneLine) → (∀ other ∈ others, other.OneLine) →
        loggedBytes rt log others = loggedBytes rt log calls → others = calls := by
  refine ⟨?_, fun others hcalls hothers h =>
    entries_injective hcalls hothers ((loggedBytes_eq_iff calls others).mp h)⟩
  constructor
  · intro h
    match calls with
    | [] => exact .inl rfl
    | [call] =>
      refine .inr ⟨call, rfl, ?_⟩
      by_contra hplain
      obtain ⟨other, hentry, hne⟩ := exists_other_of_not_plain hplain
      have hsame := h [other] ((loggedBytes_eq_iff _ _).mpr (by simp [hentry]))
      exact hne (List.singleton_inj.mp hsame)
    | call :: next :: calls =>
      have hsame :=
        h (call.absorb next :: calls) ((loggedBytes_eq_iff _ _).mpr (by simp [entry_absorb]))
      have hlen := congrArg List.length hsame
      simp at hlen
  · rintro (rfl | ⟨call, rfl, hplain⟩) others hsame <;> rw [loggedBytes_eq_iff] at hsame
    · exact entries_eq_nil.mp hsame
    · have hcount := three_mul_le_count_entries others
      have hthree : (entries [call]).count ',' = 3 := by
        simpa [entries] using plain_iff_count.mp hplain
      rw [hsame, hthree] at hcount
      match others with
      | [] => exact absurd (entries_eq_nil.mp hsame.symm) (List.cons_ne_nil call [])
      | [other] =>
        have hentry : other.entry = call.entry := by simpa [entries] using hsame
        rw [entry_injective hplain hentry]
      | _ :: _ :: others =>
        simp only [List.length_cons] at hcount
        omega

lemma isStamp_sample : isStamp "2021-01-31_23:59:59".toList = true := by decide

def sampleStamp : {s : Str // isStamp s = true} := ⟨"2021-01-31_23:59:59".toList, isStamp_sample⟩

/-- The same log for a comma in the key and for a comma in the host query, and the same log for
two calls and for a single one. -/
theorem calls_confused :
    let first : Execution := ⟨sampleStamp, "k,a".toList, "b".toList, "c".toList⟩
    let second : Execution := ⟨sampleStamp, "k".toList, "a,b".toList, "c".toList⟩
    loggedBytes asciiRuntime none [first] = loggedBytes asciiRuntime none [second] ∧
      first ≠ second ∧
      ∃ both, loggedBytes asciiRuntime none [both] =
      loggedBytes asciiRuntime none [first, second] := by
  intro first second
  refine ⟨(loggedBytes_eq_iff _ _).mpr rfl, fun h => ?_, first.absorb second, ?_⟩
  · have hkey := congrArg Execution.userKey h
    revert hkey
    decide
  · rw [loggedBytes_eq_iff]
    simp [entry_absorb]

end IronSafe.Policy
