import IronSafe.Dict

/-! The policy compiler. A policy text is a sequence of predicates with one value each, joined
by `&` and `|`; both operators are taken for one separator, and the values of a predicate are
collected under its name. -/
namespace IronSafe.Policy

abbrev Str := List Char

instance (s : Str) (names : List Str) : Decidable (s ∈ names) :=
  List.instDecidableMemOfLawfulBEq s names

/-- The exceptions that the policy server can run into. -/
inductive Raised
  | keyError (key :
      Str) | typeError | attributeError | indexError | valueError | unicodeDecodeError | osError
  | systemExit (message : Str)
  deriving DecidableEq

/-- A value in a policy dictionary: a string, a list of strings or a nested table. -/
inductive PolicyVal
  | str (s : Str) | list (vs : List Str) | table (entries : Dict Str (List Str))

abbrev PolicyDict := Dict Str PolicyVal

/-- The characters that `str.rstrip` removes. -/
def isSpace (c : Char) : Bool :=
  let n := c.toNat
  (9 ≤ n && n ≤ 13) || (28 ≤ n && n ≤ 32) || n == 0x85 || n == 0xa0 || n == 0x1680 ||
    (0x2000 ≤ n && n ≤ 0x200a) || n == 0x2028 || n == 0x2029 || n == 0x202f || n == 0x205f ||
      n == 0x3000

def rstrip (s : Str) : Str := s.rdropWhile isSpace

def sessionKeyIs : Str := "sessionKeyIs".toList

def query : Str := "query".toList

lemma sessionKeyIs_ne_query : sessionKeyIs ≠ query := by decide

/-- The first `(` and the first `)` delimit the value, also if they come in the wrong order. -/
def obtainKeyVal (polPred : Str) : Option (Str × Str) :=
  match polPred.idxOf? '(' with
  | none => none
  | some start =>
    match polPred.idxOf? ')' with
    | none => none
    | some stop => some (polPred.take start, (polPred.take stop).drop (start+1))

/-- The loop of `compile_policy`. -/
def compileLoop (userDict : Dict Str (List Str)) : List Str → Option (Dict Str (List Str))
  | [] => some userDict
  | i :: userPolicy =>
    match obtainKeyVal i with
    | none => none
    | some kvPair => compileLoop (userDict.push kvPair.1 kvPair.2) userPolicy

def ampToBar (c : Char) : Char := if c = '&' then '|' else c

/-- The predicates of a policy text. -/
def segments (userPolicy : Str) : List Str :=
  (rstrip ((rstrip userPolicy).map ampToBar)).splitOn '|'

/-- Replace the list under a key by its first value. -/
def firstOnly (userDict : PolicyDict) (key : Str) : Except Raised PolicyDict :=
  match userDict.get? key with
  | none => .error (.keyError key)
  | some (.list (v :: _)) => .ok (userDict.set key (.str v))
  | some (.list []) => .error .indexError
  | some (.str (c :: _)) => .ok (userDict.set key (.str [c]))
  | some (.str []) => .error .indexError
  | some (.table _) => .error (.keyError ['0'])

/-- `compile_policy`: `none` stands for the result `None`. -/
def compilePolicy (userPolicy : Str) : Except Raised (Option PolicyDict) :=
  match compileLoop Dict.empty (segments userPolicy) with
  | none => .ok none
  | some userDict =>
    match firstOnly (userDict.mapVal .list) sessionKeyIs with
    | .error e => .error e
    | .ok userDict =>
      match firstOnly userDict query with
      | .error e => .error e
      | .ok userDict => .ok (some userDict)

def isOp (c : Char) : Bool := c = '&' || c = '|'

section Segments

lemma isSpace_ampToBar (c : Char) : isSpace (ampToBar c) = isSpace c := by
  rw [ampToBar]
  split_ifs with h
  · subst h
    decide
  · rfl

lemma ampToBar_eq_bar (c : Char) : (ampToBar c == '|') = isOp c := by
  rw [ampToBar, isOp]
  split_ifs with h
  · simp [h]
  · by_cases h' : c = '|' <;> simp [h, h']

lemma rdropWhile_map {α β : Type*} (f : α → β) (p : α → Bool) (p' : β → Bool)
    (hp : ∀ a, p' (f a) = p a) (l : List α) : (l.map f).rdropWhile p' = (l.rdropWhile p).map f := by
  induction l using List.reverseRecOn with
  | nil => simp
  | append_singleton l a ih =>
    rw [List.map_append, List.map_singleton, List.rdropWhile_concat, List.rdropWhile_concat, hp, ih]
    split_ifs <;> simp

/-- The text is cut at both operators. -/
lemma segments_eq (s : Str) : segments s = (rstrip s).splitOnP isOp := by
  have hstrip : rstrip ((rstrip s).map ampToBar) = (rstrip s).map ampToBar := by
    rw [rstrip, rdropWhile_map ampToBar isSpace isSpace isSpace_ampToBar, rstrip,
      List.rdropWhile_idempotent]
  rw [segments, hstrip]
  induction rstrip s with
  | nil => rfl
  | cons c s ih =>
    rw [List.map_cons, List.splitOn_cons_eq_if_modifyHead, List.splitOnP_cons_eq_if_modifyHead,
      ampToBar_eq_bar, ih]
    split_ifs with hc
    · rfl
    · have hne : ampToBar c = c := if_neg fun h => hc (by simp [isOp, h])
      rw [hne]

end Segments

section Predicates

lemma idxOf?_append_cons {xs ys : Str} {c : Char} (h : c ∉ xs) :
    (xs ++ c :: ys).idxOf? c = some xs.length := by
  induction xs with
  | nil => simp [List.idxOf?_cons]
  | cons x xs ih =>
    rw [List.mem_cons, not_or] at h
    obtain ⟨hx, hxs⟩ := h
    rw [List.cons_append, List.idxOf?_cons, ih hxs]
    simp [Ne.symm hx]

/-- A predicate is refused exactly if one of the parentheses is missing. -/
lemma obtainKeyVal_eq_none {p : Str} : obtainKeyVal p = none ↔ '(' ∉ p ∨ ')' ∉ p := by
  rw [obtainKeyVal]
  cases hs : p.idxOf? '(' with
  | none => simp [List.idxOf?_eq_none_iff.mp hs]
  | some start =>
    have hmem : '(' ∈ p := by
      by_contra hn
      rw [List.idxOf?_eq_none_iff.mpr hn] at hs
      cases hs
    cases he : p.idxOf? ')' with
    | none => simp [List.idxOf?_eq_none_iff.mp he]
    | some stop =>
      have hmem' : ')' ∈ p := by
        by_contra hn
        rw [List.idxOf?_eq_none_iff.mpr hn] at he
        cases he
      simp [hmem, hmem']

/-- The predicate `name(value)`. -/
def item (name value : Str) : Str := name ++ '(' :: value ++ [')']

/-- What follows the first `)` is ignored. -/
lemma obtainKeyVal_append {name value rest : Str} (hopen : '(' ∉ name) (hclose : ')' ∉ name)
    (hval : ')' ∉ value) :
    obtainKeyVal (name ++ '(' :: (value ++ ')' :: rest)) = some (name, value) := by
  have hstop : ')' ∉ name ++ '(' :: value := by simp [hclose, hval]
  have hsplit : name ++ '(' :: (value ++ ')' :: rest) = (name ++ '(' :: value) ++ ')' :: rest := by
    simp
  rw [obtainKeyVal, idxOf?_append_cons hopen, hsplit, idxOf?_append_cons hstop]
  dsimp only
  rw [List.take_left' rfl, ← hsplit, List.take_left' rfl]
  simp [List.drop_append]

lemma obtainKeyVal_item {name value : Str} (hopen : '(' ∉ name) (hclose : ')' ∉ name)
    (hval : ')' ∉ value) : obtainKeyVal (item name value) = some (name, value) := by
  rw [item, List.append_assoc, List.cons_append]
  exact obtainKeyVal_append hopen hclose hval

lemma compileLoop_eq (d : Dict Str (List Str)) (segs : List Str) :
    compileLoop d segs =
      (segs.mapM obtainKeyVal).map (List.foldl (fun d kv => d.push kv.1 kv.2) d) := by
  induction segs generalizing d with
  | nil => rfl
  | cons seg segs ih =>
    rw [compileLoop, List.mapM_cons]
    cases hkv : obtainKeyVal seg with
    | none => rfl
    | some kv =>
      dsimp only
      rw [ih]
      cases segs.mapM obtainKeyVal <;> rfl

end Predicates

section Compiled

variable {s : Str} {kvs : List (Str × Str)}

/-- The value under a name when the predicates have been collected: a string for the session
key and the query, a list for any other. -/
def entryOf (name : Str) (values : List Str) : Option PolicyVal :=
  if name = sessionKeyIs ∨ name = query then values.head?.map .str
  else (Dict.listed values).map .list

/-- The dictionary made of predicates with their values. -/
def Collects (kvs : List (Str × Str)) (d : PolicyDict) : Prop :=
  ∀ name, d.get? name = entryOf name (Dict.values name kvs)

lemma Collects.mem_keys {d : PolicyDict} (h : Collects kvs d) (name : Str) :
    name ∈ d.keys ↔ name ∈ kvs.map Prod.fst := by
  rw [Dict.mem_keys_iff, h, ← Dict.values_ne_nil_iff, entryOf]
  cases Dict.values name kvs <;> split_ifs <;> simp [Dict.listed]

lemma firstOnly_ok {d : PolicyDict} {key v : Str} {vs : List Str}
    (h : d.get? key = some (.list (v :: vs))) : firstOnly d key = .ok (d.set key (.str v)) := by
  rw [firstOnly, h]

lemma firstOnly_missing {d : PolicyDict} {key : Str} (h : d.get? key = none) :
    firstOnly d key = .error (.keyError key) := by
  rw [firstOnly, h]

lemma compileLoop_some (h : (segments s).mapM obtainKeyVal = some kvs) :
    ∃ d, compileLoop Dict.empty (segments s) = some d ∧
      ∀ name, (d.mapVal PolicyVal.list).get? name =
        (Dict.listed (Dict.values name kvs)).map .list := by
  rw [compileLoop_eq, h]
  refine ⟨_, rfl, fun name => ?_⟩
  rw [Dict.get?_mapVal, Dict.get?_foldl_push]

lemma compilePolicy_none (h : (segments s).mapM obtainKeyVal = none) :
    compilePolicy s = .ok none := by
  rw [compilePolicy, compileLoop_eq, h]
  rfl

lemma compilePolicy_noKey (h : (segments s).mapM obtainKeyVal = some kvs)
    (hkey : Dict.values sessionKeyIs kvs = []) :
    compilePolicy s = .error (.keyError sessionKeyIs) := by
  obtain ⟨d, hd, hget⟩ := compileLoop_some h
  have hmissing := hget sessionKeyIs
  rw [hkey] at hmissing
  rw [compilePolicy, hd]
  dsimp only
  rw [firstOnly_missing hmissing]

lemma compilePolicy_noQuery (h : (segments s).mapM obtainKeyVal = some kvs)
    (hkey : Dict.values sessionKeyIs kvs ≠ []) (hquery : Dict.values query kvs = []) :
    compilePolicy s = .error (.keyError query) := by
  obtain ⟨d, hd, hget⟩ := compileLoop_some h
  obtain ⟨v, vs, hvs⟩ := List.exists_cons_of_ne_nil hkey
  have hfirst := hget sessionKeyIs
  have hmissing := hget query
  rw [hvs] at hfirst
  rw [hquery] at hmissing
  rw [compilePolicy, hd]
  dsimp only
  rw [firstOnly_ok hfirst]
  dsimp only
  rw [firstOnly_missing ((Dict.get?_set_of_ne _ sessionKeyIs_ne_query _).trans hmissing)]

lemma compilePolicy_some (h : (segments s).mapM obtainKeyVal = some kvs)
    (hkey : Dict.values sessionKeyIs kvs ≠ []) (hquery : Dict.values query kvs ≠ []) :
    ∃ d, compilePolicy s = .ok (some d) ∧ Collects kvs d := by
  obtain ⟨d, hd, hget⟩ := compileLoop_some h
  obtain ⟨k, ks, hks⟩ := List.exists_cons_of_ne_nil hkey
  obtain ⟨v, vs, hvs⟩ := List.exists_cons_of_ne_nil hquery
  have hfirst := hget sessionKeyIs
  have hsecond := hget query
  rw [hks] at hfirst
  rw [hvs] at hsecond
  rw [compilePolicy, hd]
  dsimp only
  rw [firstOnly_ok hfirst]
  dsimp only
  rw [firstOnly_ok ((Dict.get?_set_of_ne _ sessionKeyIs_ne_query _).trans hsecond)]
  refine ⟨_, rfl, fun name => ?_⟩
  rw [entryOf]
  by_cases hq : query = name
  · subst hq
    simp [hvs]
  · by_cases hk : sessionKeyIs = name
    · subst hk
      simp [Dict.get?_set_of_ne _ hq, hks]
    · rw [Dict.get?_set_of_ne _ hq, Dict.get?_set_of_ne _ hk, hget, if_neg]
      exact not_or.mpr ⟨Ne.symm hk, Ne.symm hq⟩

/-- The ends of a compilation. -/
theorem compilePolicy_cases (s : Str) :
    ((segments s).mapM obtainKeyVal = none ∧ compilePolicy s = .ok none) ∨
    (∃ kvs key, (segments s).mapM obtainKeyVal = some kvs ∧ key ∈ [sessionKeyIs, query] ∧
      Dict.values key kvs = [] ∧ compilePolicy s = .error (.keyError key)) ∨
    ∃ kvs d, (segments s).mapM obtainKeyVal = some kvs ∧ Dict.values sessionKeyIs kvs ≠ [] ∧
      Dict.values query kvs ≠ [] ∧ compilePolicy s = .ok (some d) ∧ Collects kvs d := by
  cases hkvs : (segments s).mapM obtainKeyVal with
  | none => exact .inl ⟨rfl, compilePolicy_none hkvs⟩
  | some kvs =>
    refine .inr ?_
    by_cases hkey : Dict.values sessionKeyIs kvs = []
    · exact .inl ⟨kvs, sessionKeyIs, rfl, by simp, hkey, compilePolicy_noKey hkvs hkey⟩
    by_cases hquery : Dict.values query kvs = []
    · exact .inl ⟨kvs, query, rfl, by simp, hquery, compilePolicy_noQuery hkvs hkey hquery⟩
    obtain ⟨d, hd, hcol⟩ := compilePolicy_some hkvs hkey hquery
    exact .inr ⟨kvs, d, rfl, hkey, hquery, hd, hcol⟩

lemma compilePolicy_eq_some {d : PolicyDict} (h : compilePolicy s = .ok (some d)) :
    ∃ kvs, (segments s).mapM obtainKeyVal = some kvs ∧ Dict.values sessionKeyIs kvs ≠ [] ∧
      Dict.values query kvs ≠ [] ∧ Collects kvs d := by
  rcases compilePolicy_cases s with ⟨-, h'⟩ | ⟨_, _, -, -, -, h'⟩ | ⟨kvs, d', hkvs, hkey, hquery,
    h', hcol⟩
  · rw [h] at h'
    cases h'
  · rw [h] at h'
    cases h'
  · rw [h] at h'
    cases h'
    exact ⟨kvs, hkvs, hkey, hquery, hcol⟩

/-- A text of at most one character has no predicate. -/
lemma compilePolicy_short (h : s.length ≤ 1) : compilePolicy s = .ok none := by
  have hlen : (rstrip s).length ≤ 1 := (List.rdropWhile_prefix isSpace s).length_le.trans h
  apply compilePolicy_none
  rw [segments_eq]
  match hs : rstrip s with
  | [] => rfl
  | [c] =>
    have hseg : obtainKeyVal [c] = none := by
      rw [obtainKeyVal_eq_none]
      by_cases hc : c = '('
      · exact .inr (by simp [hc])
      · exact .inl (by simpa using Ne.symm hc)
    rw [List.splitOnP_cons_eq_if_modifyHead]
    split_ifs
    · rfl
    · simp [hseg]
  | _ :: _ :: _ => simp [hs] at hlen

end Compiled

end IronSafe.Policy
