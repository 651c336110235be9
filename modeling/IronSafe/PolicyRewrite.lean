import IronSafe.PolicyServer

/-! Timely deletion: the rewriting of a query against the exact replacement of its table names. -/
namespace IronSafe.Policy

section Words

/-- The characters of an SQL identifier. -/
def isIdent (c : Char) : Bool := c.isAlphanum || c = '_' || c = '$' || 128 ≤ c.toNat

/-- A maximal run of identifier characters, perhaps empty, inside or outside of a string literal. -/
structure Word where
  quoted : Bool
  text : Str

/-- A text as words with single characters between them. -/
structure Lexed where
  first : Word
  rest : List (Char × Word)

/-- The words of a query, `quoted` inside a string literal. The literals in single quotes are all of
SQL that it knows: a comment is read as any other text, and so are an identifier in double quotes,
backquotes or brackets and a parameter such as `:name`. -/
def lex (quoted : Bool) : Str → Lexed
  | [] => ⟨⟨quoted, []⟩, []⟩
  | c :: s =>
    if isIdent c then
      let next := lex quoted s
      ⟨⟨quoted, c :: next.first.text⟩, next.rest⟩
    else
      let next := lex (quoted != (c == '\'')) s
      ⟨⟨quoted, []⟩, (c, next.first) :: next.rest⟩

def Lexed.words (l : Lexed) : List Word := l.first :: l.rest.map Prod.snd

/-- Put a text for each word. -/
def Lexed.render (f : Word → Str) (l : Lexed) : Str :=
  f l.first ++ l.rest.flatMap fun cw => cw.1 :: f cw.2

lemma Lexed.render_cons (f : Word → Str) (w : Word) (c : Char) (w' : Word)
    (rest : List (Char × Word)) :
    Lexed.render f ⟨w, (c, w') :: rest⟩ = f w ++ c :: Lexed.render f ⟨w', rest⟩ := rfl

lemma Lexed.words_cons (w : Word) (c : Char) (w' : Word) (rest : List (Char × Word)) :
    Lexed.words ⟨w, (c, w') :: rest⟩ = w :: Lexed.words ⟨w', rest⟩ := rfl

/-- The words and the characters between them make up the text. -/
lemma render_lex (quoted : Bool) (s : Str) : (lex quoted s).render Word.text = s := by
  induction s generalizing quoted with
  | nil => rfl
  | cons c s ih =>
    rw [lex]
    split_ifs with hc
    · exact congrArg (c :: ·) (ih quoted)
    · exact congrArg (c :: ·) (ih _)

lemma not_isIdent_of_mem_lex (quoted : Bool) (s : Str) :
    ∀ cw ∈ (lex quoted s).rest, isIdent cw.1 = false := by
  induction s generalizing quoted with
  | nil => simp [lex]
  | cons c s ih =>
    rw [lex]
    split_ifs with hc
    · exact ih quoted
    · exact List.forall_mem_cons.mpr ⟨by simpa using hc, ih _⟩

end Words

section Specification

def tableNames : List Str := tableList.map fun t => t.map Char.toLower

/-- The table that a word names: the letter case does not count, and a literal names none. -/
def tableOf (w : Word) : Option Str :=
  if w.quoted = false ∧ w.text.map Char.toLower ∈ tableNames then some (w.text.map Char.toLower)
  else none

/-- What a word is to be replaced by. -/
def rewrittenWord (expiryDate : Str) (w : Word) : Str :=
  match tableOf w with
  | some t => selectFrom t expiryDate
  | none => w.text

/-- The query with each of its table names replaced once, and nothing else changed. -/
def exactRewrite (expiryDate q : Str) : Str := (lex false q).render (rewrittenWord expiryDate)

/-- The names that are replaced after the given one. -/
def laterNames (t : Str) : List Str := (tableNames.dropWhile (· ≠ t)).tail

def partsupp : Str := "partsupp".toList

/-- No pass touches a word that it should not touch. -/
def WordKept (expiryDate : Str) (w : Word) : Prop :=
  match tableOf w with
  | some t => t ≠ partsupp ∧ ∀ u ∈ laterNames t, ¬ u <:+: expiryDate
  | none => ∀ t ∈ tableNames, ¬ t <:+: w.text

instance (expiryDate : Str) (w : Word) : Decidable (WordKept expiryDate w) :=
  match h : tableOf w with
  | some t =>
    decidable_of_iff (t ≠ partsupp ∧ ∀ u ∈ laterNames t, ¬ u <:+: expiryDate) (by rw [WordKept, h])
  | none => decidable_of_iff (∀ t ∈ tableNames, ¬ t <:+: w.text) (by rw [WordKept, h])

/-- The query with only its table names in lower case. -/
def lowerTables (w : Word) : Str := (tableOf w).getD w.text

end Specification

section Names

lemma tableList_ascii : ∀ t ∈ tableList, t.all (fun c => c.toNat < 128) := by decide +kernel

lemma tableNames_ascii : ∀ t ∈ tableNames, t.all (fun c => c.toNat < 128) := by decide +kernel

lemma tableNames_isIdent : ∀ t ∈ tableNames, t.all isIdent := by decide +kernel

lemma tableNames_ne_nil : ∀ t ∈ tableNames, t ≠ [] := by decide +kernel

/-- No name that is replaced before another one occurs in it. -/
lemma tableNames_split : ∀ t ∈ tableNames,
    tableNames = tableNames.takeWhile (· ≠ t) ++ t :: laterNames t ∧
      ∀ u ∈ tableNames.takeWhile (· ≠ t), ¬ u <:+: t := by
  decide +kernel

/-- The only name that occurs in the text put for an earlier one. -/
lemma tableNames_in_select : ∀ t ∈ tableNames, ∀ u ∈ laterNames t,
    (u <:+: "(select * from ".toList ++ t ++ " where expiry_date >= ".toList ↔ t = partsupp ∧
      u = "part".toList) ∧ ¬ u <:+: [')'] ∧ '\'' ∉ u := by
  decide +kernel

lemma part_mem_laterNames : "part".toList ∈ laterNames partsupp := by decide +kernel

lemma growing_selectFrom (expiryDate : Str) :
    Text.Growing (selectFrom · expiryDate) tableNames := by
  have hlen : ∀ t a b c : Str, 0 < a.length →
      t.length < (a ++ t ++ b ++ expiryDate ++ c).length := by
    intro t a b c ha
    simp only [List.length_append]
    omega
  exact ⟨tableNames_ne_nil, fun t _ => hlen t _ _ _ (by decide)⟩

lemma rewriteTables_eq (rt : Runtime) (expiryDate q : Str) :
    rewriteTables rt expiryDate q = Text.replaceAll (selectFrom · expiryDate) tableNames q := by
  rw [rewriteTables, Text.replaceAll, tableNames, List.foldl_map]
  refine List.foldl_ext _ _ _ fun q t ht => ?_
  have hascii : ∀ c ∈ t, c.toNat < 128 := by simpa using tableList_ascii t ht
  rw [rt.caseMap.lower_ascii hascii]

/-- A table name becomes its select, which the later passes may change. -/
lemma replaceAll_name {t : Str} (ht : t ∈ tableNames) (expiryDate : Str) :
    Text.replaceAll (selectFrom · expiryDate) tableNames t =
      Text.replaceAll (selectFrom · expiryDate) (laterNames t) (selectFrom t expiryDate) := by
  obtain ⟨hsplit, hearlier⟩ := tableNames_split t ht
  have hpass : Text.replace t (selectFrom t expiryDate) t = selectFrom t expiryDate :=
    Text.replace_old (tableNames_ne_nil t ht)
  rw [hsplit, Text.replaceAll_append, Text.replaceAll_of_absent hearlier, Text.replaceAll_cons]
  exact congrArg _ hpass

lemma laterNames_subset {t : Str} (ht : t ∈ tableNames) : ∀ u ∈ laterNames t, u ∈ tableNames := by
  intro u hu
  rw [(tableNames_split t ht).1]
  exact List.mem_append_right _ (List.mem_cons_of_mem _ hu)

lemma selectFrom_eq (t expiryDate : Str) :
    selectFrom t expiryDate =
      ("(select * from ".toList ++ t ++ " where expiry_date >= ".toList) ++
        '\'' :: (expiryDate ++ '\'' :: [')']) := by
  have hlist : ∀ a b d : Str, a ++ t ++ (b ++ ['\'']) ++ d ++ ['\'', ')'] =
      (a ++ t ++ b) ++ '\'' :: (d ++ '\'' :: [')']) := by simp
  rw [← hlist]
  unfold selectFrom
  congr

/-- The names that the later passes find in the text put for a name. -/
lemma infix_selectFrom_iff {t u : Str} (ht : t ∈ tableNames) (hu : u ∈ laterNames t)
    (expiryDate : Str) :
    u <:+: selectFrom t expiryDate ↔ (t = partsupp ∧ u = "part".toList) ∨ u <:+: expiryDate := by
  obtain ⟨hhead, htail, hquote⟩ := tableNames_in_select t ht u hu
  rw [selectFrom_eq, Text.infix_append_cons hquote, Text.infix_append_cons hquote, hhead]
  simp [htail]

lemma growing_laterNames {t : Str} (ht : t ∈ tableNames) (expiryDate : Str) :
    Text.Growing (selectFrom · expiryDate) (laterNames t) :=
  ⟨fun u hu => (growing_selectFrom expiryDate).ne_nil u (laterNames_subset ht u hu),
    fun u hu => (growing_selectFrom expiryDate).grows u (laterNames_subset ht u hu)⟩

lemma replaceAll_name_eq_iff {t : Str} (ht : t ∈ tableNames) (expiryDate : Str) :
    Text.replaceAll (selectFrom · expiryDate) tableNames t = selectFrom t expiryDate ↔
      t ≠ partsupp ∧ ∀ u ∈ laterNames t, ¬ u <:+: expiryDate := by
  rw [replaceAll_name ht, (growing_laterNames ht expiryDate).eq_self_iff]
  constructor
  · intro h
    refine ⟨?_, fun u hu hin => h u hu ((infix_selectFrom_iff ht hu expiryDate).mpr (.inr hin))⟩
    rintro rfl
    exact h _ part_mem_laterNames
      ((infix_selectFrom_iff ht part_mem_laterNames expiryDate).mpr (.inl ⟨rfl, rfl⟩))
  · rintro ⟨hne, hdate⟩ u hu hin
    rcases (infix_selectFrom_iff ht hu expiryDate).mp hin with ⟨hpart, -⟩ | hin
    · exact hne hpart
    · exact hdate u hu hin

end Names

section Characters

lemma ascii_of_toLower {c : Char} (h : c.toLower.toNat < 128) : c.toNat < 128 := by
  rw [Char.toLower] at h
  split_ifs at h with hupper
  · have hle : c.val.toNat ≤ 'Z'.val.toNat := hupper.2
    exact lt_of_le_of_lt hle (by decide)
  · exact h

/-- A character between words is the same in lower case. -/
lemma lower_mark {c : Char} (h : isIdent c = false) : c.toNat < 128 ∧ c.toLower = c := by
  simp only [isIdent, Bool.or_eq_false_iff, decide_eq_false_iff_not, not_le] at h
  refine ⟨h.2, ?_⟩
  have hupper : ¬ (c.val ≥ 'A'.val ∧ c.val ≤ 'Z'.val) := by
    intro hu
    have hletter : c.isUpper = true := decide_eq_true hu
    have halpha := h.1.1.1
    simp [Char.isAlphanum, Char.isAlpha, hletter] at halpha
  rw [Char.toLower, dif_neg hupper]

lemma tableOf_eq_some {w : Word} {t : Str} (h : tableOf w = some t) :
    t ∈ tableNames ∧ w.text.map Char.toLower = t ∧ ∀ c ∈ w.text, c.toNat < 128 := by
  rw [tableOf] at h
  split_ifs at h with hw
  obtain rfl := Option.some.inj h
  refine ⟨hw.2, rfl, fun c hc => ascii_of_toLower ?_⟩
  have hascii := tableNames_ascii _ hw.2
  simp only [List.all_map, List.all_eq_true] at hascii
  simpa using hascii c hc

end Characters

section Passes

variable (rt : Runtime) (expiryDate : Str)

/-- The passes over a word that has been put into lower case. -/
lemma replaceAll_word (w : Word) (before after : Str) :
    (rewrittenWord expiryDate w).length ≤
      (Text.replaceAll (selectFrom · expiryDate) tableNames
        (rt.caseMap.lowerIn before w.text after)).length ∧
    (Text.replaceAll (selectFrom · expiryDate) tableNames (rt.caseMap.lowerIn before w.text after) =
        rewrittenWord expiryDate w ↔
      rt.caseMap.lowerIn before w.text after = lowerTables w ∧ WordKept expiryDate w) := by
  have hgrowing := growing_selectFrom expiryDate
  cases htable : tableOf w with
  | some t =>
    obtain ⟨ht, hlower, hascii⟩ := tableOf_eq_some htable
    have hkept := replaceAll_name_eq_iff ht expiryDate
    rw [rt.caseMap.lowerIn_ascii hascii, hlower]
    simp only [rewrittenWord, lowerTables, WordKept, htable, Option.getD_some, true_and]
    refine ⟨?_, hkept⟩
    rw [replaceAll_name ht]
    exact (growing_laterNames ht expiryDate).length_le _
  | none =>
    have hlower := rt.caseMap.length_le_lowerIn before w.text after
    have hpasses := hgrowing.length_le (rt.caseMap.lowerIn before w.text after)
    simp only [rewrittenWord, lowerTables, WordKept, htable, Option.getD_none]
    refine ⟨hlower.trans hpasses, ?_, ?_⟩
    · intro heq
      have hlen := congrArg List.length heq
      have hnot := hgrowing.absent (s := rt.caseMap.lowerIn before w.text after) (by omega)
      rw [Text.replaceAll_of_absent hnot] at heq
      exact ⟨heq, heq ▸ hnot⟩
    · rintro ⟨heq, hnot⟩
      rw [heq, Text.replaceAll_of_absent hnot]

lemma length_lowerTables (w : Word) : (lowerTables w).length = w.text.length := by
  rw [lowerTables, tableOf]
  split_ifs <;> simp

lemma append_cons_inj_of_le {a a' b b' : Str} {c : Char} (ha : a'.length ≤ a.length)
    (hb : b'.length ≤ b.length) : a ++ c :: b = a' ++ c :: b' ↔ a = a' ∧ b = b' := by
  refine ⟨fun h => ?_, fun ⟨h, h'⟩ => by rw [h, h']⟩
  have hlen := congrArg List.length h
  simp only [List.length_append, List.length_cons] at hlen
  obtain ⟨h1, h2⟩ := List.append_inj h (by omega)
  exact ⟨h1, (List.cons_inj_right c).mp h2⟩

/-- The passes over a text: they give the exact replacement exactly if they do so word by word. -/
lemma replaceAll_render (first : Word) (rest : List (Char × Word))
    (hmarks : ∀ cw ∈ rest, isIdent cw.1 = false) (before after : Str) :
    let l : Lexed := ⟨first, rest⟩
    let low := rt.caseMap.lowerIn before (l.render Word.text) after
    (l.render lowerTables).length ≤ low.length ∧
    (l.render (rewrittenWord expiryDate)).length ≤
    (Text.replaceAll (selectFrom · expiryDate) tableNames low).length ∧
    (Text.replaceAll (selectFrom · expiryDate) tableNames low =
    l.render (rewrittenWord expiryDate) ↔
      low = l.render lowerTables ∧ ∀ w ∈ l.words, WordKept expiryDate w) := by
  induction rest generalizing first before with
  | nil =>
    obtain ⟨hlen, hiff⟩ := replaceAll_word rt expiryDate first before after
    have hlower := rt.caseMap.length_le_lowerIn before first.text after
    rw [← length_lowerTables] at hlower
    simpa [Lexed.render, Lexed.words] using ⟨hlower, hlen, hiff⟩
  | cons cw rest ih =>
    obtain ⟨c, w⟩ := cw
    obtain ⟨hc, hrest⟩ := List.forall_mem_cons.mp hmarks
    obtain ⟨hascii, hlow⟩ := lower_mark hc
    have hnot : ∀ t ∈ tableNames, c ∉ t := by
      intro t ht hmem
      have hident := List.all_eq_true.mp (tableNames_isIdent t ht) c hmem
      rw [hc] at hident
      cases hident
    have hsplit : rt.caseMap.lowerIn before (Lexed.render Word.text ⟨first, (c, w) :: rest⟩) after =
        rt.caseMap.lowerIn before first.text (c :: Lexed.render Word.text ⟨w, rest⟩ ++ after) ++
          c :: rt.caseMap.lowerIn (before ++ first.text ++ [c]) (Lexed.render Word.text ⟨w, rest⟩)
          after := by
      rw [Lexed.render_cons, Text.CaseMap.lowerIn_append, Text.CaseMap.lowerIn,
        rt.caseMap.ascii _ _ _ hascii, hlow]
      rfl
    obtain ⟨hlen, hiff⟩ :=
      replaceAll_word rt expiryDate first before (c :: Lexed.render Word.text ⟨w, rest⟩ ++ after)
    have hlower :=
      rt.caseMap.length_le_lowerIn before first.text
        (c :: Lexed.render Word.text ⟨w, rest⟩ ++ after)
    rw [← length_lowerTables] at hlower
    obtain ⟨hlower', hlen', hiff'⟩ := ih w hrest (before ++ first.text ++ [c])
    intro l low
    simp only [l, low, hsplit, Lexed.render_cons,
      (growing_selectFrom expiryDate).replaceAll_append_cons hnot, List.length_append,
      List.length_cons]
    refine ⟨by omega, by omega, ?_⟩
    rw [append_cons_inj_of_le hlen hlen', append_cons_inj_of_le hlower hlower', hiff, hiff']
    rw [Lexed.words_cons, List.forall_mem_cons]
    exact and_and_and_comm

end Passes

/-- For a known key the rewriting is exact exactly if lower case changes nothing but the table
names, no other word contains a table name, the query does not name `partsupp`, and no name that is
replaced after a table of the query occurs in the expiry date. -/
theorem rewrites_exactly_iff (rt : Runtime) (p : DataAccessPolicy) (now : Str) (d : PolicyDict)
    (k q : Str) (hd : Compiled d k q) (hk : k ∈ p.sessionKeyIs) :
    runTimelyDeletionCase rt ⟨some p, now⟩ (some d) = .ok (some (exactRewrite p.expiryDate q)) ↔
      rt.caseMap.lower q = (lex false q).render lowerTables ∧
        ∀ w ∈ (lex false q).words, WordKept p.expiryDate w := by
  have hrender := (replaceAll_render rt p.expiryDate (lex false q).first (lex false q).rest
    (not_isIdent_of_mem_lex false q) [] []).2.2
  rw [render_lex] at hrender
  rw [runTimelyDeletionCase_eq rt rfl hd, if_pos hk, rewriteTables_eq, Except.ok.injEq,
    Option.some.injEq]
  exact hrender

lemma nodup_clientDict : [sessionKeyIs, query].Nodup := by decide

/-- A dictionary of the form of `CLIENT_DICT`. -/
def clientDict (k q : Str) : PolicyDict :=
  ⟨[(sessionKeyIs, .str k), (query, .str q)], nodup_clientDict⟩

lemma compiled_clientDict (k q : Str) : Compiled (clientDict k q) k q := ⟨rfl, rfl⟩

theorem rewrites_orders :
    runTimelyDeletionCase asciiRuntime ⟨some ⟨[['k']], "2026-01-01".toList, []⟩, []⟩
        (some (clientDict ['k'] "select * from ORDERS".toList)) =
      .ok (some (exactRewrite "2026-01-01".toList "select * from ORDERS".toList)) :=
  (rewrites_exactly_iff asciiRuntime ⟨[['k']], "2026-01-01".toList, []⟩ [] _ _ _
    (compiled_clientDict _ _)
    (by decide)).mpr ⟨by decide +kernel, by decide +kernel⟩

/-- The text that is put for `partsupp` is rewritten again. -/
theorem partsupp_rewritten_twice :
    exactRewrite ['d'] "partsupp".toList =
      "(select * from partsupp where expiry_date >= 'd')".toList ∧
    runTimelyDeletionCase asciiRuntime ⟨some ⟨[['k']], ['d'], []⟩, []⟩
      (some (clientDict ['k'] "partsupp".toList)) =
      .ok (some "(select * from (select * from part where expiry_date >= 'd')supp where expiry_date >= 'd')".toList) ∧
    runTimelyDeletionCase asciiRuntime ⟨some ⟨[['k']], ['d'], []⟩, []⟩
      (some (clientDict ['k'] "partsupp".toList)) ≠
      .ok (some (exactRewrite ['d'] "partsupp".toList)) := by
  have hexact : exactRewrite ['d'] "partsupp".toList =
      "(select * from partsupp where expiry_date >= 'd')".toList := by
    decide +kernel
  have hrun : runTimelyDeletionCase asciiRuntime ⟨some ⟨[['k']], ['d'], []⟩, []⟩
      (some (clientDict ['k'] "partsupp".toList)) =
      .ok (some
        "(select * from (select * from part where expiry_date >= 'd')supp where expiry_date >= 'd')".toList) := by
    decide +kernel
  refine ⟨hexact, hrun, ?_⟩
  rw [hrun, hexact]
  decide +kernel

end IronSafe.Policy
