import IronSafe.PolicyLanguage
import IronSafe.PolicyServer

/-! The meaning of a policy: a conjunction of clauses, each a disjunction of the values of one
predicate, and its evaluation after compilation. -/
namespace IronSafe.Policy

/-- A predicate with the values it may take. -/
structure Clause where
  name : Str
  values : List Str
  values_ne_nil : values ≠ []
  plain_name : Plain name
  plain_values : ∀ v ∈ values, Plain v

namespace Clause

def text (c : Clause) : Str := ['|'].intercalate (c.values.map (item c.name))

def items (c : Clause) : List (Str × Str) := c.values.map fun v => (c.name,v)

/-- What the clause says about the nodes. -/
def Holds (c : Clause) : Prop :=
  ∀ v, hostDict.get? c.name = some v ∨ storageDict.get? c.name = some v → v ∈ c.values

end Clause

def policyText (clauses : List Clause) : Str := ['&'].intercalate (clauses.map Clause.text)

def itemsOf (clauses : List Clause) : List (Str × Str) := clauses.flatMap Clause.items

/-- The documented policies: distinct predicates, a session key, a query and the four predicates
on the nodes. -/
structure Documented (clauses : List Clause) (k q : Str) : Prop where
  distinct : (clauses.map Clause.name).Nodup
  key : ∃ c ∈ clauses, c.name = sessionKeyIs ∧ c.values = [k]
  query : ∃ c ∈ clauses, c.name = query ∧ c.values = [q]
  nodes : ∀ name ∈ [hostLocIs, storageLocIs, hostFwVersionIs, storageFwVersionIs],
    name ∈ clauses.map Clause.name

section Sentences

lemma Sentence.rstrip_eq {items : List (Str × Str)} {text : Str} (h : Sentence items text) :
    rstrip text = text := by
  have hlast : ∃ s, text = s ++ [')'] := by
    induction h with
    | one => exact ⟨_, rfl⟩
    | @or name value _ _ _ _ _ ih =>
      obtain ⟨s, rfl⟩ := ih
      exact ⟨item name value ++ '|' :: s, by simp⟩
    | @and name value _ _ _ _ _ _ _ _ ih =>
      obtain ⟨s, rfl⟩ := ih
      exact ⟨item name value ++ '&' :: s, by simp⟩
  obtain ⟨s, rfl⟩ := hlast
  exact List.rdropWhile_concat_neg _ _ _ (by decide)

lemma intercalate_map_cons {α : Type} (c : Char) (f : α → Str) (a b : α) (l : List α) :
    [c].intercalate ((a :: b :: l).map f) = f a ++ c :: [c].intercalate ((b :: l).map f) := by
  simp only [List.map_cons, List.intercalate_cons_cons, List.append_assoc, List.singleton_append]

/-- The values of one predicate. -/
lemma sentence_values {name : Str} (hname : Plain name) {v : Str} {vs : List Str}
    (hvs : ∀ w ∈ v :: vs, Plain w) :
    Sentence ((v :: vs).map fun w => (name,w)) (['|'].intercalate ((v :: vs).map (item name))) := by
  induction vs generalizing v with
  | nil => simpa using Sentence.one hname (hvs v List.mem_cons_self)
  | cons v' vs ih =>
    obtain ⟨hv, hvs⟩ := List.forall_mem_cons.mp hvs
    have hor := Sentence.or hv (ih hvs)
    rw [intercalate_map_cons]
    exact hor

/-- The values of one predicate before other predicates. -/
lemma sentence_values_append {name : Str} (hname : Plain name) {v : Str} {vs : List Str}
    (hvs : ∀ w ∈ v :: vs, Plain w) {name' value' : Str} {items : List (Str × Str)} {text : Str}
    (hne : name ≠ name') (h : Sentence ((name',value') :: items) text) :
    Sentence ((v :: vs).map (fun w => (name,w)) ++ (name',value') :: items)
      (['|'].intercalate ((v :: vs).map (item name)) ++ '&' :: text) := by
  induction vs generalizing v with
  | nil => simpa using Sentence.and hname (hvs v List.mem_cons_self) hne h
  | cons v' vs ih =>
    obtain ⟨hv, hvs⟩ := List.forall_mem_cons.mp hvs
    have hor := Sentence.or hv (ih hvs)
    rw [intercalate_map_cons, List.append_assoc]
    exact hor

lemma Clause.items_eq_cons (c : Clause) : ∃ v rest, c.items = (c.name,v) :: rest := by
  obtain ⟨v, vs, hvs⟩ := List.exists_cons_of_ne_nil c.values_ne_nil
  exact ⟨v, vs.map fun w => (c.name,w), by rw [items, hvs, List.map_cons]⟩

/-- A list of clauses is in the language. -/
lemma sentence_policyText {c : Clause} {clauses : List Clause}
    (h : ((c :: clauses).map Clause.name).Nodup) :
    Sentence (itemsOf (c :: clauses)) (policyText (c :: clauses)) := by
  induction clauses generalizing c with
  | nil =>
    obtain ⟨v, vs, hvs⟩ := List.exists_cons_of_ne_nil c.values_ne_nil
    have hs := sentence_values c.plain_name (hvs ▸ c.plain_values)
    simpa [itemsOf, policyText, Clause.items, Clause.text, hvs] using hs
  | cons c' clauses ih =>
    rw [List.map_cons, List.nodup_cons] at h
    have hne : c.name ≠ c'.name := fun he => h.1 (by simp [he])
    obtain ⟨v, vs, hvs⟩ := List.exists_cons_of_ne_nil c.values_ne_nil
    obtain ⟨v', rest, hrest⟩ := c'.items_eq_cons
    have hitems : itemsOf (c' :: clauses) = (c'.name,v') :: (rest ++ itemsOf clauses) := by
      simp [itemsOf, hrest]
    have hs := ih h.2
    rw [hitems] at hs
    have happend := sentence_values_append c.plain_name (hvs ▸ c.plain_values) hne hs
    have htext : policyText (c :: c' :: clauses) = c.text ++ '&' :: policyText (c' :: clauses) :=
      intercalate_map_cons '&' Clause.text c c' clauses
    have hall : itemsOf (c :: c' :: clauses) = c.items ++ itemsOf (c' :: clauses) := by
      simp [itemsOf]
    rw [htext, hall, hitems]
    simpa [Clause.items, Clause.text, hvs] using happend

end Sentences

section Values

lemma values_items (c : Clause) (name : Str) :
    Dict.values name c.items = if c.name = name then c.values else [] := by
  split_ifs with h <;> simp [Dict.values, Clause.items, List.filter_map, h, Function.comp_def]

lemma values_itemsOf_of_not_mem {clauses : List Clause} {name : Str}
    (h : name ∉ clauses.map Clause.name) : Dict.values name (itemsOf clauses) = [] := by
  induction clauses with
  | nil => rfl
  | cons c clauses ih =>
    rw [List.map_cons, List.mem_cons, not_or] at h
    rw [itemsOf, List.flatMap_cons, Dict.values_append, values_items, if_neg (Ne.symm h.1)]
    exact ih h.2

/-- Grouping by name gives each clause its values back. -/
lemma values_itemsOf {clauses : List Clause} (hnodup : (clauses.map Clause.name).Nodup) {c : Clause}
    (hc : c ∈ clauses) : Dict.values c.name (itemsOf clauses) = c.values := by
  induction clauses with
  | nil => cases hc
  | cons c' clauses ih =>
    rw [List.map_cons, List.nodup_cons] at hnodup
    rw [itemsOf, List.flatMap_cons, Dict.values_append, values_items]
    rcases List.mem_cons.mp hc with rfl | hc
    · have hrest := values_itemsOf_of_not_mem hnodup.1
      rw [itemsOf] at hrest
      rw [if_pos rfl, hrest, List.append_nil]
    · have hne : c'.name ≠ c.name := fun h => hnodup.1 (h ▸ List.mem_map_of_mem hc)
      rw [if_neg hne]
      exact ih hnodup.2 hc

/-- The order of the clauses does not count. -/
lemma values_itemsOf_perm {clauses clauses' : List Clause}
    (hnodup : (clauses.map Clause.name).Nodup) (hperm : clauses'.Perm clauses) (name : Str) :
    Dict.values name (itemsOf clauses') = Dict.values name (itemsOf clauses) := by
  have hnodup' := (hperm.map Clause.name).nodup_iff.mpr hnodup
  by_cases h : name ∈ clauses.map Clause.name
  · obtain ⟨c, hc, rfl⟩ := List.mem_map.mp h
    rw [values_itemsOf hnodup hc, values_itemsOf hnodup' (hperm.mem_iff.mpr hc)]
  · have h' : name ∉ clauses'.map Clause.name := fun hn => h ((hperm.map Clause.name).mem_iff.mp hn)
    rw [values_itemsOf_of_not_mem h, values_itemsOf_of_not_mem h']

end Values

section Meaning

variable {clauses clauses' : List Clause} {k q : Str}

lemma Documented.perm (h : Documented clauses k q) (hperm : clauses'.Perm clauses) :
    Documented clauses' k q := by
  obtain ⟨ck, hck, hk⟩ := h.key
  obtain ⟨cq, hcq, hq⟩ := h.query
  exact ⟨(hperm.map Clause.name).nodup_iff.mpr h.distinct, ⟨ck, hperm.mem_iff.mpr hck, hk⟩,
    ⟨cq, hperm.mem_iff.mpr hcq, hq⟩,
    fun name hname => (hperm.map Clause.name).mem_iff.mpr (h.nodes name hname)⟩

lemma Documented.compile (h : Documented clauses k q) :
    ∃ d, compilePolicy (policyText clauses) = .ok (some d) ∧ Collects (itemsOf clauses) d ∧
      Compiled d k q := by
  obtain ⟨ck, hck, hkname, hk⟩ := h.key
  obtain ⟨cq, hcq, hqname, hq⟩ := h.query
  obtain ⟨c, rest, hclauses⟩ := List.exists_cons_of_ne_nil (List.ne_nil_of_mem hck)
  have hsentence : Sentence (itemsOf clauses) (policyText clauses) := by
    rw [hclauses]
    exact sentence_policyText (hclauses ▸ h.distinct)
  have hkey : Dict.values sessionKeyIs (itemsOf clauses) = [k] := by
    rw [← hkname, values_itemsOf h.distinct hck, hk]
  have hquery : Dict.values Policy.query (itemsOf clauses) = [q] := by
    rw [← hqname, values_itemsOf h.distinct hcq, hq]
  have hkvs : (segments (policyText clauses)).mapM obtainKeyVal = some (itemsOf clauses) :=
    Sentence.keyVals (by rwa [hsentence.rstrip_eq])
  obtain ⟨d, hd, hcol⟩ := compilePolicy_some hkvs (by simp [hkey]) (by simp [hquery])
  refine ⟨d, hd, hcol, ?_, ?_⟩
  · rw [hcol, hkey]
    rfl
  · rw [hcol, hquery]
    rfl

lemma nodeChecks_dict {check : Dict Str Str × Str} (h : check ∈ nodeChecks) :
    check.1 = hostDict ∨ check.1 = storageDict := by
  simp only [nodeChecks, List.mem_cons, List.not_mem_nil, or_false] at h
  rcases h with rfl | rfl | rfl | rfl <;> simp

lemma Documented.present (h : Documented clauses k q) {check : Dict Str Str × Str}
    (hcheck : check ∈ nodeChecks) : ∃ c ∈ clauses, c.name = check.2 := by
  have hname : check.2 ∈ [hostLocIs, storageLocIs, hostFwVersionIs, storageFwVersionIs] :=
    List.mem_map_of_mem (f := Prod.snd) hcheck
  exact List.mem_map.mp (h.nodes check.2 hname)

lemma mem_nodeChecks_host {name v : Str} (h : hostDict.get? name = some v) :
    (hostDict,name) ∈ nodeChecks := by
  have hname : name ∈ hostDict.keys := (Dict.mem_keys_iff _ _).mpr (by simp [h])
  simp only [Dict.keys, hostDict, List.map_cons, List.map_nil, List.mem_cons, List.not_mem_nil,
    or_false] at hname
  rcases hname with rfl | rfl <;> simp [nodeChecks]

lemma mem_nodeChecks_storage {name v : Str} (h : storageDict.get? name = some v) :
    (storageDict,name) ∈ nodeChecks := by
  have hname : name ∈ storageDict.keys := (Dict.mem_keys_iff _ _).mpr (by simp [h])
  simp only [Dict.keys, storageDict, List.map_cons, List.map_nil, List.mem_cons, List.not_mem_nil,
    or_false] at hname
  rcases hname with rfl | rfl <;> simp [nodeChecks]

/-- A check on a compiled policy is a check on the clause of its predicate. -/
lemma Documented.meets_iff (h : Documented clauses k q) {d : PolicyDict}
    (hcol : Collects (itemsOf clauses) d) {check : Dict Str Str × Str} (hcheck : Listed check)
    {c : Clause} (hc : c ∈ clauses) (hname : c.name = check.2) :
    (d.get? check.2).isSome ∧
      (Meets d check ↔ ∃ v, check.1.get? c.name = some v ∧ v ∈ c.values) := by
  have hget : d.get? check.2 = some (.list c.values) := by
    rw [hcol.get?_list hcheck.2.1 hcheck.2.2, ← hname, values_itemsOf h.distinct hc, Dict.listed,
      if_neg c.values_ne_nil]
    rfl
  refine ⟨by simp [hget], ?_⟩
  simp [Meets, hget, hname]

/-- The checks hold exactly if every clause does. -/
lemma Documented.meets_all_iff (h : Documented clauses k q) {d : PolicyDict}
    (hcol : Collects (itemsOf clauses) d) :
    (∀ check ∈ nodeChecks, Meets d check) ↔ ∀ c ∈ clauses, c.Holds := by
  constructor
  · intro hmeets c hc v hv
    rcases hv with hv | hv
    · have hmem := mem_nodeChecks_host hv
      obtain ⟨v', hv', hin⟩ :=
        (h.meets_iff hcol (listed_nodeChecks _ hmem) hc rfl).2.mp (hmeets _ hmem)
      rwa [Option.some.inj (hv.symm.trans hv')]
    · have hmem := mem_nodeChecks_storage hv
      obtain ⟨v', hv', hin⟩ :=
        (h.meets_iff hcol (listed_nodeChecks _ hmem) hc rfl).2.mp (hmeets _ hmem)
      rwa [Option.some.inj (hv.symm.trans hv')]
  · intro hholds check hcheck
    have hlisted := listed_nodeChecks check hcheck
    obtain ⟨v, hv⟩ := Option.isSome_iff_exists.mp hlisted.1
    obtain ⟨c, hc, hname⟩ := h.present hcheck
    refine (h.meets_iff hcol hlisted hc hname).2.mpr ⟨v, hname ▸ hv, hholds c hc v ?_⟩
    rw [hname]
    rcases nodeChecks_dict hcheck with hd | hd
    · exact .inl (hd ▸ hv)
    · exact .inr (hd ▸ hv)

/-- A documented policy is compiled to the values of its predicates in any order of the clauses, and
the use case that checks the nodes grants it exactly if the key is known and all clauses hold. -/
theorem compile_preserves_meaning (rt : Runtime) (p : DataAccessPolicy) (now : Str) (log : Log)
    (clauses : List Clause) (k q : Str) (h : Documented clauses k q) :
    ∃ d, compilePolicy (policyText clauses) = .ok (some d) ∧
      (∀ c ∈ clauses, d.get? c.name = entryOf c.name c.values) ∧
      (∀ name ∈ d.keys, name ∈ clauses.map Clause.name) ∧
      (∀ clauses', clauses'.Perm clauses →
        ∃ d', compilePolicy (policyText clauses') = .ok (some d') ∧ d'.Same d) ∧
      ∃ granted, ((runRiskAgnoUseCase rt ⟨some p, now⟩ (some d)).exec log).1 = .ok granted ∧
        (granted = true ↔ k ∈ p.sessionKeyIs ∧ ∀ c ∈ clauses, c.Holds) := by
  obtain ⟨d, hd, hcol, hcompiled⟩ := h.compile
  refine ⟨d, hd, fun c hc => ?_, fun name hname => ?_, fun clauses' hperm => ?_, ?_⟩
  · rw [hcol, values_itemsOf h.distinct hc]
  · by_contra hn
    have hmem := (hcol.mem_keys name).mp hname
    exact Dict.values_ne_nil_iff.mpr hmem (values_itemsOf_of_not_mem hn)
  · obtain ⟨d', hd', hcol', -⟩ := (h.perm hperm).compile
    refine ⟨d', hd', fun name => ?_⟩
    rw [hcol, hcol', values_itemsOf_perm h.distinct hperm]
  · have hsettled : Settled d nodeChecks := by
      refine settled_of_present fun check hcheck => ?_
      obtain ⟨c, hc, hname⟩ := h.present hcheck
      exact (h.meets_iff hcol (listed_nodeChecks check hcheck) hc hname).1
    rw [exec_runRiskAgnoUseCase rt rfl hcompiled, ← h.meets_all_iff hcol]
    rcases hcol.offersAll_cases listed_nodeChecks with ⟨hn, -⟩ | ⟨-, b, hb, hiff⟩
    · exact absurd hsettled hn
    · rw [hb]
      by_cases hk : k ∈ p.sessionKeyIs
      · refine ⟨b, ?_, by simp [hk, hiff]⟩
        cases b <;> simp [hk]
      · exact ⟨false, by simp [hk], by simp [hk]⟩

theorem compile_preserves_sample :
    ∃ clauses, Documented clauses ['k'] ['q'] ∧
      ∃ d, compilePolicy (policyText clauses) = .ok (some d) := by
  have hdoc : Documented
      [⟨sessionKeyIs, [['k']], by decide, by decide, by decide⟩,
        ⟨storageLocIs, ["uk".toList, "de".toList], by decide, by decide, by decide⟩,
        ⟨storageFwVersionIs, ["latest".toList], by decide, by decide, by decide⟩,
        ⟨hostLocIs, ["de".toList, "uk".toList], by decide, by decide, by decide⟩,
        ⟨hostFwVersionIs, ["latest".toList], by decide, by decide, by decide⟩,
        ⟨query, [['q']], by decide, by decide, by decide⟩] ['k'] ['q'] :=
    ⟨by decide, ⟨_, List.mem_cons_self, rfl, rfl⟩, ⟨_, List.mem_of_getElem? (i := 5) rfl, rfl, rfl⟩,
      by decide⟩
  obtain ⟨d, hd, -⟩ := compile_preserves_meaning asciiRuntime ⟨[['k']], [], []⟩ [] none _ _ _ hdoc
  exact ⟨_, hdoc, d, hd⟩

end Meaning

end IronSafe.Policy
