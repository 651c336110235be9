import Mathlib

/-! Dictionaries that keep their keys in the order in which they were first set. -/
namespace IronSafe

structure Dict (κ β : Type*) where
  entries : List (κ × β)
  nodup : (entries.map Prod.fst).Nodup

namespace Dict

variable {κ β γ : Type*} [DecidableEq κ]

def empty : Dict κ β := ⟨[], List.nodup_nil⟩

def keys (d : Dict κ β) : List κ := d.entries.map Prod.fst

def find (k : κ) : List (κ × β) → Option β
  | [] => none
  | e :: es => if e.1 = k then some e.2 else find k es

def get? (d : Dict κ β) (k : κ) : Option β := find k d.entries

/-- A key that is there keeps its place. -/
def put (k : κ) (v : β) : List (κ × β) → List (κ × β)
  | [] => [(k,v)]
  | e :: es => if e.1 = k then (k,v) :: es else e :: put k v es

lemma map_fst_put (k : κ) (v : β) (es : List (κ × β)) :
    (put k v es).map Prod.fst =
      if k ∈ es.map Prod.fst then es.map Prod.fst else es.map Prod.fst ++ [k] := by
  induction es with
  | nil => simp [put]
  | cons e es ih =>
    rw [put]
    split_ifs with he hk hk
    · simp [he]
    · simp [he] at hk
    · have hmem : k ∈ es.map Prod.fst := by simpa [Ne.symm he] using hk
      simp [ih, hmem]
    · have hmem : k ∉ es.map Prod.fst := fun h => hk (List.mem_cons_of_mem _ h)
      simp [ih, hmem]

lemma nodup_put (k : κ) (v : β) {es : List (κ × β)} (h : (es.map Prod.fst).Nodup) :
    ((put k v es).map Prod.fst).Nodup := by
  rw [map_fst_put]
  split_ifs with hk
  · exact h
  · rw [← List.concat_eq_append]
    exact List.Nodup.concat hk h

def set (d : Dict κ β) (k : κ) (v : β) : Dict κ β := ⟨put k v d.entries, nodup_put k v d.nodup⟩

/-- Append to the list under a key. -/
def push (d : Dict κ (List β)) (k : κ) (v : β) : Dict κ (List β) :=
  match d.get? k with
  | none => d.set k [v]
  | some vs => d.set k (vs ++ [v])

def mapVal (f : β → γ) (d : Dict κ β) : Dict κ γ :=
  ⟨d.entries.map fun e => (e.1, f e.2), by simpa [Function.comp_def] using d.nodup⟩

/-- Equal as dictionaries, whatever the order of the keys. -/
def Same (d d' : Dict κ β) : Prop := ∀ k, d.get? k = d'.get? k

lemma find_put (k k' : κ) (v : β) (es : List (κ × β)) :
    find k' (put k v es) = if k = k' then some v else find k' es := by
  induction es with
  | nil => rfl
  | cons e es ih =>
    rw [put]
    split_ifs with he hk hk
    · simp [find, hk]
    · simp [find, hk, he]
    · simp only [find, ih]
      simp [hk ▸ he, hk]
    · simp only [find, ih, if_neg hk]

@[simp] lemma get?_set_self (d : Dict κ β) (k : κ) (v : β) : (d.set k v).get? k = some v := by
  simp [get?, set, find_put]

lemma get?_set_of_ne (d : Dict κ β) {k k' : κ} (h : k ≠ k') (v : β) :
    (d.set k v).get? k' = d.get? k' := by
  simp [get?, set, find_put, h]

lemma get?_mapVal (f : β → γ) (d : Dict κ β) (k : κ) : (d.mapVal f).get? k = (d.get? k).map f := by
  have hfind : ∀ es : List (κ × β), find k (es.map fun e => (e.1, f e.2)) = (find k es).map f := by
    intro es
    induction es with
    | nil => rfl
    | cons e es ih =>
      simp only [List.map_cons, find, ih]
      split_ifs <;> rfl
  exact hfind d.entries

lemma mem_keys_iff (d : Dict κ β) (k : κ) : k ∈ d.keys ↔ (d.get? k).isSome := by
  have hfind : ∀ es : List (κ × β), k ∈ es.map Prod.fst ↔ (find k es).isSome := by
    intro es
    induction es with
    | nil => simp [find]
    | cons e es ih =>
      rw [List.map_cons, List.mem_cons, ih, find]
      split_ifs with he
      · simp [he]
      · simp [Ne.symm he]
  exact hfind d.entries

/-- The values under a key, in order. -/
def values (k : κ) (kvs : List (κ × β)) : List β := (kvs.filter fun kv => kv.1 = k).map Prod.snd

@[simp] lemma values_nil (k : κ) : values k ([] : List (κ × β)) = [] := rfl

lemma values_cons (k : κ) (kv : κ × β) (kvs : List (κ × β)) :
    values k (kv :: kvs) = if kv.1 = k then kv.2 :: values k kvs else values k kvs := by
  rw [values, List.filter_cons]
  split_ifs with h1 h2 h2 <;> simp_all [values]

lemma values_append (k : κ) (kvs kvs' : List (κ × β)) :
    values k (kvs ++ kvs') = values k kvs ++ values k kvs' := by
  simp [values]

lemma mem_values {k : κ} {v : β} {kvs : List (κ × β)} : v ∈ values k kvs ↔ (k,v) ∈ kvs := by
  simp [values]

lemma values_ne_nil_iff {k : κ} {kvs : List (κ × β)} :
    values k kvs ≠ [] ↔ k ∈ kvs.map Prod.fst := by
  simp [values]

/-- A list under a key that may be missing. -/
def listed (vs : List β) : Option (List β) := if vs = [] then none else some vs

lemma get?_push (d : Dict κ (List β)) (k k' : κ) (v : β) :
    (d.push k v).get? k' = if k = k' then some ((d.get? k).getD [] ++ [v]) else d.get? k' := by
  rw [push]
  split_ifs with hk
  · subst hk
    cases hget : d.get? k <;> simp
  · cases hget : d.get? k <;> simp [get?_set_of_ne _ hk]

/-- Grouping pairs by their keys lists the values of each key in order. -/
theorem get?_foldl_push (kvs : List (κ × β)) (k : κ) :
    (kvs.foldl (fun d kv => d.push kv.1 kv.2) empty).get? k = listed (values k kvs) := by
  induction kvs using List.reverseRecOn with
  | nil => rfl
  | append_singleton kvs kv ih =>
    rw [List.foldl_concat, get?_push, values_append, values_cons, values_nil]
    split_ifs with hk
    · subst hk
      rw [ih, listed, listed]
      split_ifs with h1 h2 <;> simp_all
    · rw [ih, List.append_nil]

end Dict

end IronSafe
