import Mathlib

/-! Binary hash trees over any number of leaves. A node without a right child is not
hashed: the digest of its left child is promoted unchanged. The library says how many
nodes each level has, how appending a leaf changes the digests, and that a path digest
determines its leaf as long as the pairs hashed on the path do not collide. -/
namespace IronSafe.RaggedTree

/-- Number of nonempty nodes at level `l` over `n` leaves. -/
def span : ℕ → ℕ → ℕ
  | 0, n => n
  | l+1, n => (span l n + 1)/2

/-- A node exists at level `l` exactly when its first leaf exists. -/
lemma lt_span_iff (l : ℕ) {n j : ℕ} : j < span l n ↔ j*2^l < n := by
  induction l generalizing j with
  | zero => simp [span]
  | succ l ih =>
    have h2 : j < span (l+1) n ↔ 2*j < span l n := by simp only [span]; omega
    rw [h2, ih, show 2*j*2^l = j*2^(l+1) by ring]

/-- Number of nodes at level `l` that have a right child; every leaf counts. -/
def kept : ℕ → ℕ → ℕ
  | 0, n => n
  | l+1, n => span l n / 2

lemma span_mono (l : ℕ) {m n : ℕ} (h : m ≤ n) : span l m ≤ span l n := by
  induction l with
  | zero => exact h
  | succ l ih => simp only [span]; omega

lemma kept_mono (l : ℕ) {m n : ℕ} (h : m ≤ n) : kept l m ≤ kept l n := by
  cases l with
  | zero => exact h
  | succ l => exact Nat.div_le_div_right (span_mono l h)

/-- A property of all levels from `l` on, one level at a time. -/
lemma forall_levels_iff {P : ℕ → Prop} {l : ℕ} : (∀ k, l ≤ k → P k) ↔ P l ∧ ∀ k, l+1 ≤ k → P k := by
  constructor
  · exact fun h => ⟨h l le_rfl, fun k hk => h k (by omega)⟩
  · rintro ⟨hl, h⟩ k hk
    rcases Nat.eq_or_lt_of_le hk with rfl | hlt
    · exact hl
    · exact h k hlt

/-- Index of the level `l` ancestor of leaf `i`. -/
def path : ℕ → ℕ → ℕ
  | 0, i => i
  | l+1, i => path l i / 2

lemma span_pos {n : ℕ} (hn : 0 < n) (l : ℕ) : 0 < span l n := by
  induction l with
  | zero => exact hn
  | succ l ih => simp only [span]; omega

lemma span_zero_right (l : ℕ) : span l 0 = 0 := by
  induction l with
  | zero => rfl
  | succ l ih => simp [span, ih]

lemma span_le_one_iff (l n : ℕ) : span l n ≤ 1 ↔ n ≤ 2^l := by
  have h : ∀ m, span l n ≤ m ↔ n ≤ m*2^l := by
    induction l with
    | zero => simp [span]
    | succ l ih =>
      intro m
      have hm := ih (2*m)
      rw [show 2*m*2^l = m*2^(l+1) by ring] at hm
      rw [← hm, span]
      omega
  simpa using h 1

lemma path_lt_span {i n : ℕ} (h : i < n) (l : ℕ) : path l i < span l n := by
  induction l with
  | zero => exact h
  | succ l ih => simp only [path, span]; omega

lemma path_last (l n : ℕ) : path l n + 1 = span l (n+1) := by
  induction l with
  | zero => rfl
  | succ l ih => simp only [path, span]; omega

lemma span_succ (l n : ℕ) : span l n ≤ span l (n+1) ∧ span l (n+1) ≤ span l n + 1 := by
  induction l with
  | zero => simp [span]
  | succ l ih => simp only [span]; omega

lemma span_le (l n : ℕ) : span l n ≤ n := by
  induction l with
  | zero => rfl
  | succ l ih => simp only [span]; omega

lemma path_mul_le (l i : ℕ) : path l i * 2^l ≤ i := by
  induction l with
  | zero => simp [path]
  | succ l ih =>
    have hd : path l i / 2 * 2 ≤ path l i := Nat.div_mul_le_self _ _
    calc path l i / 2 * 2^(l+1) = path l i / 2 * 2 * 2^l := by ring
      _ ≤ path l i * 2^l := Nat.mul_le_mul_right _ hd
      _ ≤ i := ih

lemma path_eq_div (l i : ℕ) : path l i = i/2^l := by
  induction l with
  | zero => simp [path]
  | succ l ih => rw [path, ih, Nat.div_div_eq_div_mul, Nat.pow_succ]

/-- An odd last node is the first one above its level if and only if its leaves are complete. -/
lemma path_half_eq_kept_iff {l n : ℕ} (ho : path l n % 2 = 1) :
    path l n / 2 = span l n / 2 ↔ n = 2^l*path l n := by
  have hlast := path_last l n
  have hsucc := span_succ l n
  have hlt := lt_span_iff l (n := n) (j := path l n)
  have hle := path_mul_le l n
  rw [Nat.mul_comm] at hle hlt
  omega

lemma path_add_eq_zero {l n : ℕ} (h : path l n = 0) (m : ℕ) : path (l+m) n = 0 := by
  induction m with
  | zero => exact h
  | succ m ih => rw [← Nat.add_assoc, path, ih]

/-- Left of the path of the last leaf every node has both children. -/
lemma path_le_kept (l n : ℕ) : path l n ≤ kept l (n+1) := by
  cases l with
  | zero => simp [path, kept]
  | succ l =>
    have h := path_last l n
    simp only [path, kept]
    omega

lemma kept_le_span (l n : ℕ) : kept l n ≤ span l n := by
  cases l <;> simp only [kept, span] <;> omega

lemma kept_zero_right (l : ℕ) : kept l 0 = 0 := by
  cases l <;> simp [kept, span_zero_right]

/-- Inner nodes telescope: up to level `L` there are as many as there are leaves, less
the nodes of level `L`. -/
lemma sum_kept (L n : ℕ) : (∑ l ∈ Finset.range (L+1), kept l n) + span L n = 2*n := by
  induction L with
  | zero => simp [kept, span]; ring
  | succ L ih =>
    rw [Finset.sum_range_succ]
    simp only [kept, span] at *
    omega

section Digests
variable {D : Type*} (H : D → D → D)

def join : Option D → Option D → Option D
  | some a, some b => some (H a b)
  | some a, none => some a
  | none, _ => none

/-- Digest of the node `j` of level `l`, absent when no leaf lies below it. -/
def node (ls : List D) : ℕ → ℕ → Option D
  | 0, j => ls[j]?
  | l+1, j => join H (node ls l (2*j)) (node ls l (2*j+1))

lemma node_isSome (ls : List D) (l j : ℕ) :
    (node H ls l j).isSome ↔ j < span l ls.length := by
  induction l generalizing j with
  | zero => simp [node, span]
  | succ l ih =>
    have hl := ih (2*j)
    simp only [node, span]
    cases hn : node H ls l (2*j) with
    | none =>
      simp only [hn, join, Option.isSome_none, Bool.false_eq_true, false_iff] at *
      omega
    | some a =>
      cases node H ls l (2*j+1) <;>
        simp only [hn, join, Option.isSome_some, true_iff] at * <;> omega

lemma node_eq_none (ls : List D) {l j : ℕ} : node H ls l j = none ↔ span l ls.length ≤ j := by
  rw [← Option.not_isSome_iff_eq_none, node_isSome]
  omega

lemma exists_node (ls : List D) {l j : ℕ} (h : j < span l ls.length) :
    ∃ d, node H ls l j = some d := Option.isSome_iff_exists.mp ((node_isSome H ls l j).mpr h)

/-- Without a right child the digest is the one of the left child, one level down. -/
lemma node_promoted (ls : List D) {l j : ℕ} (h : kept (l+1) ls.length ≤ j) :
    node H ls (l+1) j = node H ls l (2*j) := by
  have hr : node H ls l (2*j+1) = none := by
    rw [node_eq_none]
    simp only [kept] at h
    omega
  simp only [node, hr]
  cases node H ls l (2*j) <;> rfl

/-- Appending a leaf changes digests on the path of the new leaf only. -/
lemma node_append_of_ne (ls : List D) (x : D) {l j : ℕ} (h : j ≠ path l ls.length) :
    node H (ls ++ [x]) l j = node H ls l j := by
  induction l generalizing j with
  | zero =>
    simp only [path] at h
    simp only [node, List.getElem?_append]
    split_ifs with hj
    · rfl
    · rw [List.getElem?_eq_none (by simp; omega), List.getElem?_eq_none (by omega)]
  | succ l ih =>
    simp only [path] at h
    simp only [node, ih (show 2*j ≠ path l ls.length by omega),
      ih (show 2*j+1 ≠ path l ls.length by omega)]

/-- Replacing a leaf changes digests on its path only. -/
lemma node_set_of_ne (ls : List D) (x : D) {i l j : ℕ} (h : j ≠ path l i) :
    node H (ls.set i x) l j = node H ls l j := by
  induction l generalizing j with
  | zero =>
    simp only [path] at h
    exact List.getElem?_set_ne h.symm
  | succ l ih =>
    simp only [path] at h
    simp only [node, ih (show 2*j ≠ path l i by omega), ih (show 2*j+1 ≠ path l i by omega)]

/-- One step up from the node `q` of level `l` with digest `d`. -/
def climb (ls : List D) (l q : ℕ) (d : D) : D :=
  if q % 2 = 0 then
    match node H ls l (q+1) with
    | some r => H d r
    | none => d
  else
    match node H ls l (q-1) with
    | some a => H a d
    | none => d

/-- The pair hashed by that step, if it hashes at all. -/
def climbPair (ls : List D) (l q : ℕ) (d : D) : List (D × D) :=
  if q % 2 = 0 then
    match node H ls l (q+1) with
    | some r => [(d,r)]
    | none => []
  else
    match node H ls l (q-1) with
    | some a => [(a,d)]
    | none => []

/-- Digest reached after `l` steps from the leaf position `i` with leaf digest `d`. -/
def digestAt (ls : List D) (i : ℕ) (d : D) : ℕ → D
  | 0 => d
  | l+1 => climb H ls l (path l i) (digestAt ls i d l)

/-- The pair hashed by step `l` of the way up from leaf position `i` with digest `d`. -/
def pathPair (ls : List D) (i : ℕ) (d : D) (l : ℕ) : List (D × D) :=
  climbPair H ls l (path l i) (digestAt H ls i d l)

lemma climb_node (ls : List D) {l q : ℕ} {d : D} (h : node H ls l q = some d) :
    node H ls (l+1) (q/2) = some (climb H ls l q d) := by
  have hq : q < span l ls.length := (node_isSome H ls l q).mp (by simp [h])
  by_cases he : q % 2 = 0
  · simp only [node, climb, if_pos he, show 2*(q/2) = q by omega, h]
    cases node H ls l (q+1) <;> rfl
  · obtain ⟨a, ha⟩ := exists_node H ls (show q-1 < span l ls.length by omega)
    simp only [node, climb, if_neg he, show 2*(q/2) = q-1 by omega, ha,
      show q-1+1 = q by omega, h, join]

/-- The steps from a leaf of the tree reproduce the digests of its ancestors. -/
lemma node_path (ls : List D) {i : ℕ} {d : D} (h : ls[i]? = some d) (l : ℕ) :
    node H ls l (path l i) = some (digestAt H ls i d l) := by
  induction l with
  | zero => exact h
  | succ l ih => exact climb_node H ls ih

/-- The steps up from a leaf use its siblings only, not the leaf itself. -/
lemma climb_set (ls : List D) (x : D) (i l : ℕ) (d : D) :
    climb H (ls.set i x) l (path l i) d = climb H ls l (path l i) d := by
  unfold climb
  split_ifs with he
  · rw [node_set_of_ne H ls x (by omega)]
  · rw [node_set_of_ne H ls x (by omega)]

lemma node_set_path (ls : List D) (x : D) {i : ℕ} (hi : i < ls.length) (l : ℕ) :
    node H (ls.set i x) l (path l i) = some (digestAt H ls i x l) := by
  have hdigest : digestAt H (ls.set i x) i x l = digestAt H ls i x l := by
    induction l with
    | zero => rfl
    | succ l ih => rw [digestAt, digestAt, ih, climb_set]
  rw [node_path H (ls.set i x) (List.getElem?_set_self hi), hdigest]

lemma climb_injective (ls : List D) {l q : ℕ} {d e : D}
    (hp : ∀ p ∈ climbPair H ls l q d, ∀ r ∈ climbPair H ls l q e,
      H p.1 p.2 = H r.1 r.2 → p = r)
    (h : climb H ls l q d = climb H ls l q e) : d = e := by
  unfold climb at h
  unfold climbPair at hp
  by_cases he : q % 2 = 0
  · simp only [if_pos he] at h hp
    cases hn : node H ls l (q+1) with
    | none => simpa only [hn] using h
    | some r =>
      simp only [hn] at h hp
      have := hp (d,r) (by simp) (e,r) (by simp) h
      exact congrArg Prod.fst this
  · simp only [if_neg he] at h hp
    cases hn : node H ls l (q-1) with
    | none => simpa only [hn] using h
    | some a =>
      simp only [hn] at h hp
      have := hp (a,d) (by simp) (a,e) (by simp) h
      exact congrArg Prod.snd this

/-- Two leaf digests with the same ancestor digest agree, unless the pairs hashed at some
level of the two paths collide. -/
theorem digestAt_injective (ls : List D) (i : ℕ) {d e : D} (l : ℕ)
    (hp : ∀ k < l, ∀ p ∈ pathPair H ls i d k, ∀ r ∈ pathPair H ls i e k,
      H p.1 p.2 = H r.1 r.2 → p = r)
    (h : digestAt H ls i d l = digestAt H ls i e l) : d = e := by
  induction l with
  | zero => exact h
  | succ l ih =>
    have hstep := climb_injective H ls (hp l (by omega)) h
    exact ih (fun k hk => hp k (by omega)) hstep

lemma climb_of_mem_climbPair (ls : List D) {l q : ℕ} {d : D} {p : D × D}
    (h : p ∈ climbPair H ls l q d) : climb H ls l q d = H p.1 p.2 := by
  unfold climbPair at h
  unfold climb
  split_ifs at h ⊢ with he
  · cases hn : node H ls l (q+1) with
    | none => simp [hn] at h
    | some r =>
      rw [hn, List.mem_singleton] at h
      rw [h]
  · cases hn : node H ls l (q-1) with
    | none => simp [hn] at h
    | some a =>
      rw [hn, List.mem_singleton] at h
      rw [h]

/-- From a level on which two path digests agree they agree on all levels above. -/
lemma digestAt_eq_of_le (ls : List D) (i : ℕ) {d e : D} {k l : ℕ} (hkl : k ≤ l)
    (h : digestAt H ls i d k = digestAt H ls i e k) :
    digestAt H ls i d l = digestAt H ls i e l := by
  induction l, hkl using Nat.le_induction with
  | base => exact h
  | succ l _ ih => rw [digestAt, digestAt, ih]

/-- Two leaf digests have the same ancestor digest if and only if they agree or pairs hashed on
their paths collide. -/
theorem digestAt_eq_iff (ls : List D) (i : ℕ) {d e : D} (l : ℕ) :
    digestAt H ls i d l = digestAt H ls i e l ↔
    d = e ∨ ∃ k < l, ∃ p ∈ pathPair H ls i d k, ∃ r ∈ pathPair H ls i e k, p ≠ r ∧
      H p.1 p.2 = H r.1 r.2 := by
  constructor
  · intro h
    by_contra hno
    rw [not_or] at hno
    refine hno.1 (digestAt_injective H ls i l (fun k hk p hp r hr heq => ?_) h)
    by_contra hne
    exact hno.2 ⟨k, hk, p, hp, r, hr, hne, heq⟩
  · rintro (rfl | ⟨k, hk, p, hp, r, hr, -, heq⟩)
    · rfl
    · apply digestAt_eq_of_le H ls i hk
      rw [digestAt, digestAt, climb_of_mem_climbPair H ls hp, climb_of_mem_climbPair H ls hr, heq]

/-- Pairs hashed at one level share their other member, so a hash that cancels on either
side does not collide there. -/
lemma pathPair_cancel (hl : ∀ a b c, H a b = H a c → b = c) (hr : ∀ a b c, H a c = H b c → a = b)
    (ls : List D) (i l : ℕ) {d e : D} : ∀ p ∈ pathPair H ls i d l, ∀ r ∈ pathPair H ls i e l,
      H p.1 p.2 = H r.1 r.2 → p = r := by
  unfold pathPair climbPair
  split_ifs with hq
  · cases node H ls l (path l i + 1) with
    | none => simp
    | some b => simpa using hr _ _ b
  · cases node H ls l (path l i - 1) with
    | none => simp
    | some a => simpa using hl a _ _

section Commitment

variable {ls ls' : List D} (hlen : ls.length = ls'.length)
include hlen

lemma node_isSome_congr (l j : ℕ) : (node H ls l j).isSome = (node H ls' l j).isSome := by
  rw [Bool.eq_iff_iff, node_isSome, node_isSome, hlen]

/-- The inner node `j` of level `l+1` has one digest in both trees, but not its children: they
collide. -/
def CollidesAt (ls ls' : List D) (l j : ℕ) : Prop :=
  ∃ a b c d, node H ls l (2*j) = some a ∧ node H ls l (2*j+1) = some b ∧
    node H ls' l (2*j) = some c ∧
    node H ls' l (2*j+1) = some d ∧ (a,b) ≠ (c,d) ∧ H a b = H c d

/-- Equal nodes have equal children unless these collide. -/
lemma children_eq {l j : ℕ} (h : node H ls (l+1) j = node H ls' (l+1) j)
    (hno : ¬ CollidesAt H ls ls' l j) :
    node H ls l (2*j) = node H ls' l (2*j) ∧ node H ls l (2*j+1) = node H ls' l (2*j+1) := by
  have hleft := node_isSome_congr H hlen l (2*j)
  have hright := node_isSome_congr H hlen l (2*j+1)
  have horder := node_isSome H ls l (2*j)
  have horder' := node_isSome H ls l (2*j+1)
  rw [node, node] at h
  rcases ha : node H ls l (2*j) with _ | a <;> rcases hc : node H ls' l (2*j) with _ | c <;>
    rcases hb : node H ls l (2*j+1) with _ | b <;> rcases hd : node H ls' l (2*j+1) with _ | d <;>
    simp only [ha, hb, hc, hd, Option.isSome_none, Option.isSome_some, reduceCtorEq, true_iff,
      Bool.false_eq_true, false_iff, not_lt] at hleft hright horder horder'
  · exact ⟨rfl, rfl⟩
  · omega
  · simp only [ha, hb, hc, hd, join, Option.some.injEq] at h
    exact ⟨congrArg some h, rfl⟩
  · simp only [ha, hb, hc, hd, join, Option.some.injEq] at h
    by_contra hne
    refine hno ⟨a, b, c, d, ha, hb, hc, hd, fun heq => hne ?_, h⟩
    obtain ⟨rfl, rfl⟩ := Prod.mk.inj heq
    exact ⟨rfl, rfl⟩

/-- Trees of one size that agree in a node agree in all leaves below it, or collide below it. -/
theorem leaves_eq_of_node {l j : ℕ} (h : node H ls l j = node H ls' l j)
    (hno : ∀ k < l, ∀ q, ¬ CollidesAt H ls ls' k q) : ∀ i, path l i = j → ls[i]? = ls'[i]? := by
  induction l generalizing j with
  | zero =>
    rintro i rfl
    exact h
  | succ l ih =>
    intro i hi
    obtain ⟨hleft, hright⟩ := children_eq H hlen h (hno l (by omega) j)
    simp only [path] at hi
    rcases Nat.mod_two_eq_zero_or_one (path l i) with he | ho
    · exact ih hleft (fun k hk => hno k (by omega)) i (by omega)
    · exact ih hright (fun k hk => hno k (by omega)) i (by omega)

end Commitment

end Digests

end IronSafe.RaggedTree
