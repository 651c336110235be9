import Mathlib

/-! Replacing every occurrence of a pattern in a text, and lower case. -/
namespace IronSafe.Text

section Infix

variable {α : Type*} {old : List α}

lemma prefix_append_cons {m : α} (hm : m ∉ old) (a b : List α) :
    old <+: a ++ m :: b ↔ old <+: a := by
  refine ⟨fun h => ?_, fun h => h.trans (List.prefix_append a _)⟩
  rcases List.prefix_or_prefix_of_prefix h (List.prefix_append a (m :: b)) with h' | ⟨t, rfl⟩
  · exact h'
  · cases t with
    | nil => simp
    | cons x t =>
      have hx := (List.prefix_append_right_inj a).mp h
      rw [List.cons_prefix_cons] at hx
      exact absurd (by simp [hx.1]) hm

lemma infix_append_cons {m : α} (hm : m ∉ old) (a b : List α) :
    old <:+: a ++ m :: b ↔ old <:+: a ∨ old <:+: b := by
  induction a with
  | nil =>
    have hprefix := prefix_append_cons hm [] b
    rw [List.nil_append] at hprefix
    rw [List.nil_append, List.infix_cons_iff, hprefix, List.prefix_nil, List.infix_nil]
  | cons c a ih =>
    rw [List.cons_append, List.infix_cons_iff, ih, ← List.cons_append, prefix_append_cons hm,
      List.infix_cons_iff, or_assoc]

/-- The first occurrence of `m` cuts a text in one way. -/
lemma append_cons_inj {m : α} {a b s t : List α} (ha : m ∉ a) (hb : m ∉ b)
    (h : a ++ m :: s = b ++ m :: t) : a = b ∧ s = t := by
  induction a generalizing b with
  | nil =>
    cases b with
    | nil => exact ⟨rfl, (List.cons.inj h).2⟩
    | cons x b => exact absurd (by simp [(List.cons.inj h).1]) hb
  | cons x a ih =>
    cases b with
    | nil => exact absurd (by simp [(List.cons.inj h).1]) ha
    | cons y b =>
      obtain ⟨rfl, h'⟩ := List.cons.inj h
      obtain ⟨rfl, rfl⟩ := ih (fun hm => ha (by simp [hm])) (fun hm => hb (by simp [hm])) h'
      exact ⟨rfl, rfl⟩

end Infix

section Replace

variable {α : Type*} [DecidableEq α]

/-- Copy a text and put `new` for each occurrence of `old`, from left to right. The first `skip`
characters belong to an occurrence that has been replaced. -/
def replaceFrom (old new : List α) : ℕ → List α → List α
  | _, [] => []
  | skip+1, _ :: s => replaceFrom old new skip s
  | 0, c :: s =>
    if old <+: c :: s then new ++ replaceFrom old new (old.length - 1) s
    else c :: replaceFrom old new 0 s

/-- `s.replace(old, new)` for a pattern `old` that is not empty. The empty one, which Python finds
between any two characters, is never asked for. -/
def replace (old new s : List α) : List α := replaceFrom old new 0 s

variable {old new : List α}

@[simp] lemma replace_nil : replace old new [] = [] := rfl

lemma replaceFrom_eq (skip : ℕ) (s : List α) :
    replaceFrom old new skip s = replace old new (s.drop skip) := by
  induction s generalizing skip with
  | nil => simp [replaceFrom]
  | cons c s ih =>
    cases skip with
    | zero => rfl
    | succ skip => rw [replaceFrom, ih, List.drop_succ_cons]

lemma replace_cons_of_not {c : α} {s : List α} (h : ¬ old <+: c :: s) :
    replace old new (c :: s) = c :: replace old new s := by
  rw [replace, replaceFrom, if_neg h]
  rfl

lemma replace_old_append (hold : old ≠ []) (s : List α) :
    replace old new (old ++ s) = new ++ replace old new s := by
  obtain ⟨c, old, rfl⟩ := List.exists_cons_of_ne_nil hold
  have hprefix : c :: old <+: c :: (old ++ s) := List.prefix_append (c :: old) s
  rw [List.cons_append, replace, replaceFrom, if_pos hprefix, replaceFrom_eq]
  simp

lemma replace_old (hold : old ≠ []) : replace old new old = new := by
  simpa using replace_old_append hold ([] : List α)

lemma replace_of_absent {s : List α} (h : ¬ old <:+: s) : replace old new s = s := by
  induction s with
  | nil => rfl
  | cons c s ih =>
    rw [List.infix_cons_iff, not_or] at h
    rw [replace_cons_of_not h.1, ih h.2]

/-- Induction along the occurrences of a pattern. -/
lemma replace_induction (hold : old ≠ []) {motive : List α → Prop} (nil : motive [])
    (found : ∀ s, motive s → motive (old ++ s))
    (copied : ∀ c s, ¬ old <+: c :: s → motive s → motive (c :: s)) (s : List α) : motive s := by
  have hpos := List.length_pos_of_ne_nil hold
  induction hn : s.length using Nat.strong_induction_on generalizing s with
  | _ n ih =>
    subst hn
    cases s with
    | nil => exact nil
    | cons c s =>
      by_cases h : old <+: c :: s
      · obtain ⟨t, ht⟩ := h
        rw [← ht] at ih ⊢
        exact found t (ih t.length (by rw [List.length_append]; omega) t rfl)
      · exact copied c s h (ih s.length (by simp) s rfl)

lemma length_le_replace (hold : old ≠ []) (hlen : old.length ≤ new.length) (s : List α) :
    s.length ≤ (replace old new s).length := by
  induction s using replace_induction hold with
  | nil => simp
  | found s ih =>
    rw [replace_old_append hold, List.length_append, List.length_append]
    omega
  | copied c s h ih =>
    rw [replace_cons_of_not h, List.length_cons, List.length_cons]
    omega

lemma length_lt_replace (hold : old ≠ []) (hlen : old.length < new.length) {s : List α}
    (hs : old <:+: s) : s.length < (replace old new s).length := by
  induction s using replace_induction hold with
  | nil => exact absurd (List.infix_nil.mp hs) hold
  | found s _ =>
    have hle := length_le_replace hold hlen.le s
    rw [replace_old_append hold, List.length_append, List.length_append]
    omega
  | copied c s h ih =>
    have hlt := ih ((List.infix_cons_iff.mp hs).resolve_left h)
    rw [replace_cons_of_not h, List.length_cons, List.length_cons]
    omega

/-- A character that is not in the pattern separates the text. -/
lemma replace_append_cons (hold : old ≠ []) {m : α} (hm : m ∉ old) (a b : List α) :
    replace old new (a ++ m :: b) = replace old new a ++ m :: replace old new b := by
  induction a using replace_induction hold with
  | nil =>
    have hnot : ¬ old <+: m :: b :=
      fun h => hold (List.prefix_nil.mp ((prefix_append_cons hm [] b).mp h))
    rw [List.nil_append, replace_cons_of_not hnot]
    rfl
  | found a ih =>
    rw [List.append_assoc, replace_old_append hold, ih, replace_old_append hold, List.append_assoc]
  | copied c a h ih =>
    have hnot : ¬ old <+: c :: (a ++ m :: b) := by
      rw [← List.cons_append, prefix_append_cons hm]
      exact h
    rw [List.cons_append, replace_cons_of_not hnot, ih, replace_cons_of_not h, List.cons_append]

end Replace

section Patterns

variable {α : Type*} [DecidableEq α] {new : List α → List α} {olds : List (List α)}

/-- Replace patterns one after the other, each by its own text. -/
def replaceAll (new : List α → List α) (olds : List (List α)) (s : List α) : List α :=
  olds.foldl (fun s old => replace old (new old) s) s

/-- Every pattern is replaced by a longer text. -/
structure Growing (new : List α → List α) (olds : List (List α)) : Prop where
  ne_nil : ∀ old ∈ olds, old ≠ []
  grows : ∀ old ∈ olds, old.length < (new old).length

omit [DecidableEq α] in
lemma Growing.cons {old : List α} (h : Growing new (old :: olds)) :
    old ≠ [] ∧ old.length < (new old).length ∧ Growing new olds :=
  ⟨h.ne_nil old List.mem_cons_self, h.grows old List.mem_cons_self,
    fun o ho => h.ne_nil o (List.mem_cons_of_mem _ ho),
    fun o ho => h.grows o (List.mem_cons_of_mem _ ho)⟩

lemma replaceAll_cons (old : List α) (olds : List (List α)) (s : List α) :
    replaceAll new (old :: olds) s = replaceAll new olds (replace old (new old) s) := rfl

lemma replaceAll_append (olds olds' : List (List α)) (s : List α) :
    replaceAll new (olds ++ olds') s = replaceAll new olds' (replaceAll new olds s) :=
  List.foldl_append

lemma Growing.length_le (h : Growing new olds) (s : List α) :
    s.length ≤ (replaceAll new olds s).length := by
  induction olds generalizing s with
  | nil => exact le_refl _
  | cons old olds ih =>
    obtain ⟨hne, hlt, hrest⟩ := h.cons
    exact (length_le_replace hne hlt.le s).trans (ih hrest _)

lemma replaceAll_of_absent {s : List α} (h : ∀ old ∈ olds, ¬ old <:+: s) :
    replaceAll new olds s = s := by
  induction olds with
  | nil => rfl
  | cons old olds ih =>
    obtain ⟨hold, hrest⟩ := List.forall_mem_cons.mp h
    rw [replaceAll_cons, replace_of_absent hold, ih hrest]

/-- A text that does not grow has no occurrence of any pattern. -/
lemma Growing.absent (h : Growing new olds) {s : List α}
    (hlen : (replaceAll new olds s).length ≤ s.length) : ∀ old ∈ olds, ¬ old <:+: s := by
  induction olds with
  | nil => simp
  | cons old olds ih =>
    obtain ⟨hne, hlt, hrest⟩ := h.cons
    rw [replaceAll_cons] at hlen
    have hold : ¬ old <:+: s := by
      intro hin
      have hgrows := length_lt_replace hne hlt hin
      have hle := hrest.length_le (replace old (new old) s)
      omega
    rw [replace_of_absent hold] at hlen
    exact List.forall_mem_cons.mpr ⟨hold, ih hrest hlen⟩

lemma Growing.eq_self_iff (h : Growing new olds) {s : List α} :
    replaceAll new olds s = s ↔ ∀ old ∈ olds, ¬ old <:+: s :=
  ⟨fun heq => h.absent (by rw [heq]), replaceAll_of_absent⟩

lemma Growing.replaceAll_append_cons (h : Growing new olds) {m : α} (hm : ∀ old ∈ olds, m ∉ old)
    (a b : List α) :
    replaceAll new olds (a ++ m :: b) = replaceAll new olds a ++ m :: replaceAll new olds b := by
  induction olds generalizing a b with
  | nil => rfl
  | cons old olds ih =>
    obtain ⟨hne, -, hrest⟩ := h.cons
    obtain ⟨hold, holds⟩ := List.forall_mem_cons.mp hm
    rw [replaceAll_cons, replace_append_cons hne hold, ih hrest holds]
    rfl

end Patterns

section Lower

/-- Lower case: every character becomes one or more characters, which may depend on the text
around it. -/
structure CaseMap where
  lowerAt : List Char → Char → List Char → List Char
  ne_nil : ∀ before c after, lowerAt before c after ≠ []
  ascii : ∀ before c after, c.toNat < 128 → lowerAt before c after = [c.toLower]

namespace CaseMap

variable (m : CaseMap)

/-- A part of a text in lower case. -/
def lowerIn : List Char → List Char → List Char → List Char
  | _, [], _ => []
  | before, c :: s, after => m.lowerAt before c (s ++ after) ++ lowerIn (before ++ [c]) s after

def lower (s : List Char) : List Char := m.lowerIn [] s []

lemma lowerIn_append (before s t after : List Char) :
    m.lowerIn before (s ++ t) after = m.lowerIn before s (t ++ after) ++
      m.lowerIn (before ++ s) t after := by
  induction s generalizing before with
  | nil => simp [lowerIn]
  | cons c s ih => simp [lowerIn, ih]

lemma length_le_lowerIn (before s after : List Char) :
    s.length ≤ (m.lowerIn before s after).length := by
  induction s generalizing before with
  | nil => exact Nat.zero_le _
  | cons c s ih =>
    have hpos := List.length_pos_of_ne_nil (m.ne_nil before c (s ++ after))
    have hle := ih (before ++ [c])
    rw [lowerIn, List.length_append, List.length_cons]
    omega

lemma lowerIn_ascii {s : List Char} (h : ∀ c ∈ s, c.toNat < 128) (before after : List Char) :
    m.lowerIn before s after = s.map Char.toLower := by
  induction s generalizing before with
  | nil => rfl
  | cons c s ih =>
    obtain ⟨hc, hs⟩ := List.forall_mem_cons.mp h
    rw [lowerIn, m.ascii _ _ _ hc, ih hs]
    rfl

lemma lower_ascii {s : List Char} (h : ∀ c ∈ s, c.toNat < 128) : m.lower s = s.map Char.toLower :=
  m.lowerIn_ascii h [] []

end CaseMap

/-- Lower case for the letters of ASCII only. -/
def asciiCase : CaseMap where
  lowerAt _ c _ := [c.toLower]
  ne_nil := by simp
  ascii := by simp

end Lower

end IronSafe.Text
