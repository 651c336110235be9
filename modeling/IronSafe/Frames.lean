import Mathlib

/-! Frames that lie one after the other in a buffer, read by a decoder that returns how far to
go on. The reader keeps its place if and only if the stride of every frame is its length. -/
namespace IronSafe.Frames

variable {α β γ : Type*}

/-- Read `left` records from offset `temp` on. Each record comes with the offset behind it. -/
def walk (dec : List γ → Option (β × ℕ)) (data : List γ) : ℕ → ℕ → Option (List (β × ℕ))
  | 0, _ => some []
  | left+1, temp =>
    match dec (data.drop temp) with
    | none => none
    | some (record,step) =>
      match walk dec data left (temp+step) with
      | none => none
      | some records => some ((record,temp+step) :: records)

lemma walk_succ_eq_some {dec : List γ → Option (β × ℕ)} {data : List γ} {left temp : ℕ}
    {records : List (β × ℕ)} (h : walk dec data (left+1) temp = some records) :
    ∃ m step others, dec (data.drop temp) = some (m,step) ∧
      walk dec data left (temp+step) = some others ∧ records = (m,temp+step) :: others := by
  rw [walk] at h
  split at h
  · cases h
  · rename_i m step hdec
    split at h
    · cases h
    · rename_i others hrest
      exact ⟨m, step, others, hdec, hrest, (Option.some.inj h).symm⟩

/-- The offsets behind the frames of a buffer. -/
def ends (temp : ℕ) : List (List γ) → List ℕ
  | [] => []
  | frame :: frames => (temp + frame.length) :: ends (temp + frame.length) frames

@[simp] lemma ends_length (temp : ℕ) (frames : List (List γ)) :
    (ends temp frames).length = frames.length := by
  induction frames generalizing temp with
  | nil => rfl
  | cons frame frames ih => simp [ends, ih]

/-- What a decoder makes of the frames of an encoder: the good items are read back with the right
stride, whatever follows them, and the others are not. -/
structure Strides (enc : α → List γ) (dec : List γ → Option (β × ℕ)) (out : α → β)
    (good : α → Prop) : Prop where
  read : ∀ a tail, good a → dec (enc a ++ tail) = some (out a, (enc a).length)
  lost : ∀ a tail m, ¬ good a → dec (enc a ++ tail) ≠ some (m, (enc a).length)

section Walk

variable {enc : α → List γ} {dec : List γ → Option (β × ℕ)} {out : α → β} {good : α → Prop}

/-- The reader stands in front of the first frame. -/
lemma drop_before (a : α) (items : List α) (before rest : List γ) :
    (before ++ ((a :: items).map enc).flatten ++ rest).drop before.length =
      enc a ++ ((items.map enc).flatten ++ rest) := by
  simp [List.append_assoc]

lemma split_first (a : α) (items : List α) (before rest : List γ) :
    before ++ ((a :: items).map enc).flatten ++ rest = (before ++ enc a) ++
      (items.map enc).flatten ++ rest := by
  simp [List.append_assoc]

lemma Strides.walk_eq (h : Strides enc dec out good) (items : List α) (hgood : ∀ a ∈ items, good a)
    (before rest : List γ) :
    walk dec (before ++ (items.map enc).flatten ++ rest) items.length before.length =
      some ((items.map out).zip (ends before.length (items.map enc))) := by
  induction items generalizing before with
  | nil => rfl
  | cons a items ih =>
    have hnext := ih (fun x hx => hgood x (by simp [hx])) (before ++ enc a)
    rw [List.length_append] at hnext
    rw [List.length_cons, walk, drop_before, h.read a _ (hgood a (by simp))]
    dsimp only
    rw [split_first, hnext]
    rfl

/-- The reader stands behind every frame of the buffer in turn if and only if all are good. -/
theorem Strides.walk_keeps_place_iff (h : Strides enc dec out good) (items : List α)
    (before rest : List γ) :
    (∃ records, walk dec (before ++ (items.map enc).flatten ++ rest) items.length before.length =
      some records ∧
      records.map Prod.snd = ends before.length (items.map enc)) ↔ ∀ a ∈ items, good a := by
  constructor
  · rintro ⟨records, hwalk, hends⟩
    induction items generalizing before records with
    | nil => simp
    | cons a items ih =>
      obtain ⟨m, step, others, hdec, hrest, rfl⟩ := walk_succ_eq_some hwalk
      simp only [List.map_cons, ends, List.cons.injEq] at hends
      obtain ⟨hstep, hends⟩ := hends
      obtain rfl : step = (enc a).length := by omega
      rw [drop_before] at hdec
      rw [split_first, ← List.length_append] at hrest
      rw [← List.length_append] at hends
      have ha : good a := by
        by_contra hbad
        exact h.lost a _ m hbad hdec
      exact List.forall_mem_cons.mpr ⟨ha, ih _ _ hrest hends⟩
  · intro hgood
    refine ⟨_, h.walk_eq items hgood before rest, ?_⟩
    exact List.map_snd_zip (by simp)

end Walk

end IronSafe.Frames
