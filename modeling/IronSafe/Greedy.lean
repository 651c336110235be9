import Mathlib

/-! The greedy partition of a sequence: a part takes elements as long as they fit into it, and the
next part begins with the first element that does not. -/
namespace IronSafe.Greedy

variable {α : Type*} (size : α → ℕ) (cap : ℕ)

def total (part : List α) : ℕ := (part.map size).sum

/-- The parts of a sequence whose first part has been begun. -/
def partsFrom : List α → List α → List (List α)
  | part, [] => [part]
  | part, x :: xs =>
    if total size part + size x ≤ cap then partsFrom (part ++ [x]) xs else part :: partsFrom [x] xs

def parts : List α → List (List α)
  | [] => []
  | x :: xs => partsFrom size cap [x] xs

/-- Whatever follows, the partition goes on from `done` and the part begun. -/
def Begins (done : List (List α)) (part : List α) : Prop :=
  ∀ rest, parts size cap (done.flatten ++ part ++ rest) = done ++ partsFrom size cap part rest

variable {size cap} {done : List (List α)} {part : List α}

lemma begins_singleton (x : α) : Begins size cap [] [x] := fun _ => rfl

lemma Begins.fits (h : Begins size cap done part) {x : α} (hx : total size part + size x ≤ cap) :
    Begins size cap done (part ++ [x]) := by
  intro rest
  have hrest := h (x :: rest)
  rw [partsFrom, if_pos hx] at hrest
  simpa using hrest

lemma Begins.cut (h : Begins size cap done part) {x : α} (hx : cap < total size part + size x) :
    Begins size cap (done ++ [part]) [x] := by
  intro rest
  have hrest := h (x :: rest)
  rw [partsFrom, if_neg (Nat.not_le.mpr hx)] at hrest
  simpa using hrest

lemma Begins.last (h : Begins size cap done part) :
    parts size cap (done.flatten ++ part) = done ++ [part] := by
  simpa [partsFrom] using h []

lemma Begins.first_parts (h : Begins size cap done part) (rest : List α) :
    done <+: parts size cap (done.flatten ++ part ++ rest) := by
  rw [h rest]
  exact List.prefix_append _ _

end IronSafe.Greedy
