import IronSafe.Bytes

/-! A sequence that is processed in blocks of one size. A processor that is fed piece by piece keeps
the state behind the full blocks and the rest that does not fill a block yet; both depend on the
sequence alone, not on the pieces. -/
namespace IronSafe.BlockStream
open Bytes

variable {α σ : Type*}

/-- The full blocks of a sequence. -/
def blocks (size : ℕ) (xs : List α) : List (List α) :=
  (List.range (xs.length/size)).map fun i => slice (i*size) size xs

/-- What is left of a sequence behind its full blocks. -/
def remainder (size : ℕ) (xs : List α) : List α := xs.drop (xs.length/size*size)

def processAll (size : ℕ) (process : σ → List α → σ) (s : σ) (xs : List α) : σ :=
  (blocks size xs).foldl process s

variable {size : ℕ} {xs ys : List α}

lemma remainder_length (xs : List α) : (remainder size xs).length = xs.length % size := by
  have h := Nat.div_add_mod xs.length size
  rw [Nat.mul_comm] at h
  rw [remainder, List.length_drop]
  omega

@[simp] lemma remainder_nil : remainder size ([] : List α) = [] := by simp [remainder]

@[simp] lemma processAll_nil (process : σ → List α → σ) (s : σ) :
    processAll size process s [] = s := by
  simp [processAll, blocks]

lemma block_le {i : ℕ} (hi : i < xs.length/size) : i*size + size ≤ xs.length := by
  calc i*size + size = (i+1)*size := by ring
    _ ≤ xs.length/size*size := Nat.mul_le_mul_right _ hi
    _ ≤ xs.length := Nat.div_mul_le_self _ _

lemma mem_blocks_length {block : List α} (h : block ∈ blocks size xs) : block.length = size := by
  obtain ⟨i, hi, rfl⟩ := List.mem_map.mp h
  exact slice_length _ (block_le (List.mem_range.mp hi))

lemma length_append_div (hsize : 0 < size) {k r : ℕ} (hr : r < size)
    (h : xs.length % size + ys.length = size*k + r) :
    (xs ++ ys).length/size = xs.length/size + k := by
  have hdiv := Nat.div_add_mod xs.length size
  have hlen : (xs ++ ys).length = r + size*(xs.length/size + k) := by
    rw [List.length_append, Nat.mul_add]
    omega
  rw [hlen, Nat.add_mul_div_left _ _ hsize, Nat.div_eq_of_lt hr, Nat.zero_add]

/-- The blocks of the first part are blocks of the whole. -/
lemma blocks_append_slice (ys : List α) :
    ((List.range (xs.length/size)).map fun i => slice (i*size) size (xs ++ ys)) =
      blocks size xs := by
  apply List.map_congr_left
  intro i hi
  exact slice_append_left _ _ (block_le (List.mem_range.mp hi))

lemma drop_append_remainder (ys : List α) :
    (xs ++ ys).drop (xs.length/size*size) = remainder size xs ++ ys :=
  List.drop_append_of_le_length (Nat.div_mul_le_self _ _)

section Open

variable (hsize : 0 < size) (h : xs.length % size + ys.length < size)
include hsize h

/-- A piece that does not fill the block is kept. -/
lemma processAll_append_open (process : σ → List α → σ) (s : σ) :
    processAll size process s (xs ++ ys) = processAll size process s xs := by
  have hdiv := length_append_div (k := 0) hsize h (Nat.zero_add _).symm
  rw [processAll, processAll, blocks, hdiv, Nat.add_zero, blocks_append_slice]

lemma remainder_append_open : remainder size (xs ++ ys) = remainder size xs ++ ys := by
  have hdiv := length_append_div (k := 0) hsize h (Nat.zero_add _).symm
  rw [remainder, hdiv, Nat.add_zero, drop_append_remainder]

end Open

section Full

variable (hsize : 0 < size) (h : xs.length % size + ys.length = size)
include hsize h

/-- A piece that fills the block lets it be processed. -/
lemma processAll_append_full (process : σ → List α → σ) (s : σ) :
    processAll size process s (xs ++ ys) =
      process (processAll size process s xs) (remainder size xs ++ ys) := by
  have hdiv : (xs ++ ys).length/size = xs.length/size + 1 :=
    length_append_div hsize hsize (by rw [h]; omega)
  have hlast : slice (xs.length/size*size) size (xs ++ ys) = remainder size xs ++ ys := by
    rw [slice, drop_append_remainder]
    apply List.take_of_length_le
    rw [List.length_append, remainder_length, h]
  rw [processAll, processAll, blocks, hdiv, List.range_succ, List.map_append, blocks_append_slice,
    List.foldl_append, List.map_singleton, hlast]
  rfl

lemma remainder_append_full : remainder size (xs ++ ys) = [] := by
  have hdiv : (xs ++ ys).length/size = xs.length/size + 1 :=
    length_append_div hsize hsize (by rw [h]; omega)
  have hmul := Nat.div_add_mod xs.length size
  apply List.drop_of_length_le
  rw [hdiv, List.length_append, Nat.add_mul, Nat.mul_comm]
  omega

end Full

end IronSafe.BlockStream
