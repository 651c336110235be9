import IronSafe.MerkleSerialize

/-! The two loops of `serialize_mt`. The first adds up the size of the image in an `int`, the
second copies the image into a buffer of that size. -/
namespace IronSafe.Merkle
open Bytes RaggedTree

variable {H : MtHash → MtHash → MtHash}

/-- The sum, if it is an `int`. -/
def addInt (numBytes k : ℕ) : Option ℕ := if numBytes + k < 2^31 then some (numBytes+k) else none

/-- The product with `HASH_LENGTH` is an `unsigned int`. -/
def MtAl.storeBytes (al : MtAl) : ℕ := al.elems*hashLength % 2^32

def countLevels : List MtAl → ℕ → Option ℕ
  | [], numBytes => some numBytes
  | al :: levels, numBytes => do
    let numBytes ← addInt numBytes 4
    let numBytes ← addInt numBytes al.storeBytes
    countLevels levels numBytes

def countBytes (mt : Mt) : Option ℕ := do
  let numBytes ← addInt 0 4
  let numBytes ← countLevels mt.level numBytes
  addInt numBytes 4

/-- The buffer and `buffer_ptr`, which does not point past its end. -/
@[ext] structure Cursor where
  buf : List UInt8
  ptr : ℕ
  inside : ptr ≤ buf.length

def Cursor.start (buf : List UInt8) : Cursor := ⟨buf, 0, Nat.zero_le _⟩

lemma Cursor.copy_inside {c : Cursor} {src : List UInt8} (h : c.ptr + src.length ≤ c.buf.length) :
    c.ptr + src.length ≤ (overwrite c.buf c.ptr src).length := by
  rw [overwrite_length _ _ h]
  exact h

/-- A `memcpy` to the cursor, which then moves behind the copied bytes. -/
def Cursor.copy (c : Cursor) (src : List UInt8) : Except Crash Cursor :=
  if h : c.ptr + src.length ≤ c.buf.length then
    .ok ⟨overwrite c.buf c.ptr src, c.ptr + src.length, c.copy_inside h⟩
  else .error .outOfBounds

def copyLevels : List MtAl → Cursor → Except Crash Cursor
  | [], c => .ok c
  | al :: levels, c => do
    let c ← c.copy (le32 al.elems)
    let c ← c.copy ((al.store.map Subtype.val).flatten.take al.storeBytes)
    copyLevels levels c

/-- The copies of `serialize_mt` into the buffer that `malloc` returned. -/
def copyBytes (dest : List UInt8) (numBytes : ℕ) (mt : Mt) : Except Crash Cursor := do
  let c ← (Cursor.start dest).copy (le32 numBytes)
  let c ← c.copy (le32 mt.elems)
  copyLevels mt.level c

section Count

lemma addInt_eq {numBytes k : ℕ} (h : numBytes + k < 2^31) :
    addInt numBytes k = some (numBytes+k) := if_pos h

lemma MtAl.storeBytes_eq {al : MtAl} (h : al.elems < 2^27) :
    al.storeBytes = al.elems*hashLength := by
  rw [storeBytes, Nat.mod_eq_of_lt (by simp only [hashLength]; omega)]

lemma countLevels_eq {levels : List MtAl} (hsmall : ∀ al ∈ levels, al.elems < 2^27) {numBytes : ℕ}
    (h : numBytes + (levels.map fun al => 4 + al.elems*hashLength).sum < 2^31) :
    countLevels levels numBytes =
      some (numBytes + (levels.map fun al => 4 + al.elems*hashLength).sum) := by
  induction levels generalizing numBytes with
  | nil => rfl
  | cons al levels ih =>
    rw [List.map_cons, List.sum_cons] at h ⊢
    have hlevel :
        addInt (numBytes+4) al.storeBytes = some (numBytes + 4 + al.elems*hashLength) := by
      rw [MtAl.storeBytes_eq (hsmall al List.mem_cons_self)]
      exact addInt_eq (by omega)
    rw [countLevels, addInt_eq (by omega), Option.bind_eq_bind, Option.bind_some, hlevel,
      Option.bind_some, ih (fun x hx => hsmall x (List.mem_cons_of_mem _ hx)) (by omega)]
    congr 1
    omega

/-- No partial sum of the first loop leaves the range of `int`. -/
lemma Sized.countBytes_eq {mt : Mt} (h : Sized mt) : countBytes mt = some (numBytes mt) := by
  have hlt := h.numBytes_bounds.2
  unfold numBytes at hlt ⊢
  rw [countBytes, addInt_eq (by norm_num), Option.bind_eq_bind, Option.bind_some, Nat.zero_add,
    countLevels_eq h.elems_lt (by omega), Option.bind_some, addInt_eq hlt]

end Count

section Copy

variable {src : List UInt8}

lemma Cursor.copy_of_le {c : Cursor} (h : c.ptr + src.length ≤ c.buf.length) :
    c.copy src = .ok ⟨overwrite c.buf c.ptr src, c.ptr + src.length, c.copy_inside h⟩ := dif_pos h

lemma Cursor.copy_of_lt {c : Cursor} (h : c.buf.length < c.ptr + src.length) :
    c.copy src = .error .outOfBounds :=
  dif_neg (Nat.not_le.mpr h)

lemma Cursor.copy_nil (c : Cursor) : c.copy [] = .ok c := by
  rw [copy_of_le (by simpa using c.inside)]
  congr 1
  ext1 <;> simp [overwrite]

/-- Two copies in a row are one copy. -/
lemma Cursor.copy_copy (c : Cursor) (xs ys : List UInt8) :
    (c.copy xs >>= fun c => c.copy ys) = c.copy (xs ++ ys) := by
  rcases Nat.lt_or_ge c.buf.length (c.ptr + xs.length) with hxs | hxs
  · rw [copy_of_lt hxs, copy_of_lt (by rw [List.length_append]; omega)]
    rfl
  · rw [copy_of_le hxs]
    change Cursor.copy ⟨overwrite c.buf c.ptr xs, c.ptr + xs.length, _⟩ ys = _
    have hlen : (overwrite c.buf c.ptr xs).length = c.buf.length := overwrite_length _ _ hxs
    rcases Nat.lt_or_ge c.buf.length (c.ptr + xs.length + ys.length) with hys | hys
    · rw [copy_of_lt (by simpa only [hlen] using hys),
        copy_of_lt (by rw [List.length_append]; omega)]
    · rw [copy_of_le (by simpa only [hlen] using hys),
        copy_of_le (by rw [List.length_append]; omega)]
      congr 1
      ext1
      · exact overwrite_overwrite_append _ _ _ hxs
      · simp [Nat.add_assoc]

lemma copyLevels_eq {levels : List MtAl} (hsmall : ∀ al ∈ levels, al.elems < 2^27) (c : Cursor) :
    copyLevels levels c = c.copy (levels.map serializeLevel).flatten := by
  induction levels generalizing c with
  | nil => exact c.copy_nil.symm
  | cons al levels ih =>
    have htake : (al.store.map Subtype.val).flatten.take al.storeBytes =
        (al.store.map Subtype.val).flatten := by
      apply List.take_of_length_le
      rw [MtAl.storeBytes_eq (hsmall al List.mem_cons_self),
        length_flatten_blocks (L := hashLength) _ (by simp +contextual), List.length_map,
        MtAl.elems]
    have hrest : copyLevels levels = fun c => c.copy (levels.map serializeLevel).flatten :=
      funext fun c => ih (fun x hx => hsmall x (List.mem_cons_of_mem _ hx)) c
    rw [copyLevels, htake, hrest, List.map_cons, List.flatten_cons, serializeLevel,
      List.append_assoc, ← Cursor.copy_copy, ← funext fun c => Cursor.copy_copy c _ _]

/-- The second loop fills a buffer of the size that the first one computed. -/
lemma Sized.copyBytes_eq {mt : Mt} (h : Sized mt) {dest : List UInt8}
    (hdest : dest.length = numBytes mt) :
    ∃ c, copyBytes dest (numBytes mt) mt = .ok c ∧ c.buf = serializeMt mt ∧
      c.ptr = numBytes mt := by
  have hcopy : copyBytes dest (numBytes mt) mt = (Cursor.start dest).copy (serializeMt mt) := by
    rw [serializeMt, List.append_assoc, ← Cursor.copy_copy,
      ← funext fun c => Cursor.copy_copy c _ _]
    simp only [copyBytes, copyLevels_eq h.elems_lt]
  have hlen := serializeMt_length mt
  have hfit :
      (Cursor.start dest).ptr + (serializeMt mt).length ≤ (Cursor.start dest).buf.length := by
    simp only [Cursor.start]
    omega
  rw [hcopy, Cursor.copy_of_le hfit]
  refine ⟨_, rfl, ?_, ?_⟩
  · simp [Cursor.start, overwrite, hlen, hdest]
  · simp [Cursor.start, hlen]

end Copy

section Appends

variable {n : ℕ} {mt : Mt}

/-- The tree after `n` successful calls of `mt_add`. -/
inductive Appended (H : MtHash → MtHash → MtHash) : ℕ → Mt → Prop
  | create : Appended H 0 mtCreate
  | add {n : ℕ} {mt mt' : Mt} {mem : ℕ → Bool} {tag : List UInt8} (run : Appended H n mt)
      (h : mtAdd H mem mt tag = .ok (.success,mt')) : Appended H (n+1) mt'

lemma Appended.reach (run : Appended H n mt) : Reach H mt := by
  induction run with
  | create => exact .create
  | add _ h ih => exact .add ih h

lemma Appended.represents (run : Appended H n mt) :
    ∃ ls, ls.length = n ∧ n < mtAlMaxElems ∧ Represents H mt ls := by
  induction run with
  | create => exact ⟨[], rfl, by decide, represents_create⟩
  | @add n mt mt' mem tag _ h ih =>
    obtain ⟨ls, hlen, -, hrep⟩ := ih
    obtain ⟨hlt, ht⟩ := mtAdd_success_lt hrep h
    obtain ⟨r, mt'', hr, -, hnext⟩ := mtAdd_spec mem hrep hlt ht
    rw [hr] at h
    cases h
    exact ⟨ls ++ [mtInitHash tag], by simp [hlen], hlen ▸ hlt, hnext rfl⟩

/-- With memory available, every number of leaves below the limit is reached. -/
lemma exists_appended (H : MtHash → MtHash → MtHash) (hn : n < mtAlMaxElems) :
    ∃ mt, Appended H n mt := by
  induction n with
  | zero => exact ⟨mtCreate, .create⟩
  | succ n ih =>
    obtain ⟨mt, run⟩ := ih (by omega)
    obtain ⟨ls, hlen, -, hrep⟩ := run.represents
    obtain ⟨r, mt', hr, hok, -⟩ :=
      mtAdd_spec (fun _ => true) hrep (by omega) (show [].length ≤ hashLength by simp)
    rw [hok fun _ => rfl] at hr
    exact ⟨mt', run.add hr⟩

/-- All levels together have one node for each leaf and one for each inner node of a binary tree. -/
lemma Appended.sum_levels (run : Appended H n mt) (hn : 1 ≤ n) :
    ∑ l ∈ Finset.range treeLevels, (mt.lvl l).elems = 2*n-1 := by
  obtain ⟨ls, rfl, hlt, hrep⟩ := run.represents
  have hsizes : ∑ l ∈ Finset.range treeLevels, (mt.lvl l).elems = ∑ l ∈ Finset.range treeLevels,
      kept l ls.length :=
    Finset.sum_congr rfl fun l hl => (hrep.level l (Finset.mem_range.mp hl)).size
  have hsum : (∑ l ∈ Finset.range treeLevels, kept l ls.length) + span 23 ls.length = 2*ls.length :=
    sum_kept 23 ls.length
  have htop : span 23 ls.length = 1 := by
    have hle : span 23 ls.length ≤ 1 :=
      (span_le_one_iff 23 _).mpr (by simp only [mtAlMaxElems] at hlt; omega)
    have hpos := span_pos hn 23
    omega
  omega

lemma Appended.numBytes_eq (run : Appended H n mt) (hn : 1 ≤ n) : numBytes mt = 72 + 64*n := by
  rw [Merkle.numBytes_eq, run.sum_levels hn]
  omega

end Appends

/-- The levels of a tree with `n` leaves have `2*n-1` entries. The first loop of `serialize_mt` adds
up `72+64*n` without leaving `int`; so many bytes does the second loop write, all of the buffer, and
this number is the first word of the image. -/
theorem image_size {n : ℕ} {mt : Mt} (run : Appended H n mt) (hn : 1 ≤ n) :
    ∑ l ∈ Finset.range treeLevels, (mt.lvl l).elems = 2*n-1 ∧ countBytes mt = some (72+64*n) ∧
    (∀ dest, dest.length = 72+64*n →
      ∃ c, copyBytes dest (72+64*n) mt = .ok c ∧ c.buf = serializeMt mt ∧ c.ptr = 72+64*n) ∧
    readLe32 (serializeMt mt) = 72+64*n := by
  have hs := run.reach.sized
  have hlt := hs.numBytes_bounds.2
  rw [← run.numBytes_eq hn]
  refine ⟨run.sum_levels hn, hs.countBytes_eq, fun dest => hs.copyBytes_eq, ?_⟩
  rw [serializeMt, List.append_assoc, readLe32_le32_append, Nat.mod_eq_of_lt (by omega)]

/-- Three leaves: five entries and 264 bytes. -/
theorem image_size_three : ∃ mt, Appended (fun a _ => a) 3 mt ∧
    ∑ l ∈ Finset.range treeLevels, (mt.lvl l).elems = 5 ∧ countBytes mt = some 264 ∧
    ∃ c, copyBytes (List.replicate 264 0) 264 mt = .ok c ∧ c.buf = serializeMt mt ∧
      c.ptr = 264 := by
  obtain ⟨mt, run⟩ := exists_appended (fun a _ => a) (show 3 < mtAlMaxElems by decide)
  obtain ⟨hsum, hcount, hcopy, -⟩ := image_size run (by norm_num)
  exact ⟨mt, run, hsum, hcount, hcopy _ List.length_replicate⟩

end IronSafe.Merkle
