import IronSafe.MerkleImage
import IronSafe.MerkleVector

/-! A tree that was written out and loaded again. Its levels are those of the old tree, so
`mt_verify` answers for the old leaves as before. Its leaf counter is far ahead of its levels: the
left neighbor that `mt_add` needs is never there, and no append succeeds any more, however often it
is tried. -/
namespace IronSafe.Merkle
open RaggedTree

variable {H : MtHash → MtHash → MtHash}

/-! ### The old leaves -/

/-- The walk of `mt_verify` reads the stored hashes only. -/
lemma mtVerifyLoop_congr {mt mt' : Mt} (hs : ∀ l, (mt'.lvl l).store = (mt.lvl l).store)
    (left q l : ℕ) (digest : MtHash) :
    mtVerifyLoop H mt' left q l digest = mtVerifyLoop H mt left q l digest := by
  have hdone : ∀ q l digest, mtVerifyDone mt' q l digest = mtVerifyDone mt q l digest := by
    intro q l digest
    rw [mtVerifyDone, mtVerifyDone, mtAlGet_congr (hs l)]
  induction left generalizing q l digest with
  | zero => exact hdone q l digest
  | succ left ih =>
    have hnext : hasNextLevelExceptRoot mt' l = hasNextLevelExceptRoot mt l :=
      hasNextLevel_congr (by rw [MtAl.elems, MtAl.elems, hs])
    rw [mtVerifyLoop, mtVerifyLoop, hnext, hashNeighbor_congr fun k _ => hs k, hdone]
    simp only [ih]

lemma Sized.restored_lvl_store {mt : Mt} (h : Sized mt) (l : ℕ) :
    ((restored mt).lvl l).store = (mt.lvl l).store := by
  by_cases hl : l < treeLevels
  · exact h.restored_store hl
  · rw [Mt.lvl_of_le _ (by omega), Mt.lvl_of_le _ (by omega)]

/-- On the leaves of the tree that was written out, the loaded tree verifies as that tree did. -/
lemma Sized.verify_restored {mt : Mt} (h : Sized mt) (tag : List UInt8) {i : ℕ}
    (hi : i < mt.elems) : mtVerify H (restored mt) tag i = mtVerify H mt tag i := by
  have hbounds := h.numBytes_bounds
  have helems := h.restored_elems
  rw [mtVerify, mtVerify, mtVerifyLoop_congr h.restored_lvl_store]
  simp only [hi, show i < (restored mt).elems by omega]

/-! ### Appends -/

/-- A tree of `n` leaves was loaded, and some appends were tried: the counter is ahead of level 0,
and the levels above are those of `n` leaves. -/
structure Sparse (n : ℕ) (mt : Mt) : Prop where
  ahead : (mt.lvl 0).elems + 63*n + 72 ≤ mt.elems
  bounded : mt.elems ≤ (mt.lvl 0).elems + 63*n + 104
  leaves : n ≤ (mt.lvl 0).elems
  level : ∀ l, 0 < l → (mt.lvl l).elems ≤ kept l n
  limit : n < mtAlMaxElems

lemma Appended.numBytes_bounds {n : ℕ} {mt : Mt} (run : Appended H n mt) :
    72 + 64*n ≤ numBytes mt ∧ numBytes mt ≤ 104 + 64*n := by
  rcases Nat.eq_zero_or_pos n with rfl | hpos
  · obtain ⟨ls, hlen, -, hrep⟩ := run.represents
    have hzero : ∑ l ∈ Finset.range treeLevels, (mt.lvl l).elems = 0 := by
      refine Finset.sum_eq_zero fun l hl => ?_
      rw [(hrep.level l (Finset.mem_range.mp hl)).size, hlen, kept_zero_right]
    rw [Merkle.numBytes_eq, hzero]
    decide
  · rw [run.numBytes_eq hpos]
    omega

lemma Appended.sparse {n : ℕ} {mt : Mt} (run : Appended H n mt) : Sparse n (restored mt) := by
  have hs := run.reach.sized
  have hbounds := run.numBytes_bounds
  obtain ⟨ls, rfl, hlt, hrep⟩ := run.represents
  have hsize : ((restored mt).lvl 0).elems = ls.length := by
    rw [hs.restored_size, (hrep.level 0 (by simp [treeLevels])).size]
    rfl
  have helems := hs.restored_elems
  refine ⟨by omega, by omega, hsize.ge, fun l _ => ?_, hlt⟩
  rw [hs.restored_size, ← hrep.elems]
  exact size_le_kept hs.level l

/-- Above the leaves there is no left neighbor for a path from far behind the last leaf. -/
lemma kept_le_path {n q l : ℕ} (hq : 4*n ≤ q) : kept (l+1) n ≤ path (l+1) q - 1 := by
  rcases Nat.eq_zero_or_pos (kept (l+1) n) with h0 | hpos
  · omega
  -- the last stored node has a right child, whose first leaf exists
  have hright : (2*kept (l+1) n - 1)*2^l < n :=
    (lt_span_iff l).mp (by simp only [kept] at hpos ⊢; omega)
  have hleaf : 2^l ≤ (2*kept (l+1) n - 1)*2^l := Nat.le_mul_of_pos_left _ (by omega)
  have hexpand : (2*kept (l+1) n - 1)*2^l + 2^l = kept (l+1) n * 2^(l+1) := by
    rw [← Nat.succ_mul, show (2*kept (l+1) n - 1).succ = 2*kept (l+1) n by omega, Nat.pow_succ]
    ring
  have hfit : (kept (l+1) n + 1)*2^(l+1) ≤ q := by
    rw [Nat.add_mul, Nat.one_mul, Nat.pow_succ] at *
    omega
  rw [path_eq_div]
  have := (Nat.le_div_iff_mul_le (Nat.two_pow_pos (l+1))).mpr hfit
  omega

/-- An append whose left neighbors are all missing stops at the first of them. It returns an
error, unless a full level or a path that is still not at its top behind the last level ends the
process. -/
lemma mtAddLoop_sparse (mem : ℕ → Bool) {mt : Mt} {Q : ℕ}
    (hsparse : ∀ k, path k Q % 2 = 1 → (mt.lvl k).elems ≤ path k Q - 1) (left : ℕ) :
    ∀ (l : ℕ) (d : MtHash), left + l = treeLevels → path l Q ≠ 0 →
      mtAddLoop H mem left (path l Q) l d mt = .ok (.illegalParam,mt) ∨
        (∃ c, mtAddLoop H mem left (path l Q) l d mt = .error c) ∧ ¬ (mt.Roomy ∧ Q < 2^24) := by
  induction left with
  | zero =>
    intro l d hl hq
    obtain rfl : l = 24 := by simpa [treeLevels] using hl
    refine .inr ⟨⟨.outOfBounds, ?_⟩, fun hc => hq ?_⟩
    · rw [mtAddLoop, mtAddDone, if_pos hl.ge]
    · rw [path_eq_div, Nat.div_eq_of_lt hc.2]
  | succ left ih =>
    intro l d hl hq
    rw [mtAddLoop, if_neg hq]
    by_cases ho : path l Q % 2 = 1
    · have hnone : (mt.lvl l).store[path l Q - 1]? = none := List.getElem?_eq_none (hsparse l ho)
      rw [if_pos (by simp [mtRight, ho]), mtAlGet, hnone]
      by_cases hfull : mtAlMaxElems ≤ (mt.lvl l).elems
      · rw [if_pos hfull]
        exact .inr ⟨⟨_, rfl⟩, fun hc => Nat.not_lt.mpr hfull (hc.1 l)⟩
      · rw [if_neg hfull]
        exact .inl rfl
    · rw [if_neg (by simpa [mtRight] using ho)]
      exact ih (l+1) d (by omega) (by simp only [path]; omega)

lemma Sparse.walk {n : ℕ} {mt : Mt} (h : Sparse n mt) (k : ℕ) (hodd : path k (mt.elems-1) % 2 = 1) :
    (mt.lvl k).elems ≤ path k (mt.elems-1) - 1 := by
  have hahead := h.ahead
  have hleaves := h.leaves
  cases k with
  | zero =>
    simp only [path]
    omega
  | succ l => exact (h.level _ (by omega)).trans (kept_le_path (by omega))

/-- The tree with one leaf more, which is counted. -/
lemma Sparse.leaf {n : ℕ} {mt : Mt} (h : Sparse n mt) {al : MtAl}
    (hal : al.elems = (mt.lvl 0).elems + 1) :
    Sparse n { mt.setLvl 0 al with elems := mt.elems+1 } := by
  have hahead := h.ahead
  have hbounded := h.bounded
  have hzero : (Mt.lvl { mt.setLvl 0 al with elems := mt.elems+1 } 0).elems =
      (mt.lvl 0).elems + 1 := by
    rw [lvl_with_elems, lvl_setLvl_self _ _ (by simp [treeLevels]), hal]
  refine ⟨?_, ?_, hzero ▸ h.leaves.trans (Nat.le_succ _), fun l hl => ?_, h.limit⟩
  · rw [hzero]
    show _ ≤ mt.elems + 1
    omega
  · rw [hzero]
    show mt.elems + 1 ≤ _
    omega
  · rw [lvl_with_elems, lvl_setLvl_of_ne _ _ (by omega)]
    exact h.level l hl

lemma Sparse.roomy {n : ℕ} {mt : Mt} (h : Sparse n mt) (hroom : (mt.lvl 0).elems < mtAlMaxElems) :
    mt.Roomy := by
  intro l
  cases l with
  | zero => exact hroom
  | succ l =>
    have hlevel := h.level (l+1) (by omega)
    have hkept := kept_le_span (l+1) n
    have hspan := span_le (l+1) n
    have hlim := h.limit
    omega

/-- An append never succeeds on such a tree. If it returns it leaves such a tree behind, and it does
return while the counter is small and level 0 has room. -/
lemma Sparse.mtAdd {n : ℕ} {mt : Mt} (h : Sparse n mt) (mem : ℕ → Bool) (tag : List UInt8) :
    (∃ r mt', Merkle.mtAdd H mem mt tag = .ok (r,mt') ∧ r ≠ .success ∧ Sparse n mt') ∨
      (∃ c, Merkle.mtAdd H mem mt tag = .error c) ∧
        ¬ (mt.elems < 2^24 ∧ (mt.lvl 0).elems + 1 < mtAlMaxElems) := by
  have hmax : mtAlMaxElems = 4194304 := rfl
  have hahead := h.ahead
  have hbounded := h.bounded
  have hlim := h.limit
  unfold Merkle.mtAdd
  by_cases ht : hashLength < tag.length
  · rw [if_pos ht]
    exact .inl ⟨_, _, rfl, by decide, h⟩
  rw [if_neg ht]
  by_cases hroom : (mt.lvl 0).elems < mtAlMaxElems
  swap
  · rw [mtAlAdd, if_pos (by omega)]
    exact .inr ⟨⟨_, rfl⟩, by omega⟩
  obtain ⟨e, al, hal, -⟩ := mtAlAdd_outcome (mem 0) (mtInitHash tag) hroom
  rw [hal]
  obtain ⟨-, ⟨rfl, hstore⟩ | ⟨hne, rfl⟩⟩ := mtAlAdd_cases hal
  · have hsize : al.elems = (mt.lvl 0).elems + 1 := by
      rw [MtAl.elems, hstore, List.length_append]
      rfl
    have hmod : (mt.elems+1) % 2^32 = mt.elems+1 := Nat.mod_eq_of_lt (by omega)
    have hq : (mt.elems+1 + (2^32-1)) % 2^32 = mt.elems := by omega
    have hsparse := h.leaf hsize
    simp only [hmod, hq]
    rw [if_neg (by omega)]
    rcases mtAddLoop_sparse (H := H) mem hsparse.walk treeLevels 0 (mtInitHash tag) rfl
      (show path 0 mt.elems ≠ 0 by simp only [path]; omega) with hrun | ⟨hcrash, hnot⟩
    · exact .inl ⟨_, _, hrun, by decide, hsparse⟩
    · refine .inr ⟨hcrash, fun hc => hnot ⟨hsparse.roomy ?_, hc.1⟩⟩
      rw [lvl_with_elems, lvl_setLvl_self _ _ (by simp [treeLevels]), hsize]
      exact hc.2
  · have hkeep : mt.setLvl 0 (mt.lvl 0) = mt := setLvl_lvl mt (by simp [treeLevels])
    refine .inl ⟨e, mt, ?_, hne, h⟩
    cases e <;> first | exact absurd rfl hne | (simp only [hkeep])

end IronSafe.Merkle
