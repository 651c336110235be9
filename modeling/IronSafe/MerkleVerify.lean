import IronSafe.MerkleAppend

/-! `mt_verify` on a represented tree: the walk recomputes the path digest of the ragged
tree, no lookup on the path is missing, and the check accepts the stored leaf only. -/
namespace IronSafe.Merkle
open RaggedTree

variable {H : MtHash → MtHash → MtHash}

/-- The right neighbor found by descending is the digest of the right sibling subtree,
absent only if no leaf lies below it. -/
lemma findRightNeighbor_eq {mt : Mt} {ls : List MtHash} (h : Represents H mt ls)
    (hn : ls.length < mtAlMaxElems) {l offset : ℕ} (hl : l < treeLevels)
    (ho : offset*2^l < 2^32) : findRightNeighbor mt offset l = .ok (node H ls l offset) := by
  induction l generalizing offset with
  | zero =>
    have h0 := h.level 0 hl
    simp only [findRightNeighbor, mtAlGetSize, h0.size, h0.get_eq hn]
    split_ifs with hj
    · rfl
    · simp only [kept] at hj
      rw [node, List.getElem?_eq_none (by omega)]
  | succ l ih =>
    have hlev := h.level (l+1) hl
    simp only [findRightNeighbor, mtAlGetSize, hlev.size, hlev.get_eq hn]
    split_ifs with hj
    · rfl
    · have hmul : offset*2*2^l < 2^32 := by
        rw [show offset*2*2^l = offset*2^(l+1) by ring]
        exact ho
      have hw : offset*2 < 2^32 :=
        lt_of_le_of_lt (Nat.le_mul_of_pos_right _ (by positivity)) hmul
      rw [Nat.mod_eq_of_lt hw, ih (by omega) hmul, node_promoted H ls (by omega), Nat.mul_comm]

/-- Height of the tree: the first level with a single node. -/
def height (n : ℕ) : ℕ := Nat.clog 2 n

lemma span_height (n : ℕ) : span (height n) n ≤ 1 := by
  rw [span_le_one_iff]
  exact Nat.le_pow_clog (by omega) n

lemma two_le_span_iff {n l : ℕ} : 2 ≤ span l n ↔ l < height n := by
  rw [height, Nat.lt_clog_iff_pow_lt (by omega)]
  have := span_le_one_iff l n
  omega

lemma le_pow_height (n : ℕ) : n ≤ 2^height n := Nat.le_pow_clog (by omega) n

lemma pos_of_lt_height {n l : ℕ} (h : l < height n) : 0 < n := by
  have hspan := two_le_span_iff.mpr h
  have hle := span_le l n
  omega

lemma kept_height_pos {n : ℕ} (hn : 0 < n) : 0 < kept (height n) n := by
  cases hL : height n with
  | zero => exact hn
  | succ m =>
    have := (two_le_span_iff (n := n) (l := m)).mpr (by omega)
    simp only [kept]
    omega

lemma height_lt {n : ℕ} (hn : n < mtAlMaxElems) : height n < 23 := by
  have : height n ≤ 22 := by
    rw [height, Nat.clog_le_iff_le_pow (by omega)]
    simp only [mtAlMaxElems] at hn
    omega
  omega

lemma hasNextLevel_eq {mt : Mt} {ls : List MtHash} (h : Represents H mt ls)
    (hn : ls.length < mtAlMaxElems) {l : ℕ} (hl : l ≤ height ls.length) :
    hasNextLevelExceptRoot mt l = decide (l < height ls.length) := by
  have hh := height_lt hn
  have h2 := two_le_span_iff (n := ls.length) (l := l)
  have hlev := (h.level (l+1) (by simp only [treeLevels]; omega)).size
  simp only [hasNextLevelExceptRoot, mtAlGetSize, hlev, kept, treeLevels]
  by_cases hlt : l < height ls.length
  · have := h2.mpr hlt
    simp [hlt, show l+1 < 23 by omega, show 0 < span l ls.length / 2 by omega]
  · have : ¬ 2 ≤ span l ls.length := fun hc => hlt (h2.mp hc)
    simp [hlt, show ¬ 0 < span l ls.length / 2 by omega]

lemma left_stored {mt : Mt} {ls : List MtHash} (h : Represents H mt ls)
    (hn : ls.length < mtAlMaxElems) {l i : ℕ} (hl : l < treeLevels) (hi : i < ls.length)
    (ho : path l i % 2 = 1) :
    mtAlGet (mt.lvl l) (path l i - 1) = .ok (node H ls l (path l i - 1)) := by
  have hk : path l i - 1 < kept l ls.length := by
    cases l with
    | zero => simp only [kept, path] at *; omega
    | succ l =>
      have := path_lt_span hi l
      simp only [kept, path] at *
      omega
  rw [(h.level l hl).get_eq hn, if_pos hk]

lemma path_height {n i : ℕ} (hi : i < n) : path (height n) i = 0 := by
  have hs := span_height n
  have hp := path_lt_span hi (height n)
  omega

lemma top_stored {mt : Mt} {ls : List MtHash} (h : Represents H mt ls)
    (hn : ls.length < mtAlMaxElems) {i : ℕ} (hi : i < ls.length) :
    mtAlGet (mt.lvl (height ls.length)) (path (height ls.length) i) =
      .ok (node H ls (height ls.length) 0) := by
  have hh := height_lt hn
  have hk := kept_height_pos (show 0 < ls.length by omega)
  rw [path_height hi, (h.level _ (by simp only [treeLevels]; omega)).get_eq hn, if_pos hk]

/-- One step of the walk is one step of the ragged tree; the left neighbor is stored. -/
lemma hashNeighbor_eq {mt : Mt} {ls : List MtHash} (h : Represents H mt ls)
    (hn : ls.length < mtAlMaxElems) {l i : ℕ} (hl : l < 22) (hi : i < ls.length) (d : MtHash) :
    hashNeighbor H mt (path l i) l d = .ok (some (climb H ls l (path l i) d)) := by
  have hp := path_lt_span hi l
  have hmul := path_mul_le l i
  have hpow : 2^l ≤ 2^22 := Nat.pow_le_pow_right (by omega) (by omega)
  have hw : (path l i + 1)*2^l < 2^32 := by
    rw [Nat.add_mul]
    simp only [mtAlMaxElems] at hn
    omega
  have hw' : path l i + 1 < 2^32 := lt_of_le_of_lt (Nat.le_mul_of_pos_right _ (by positivity)) hw
  unfold hashNeighbor climb
  by_cases he : path l i % 2 = 0
  · rw [if_pos he, if_pos he, Nat.mod_eq_of_lt hw',
      findRightNeighbor_eq h hn (by simp only [treeLevels]; omega) hw]
    cases node H ls l (path l i + 1) <;> rfl
  · obtain ⟨a, ha⟩ := exists_node H ls (show path l i - 1 < span l ls.length by omega)
    rw [if_neg he, if_neg he, left_stored h hn (by simp only [treeLevels]; omega) hi (by omega), ha]

/-- The remaining walk from level `l` compares the path digest at the top with the root. -/
lemma mtVerifyLoop_eq {mt : Mt} {ls : List MtHash} (h : Represents H mt ls)
    (hn : ls.length < mtAlMaxElems) {i : ℕ} (hi : i < ls.length) (d : MtHash) :
    ∀ left l, l ≤ height ls.length → height ls.length < left + l →
      mtVerifyLoop H mt left (path l i) l (digestAt H ls i d l) =
        .ok (if node H ls (height ls.length) 0 = some (digestAt H ls i d (height ls.length))
          then .success else .rootMismatch) := by
  have hh := height_lt hn
  intro left
  induction left with
  | zero => intro l h1 h2; omega
  | succ left ih =>
    intro l h1 h2
    unfold mtVerifyLoop
    rw [hasNextLevel_eq h hn h1]
    by_cases hlt : l < height ls.length
    · simp only [hlt, decide_true, if_true, hashNeighbor_eq h hn (show l < 22 by omega) hi]
      exact ih (l+1) (by omega) (by omega)
    · obtain rfl : l = height ls.length := by omega
      obtain ⟨top, htop⟩ :=
        exists_node H ls (span_pos (show 0 < ls.length by omega) (height ls.length))
      simp only [lt_irrefl, decide_false, Bool.false_eq_true, if_false, mtVerifyDone,
        top_stored h hn hi, htop, Option.some.injEq]
      by_cases he : digestAt H ls i d (height ls.length) = top
      · simp [he]
      · rw [if_neg he, if_neg (Ne.symm he)]

/-- On a leaf index of the tree `mt_verify` always reaches a comparison with the root. -/
theorem mtVerify_eq {mt : Mt} {ls : List MtHash} (h : Represents H mt ls)
    (hn : ls.length < mtAlMaxElems) {tag : List UInt8} (ht : tag.length ≤ hashLength)
    {i : ℕ} (hi : i < ls.length) :
    mtVerify H mt tag i = .ok
      (if node H ls (height ls.length) 0 =
          some (digestAt H ls i (mtInitHash tag) (height ls.length))
        then .success else .rootMismatch) := by
  have hh := height_lt hn
  unfold mtVerify
  rw [if_pos ⟨ht, by rw [h.elems]; exact hi⟩]
  exact mtVerifyLoop_eq h hn hi (mtInitHash tag) treeLevels 0 (by omega)
    (by simp only [treeLevels]; omega)

/-- Every lookup on the path of leaf `i` in a tree of `n` leaves finds a node: the left
sibling, the promoted right sibling if a leaf lies below it, and the top node. -/
structure PathPresent (mt : Mt) (n i : ℕ) : Prop where
  climbs : ∀ l ≤ height n, hasNextLevelExceptRoot mt l = decide (l < height n)
  left : ∀ l < height n, path l i % 2 = 1 → ∃ d, mtAlGet (mt.lvl l) (path l i - 1) = .ok (some d)
  right : ∀ l < height n, path l i % 2 = 0 → (path l i + 1)*2^l < n →
    ∃ d, findRightNeighbor mt (path l i + 1) l = .ok (some d)
  top : ∃ d, mtAlGet (mt.lvl (height n)) (path (height n) i) = .ok (some d)

lemma Represents.pathPresent {mt : Mt} {ls : List MtHash} (h : Represents H mt ls)
    (hn : ls.length < mtAlMaxElems) {i : ℕ} (hi : i < ls.length) : PathPresent mt ls.length i where
  climbs l hl := hasNextLevel_eq h hn hl
  left l hl ho := by
    have hh := height_lt hn
    have hp := path_lt_span hi l
    rw [left_stored h hn (by simp only [treeLevels]; omega) hi ho]
    exact (exists_node H ls (show path l i - 1 < span l ls.length by omega)).imp fun d hd => by
      rw [hd]
  right l hl he hlt := by
    have hh := height_lt hn
    rw [findRightNeighbor_eq h hn (by simp only [treeLevels]; omega)
      (by simp only [mtAlMaxElems] at hn; omega)]
    exact (exists_node H ls ((lt_span_iff l).mpr hlt)).imp fun d hd => by rw [hd]
  top := by
    rw [top_stored h hn hi]
    exact (exists_node H ls (span_pos (by omega) _)).imp fun d hd => by rw [hd]

/-- `mt_hash` has no collision, level by level, between the pair hashed for the stored
leaf `i` and the one hashed for the candidate `d`. -/
def NoCollision (H : MtHash → MtHash → MtHash) (ls : List MtHash) (i : ℕ) (d : MtHash) : Prop :=
  ∀ e, ls[i]? = some e → ∀ l < height ls.length, ∀ p ∈ pathPair H ls i e l,
    ∀ r ∈ pathPair H ls i d l, H p.1 p.2 = H r.1 r.2 → p = r

lemma mtVerify_complete {mt : Mt} {ls : List MtHash} (h : Represents H mt ls)
    (hn : ls.length < mtAlMaxElems) {tag : List UInt8} (ht : tag.length ≤ hashLength)
    {i : ℕ} (hi : ls[i]? = some (mtInitHash tag)) : mtVerify H mt tag i = .ok .success := by
  have hlt : i < ls.length := (List.getElem?_eq_some_iff.mp hi).1
  have hnode := node_path H ls hi (height ls.length)
  rw [path_height hlt] at hnode
  rw [mtVerify_eq h hn ht hlt, if_pos hnode]

lemma mtVerify_sound {mt : Mt} {ls : List MtHash} (h : Represents H mt ls)
    (hn : ls.length < mtAlMaxElems) {tag : List UInt8} (ht : tag.length ≤ hashLength)
    {i : ℕ} (hc : NoCollision H ls i (mtInitHash tag)) (hv : mtVerify H mt tag i = .ok .success) :
    ls[i]? = some (mtInitHash tag) := by
  have hlt : i < ls.length := by
    by_contra hge
    unfold mtVerify at hv
    rw [if_neg (by rw [h.elems]; omega)] at hv
    cases hv
  have he := List.getElem?_eq_getElem hlt
  have hnode := node_path H ls he (height ls.length)
  rw [path_height hlt] at hnode
  rw [mtVerify_eq h hn ht hlt] at hv
  split_ifs at hv with heq
  · rw [hnode, Option.some.injEq] at heq
    rw [he, digestAt_injective H ls i (height ls.length) (hc _ he) heq]
  · cases hv

end IronSafe.Merkle
