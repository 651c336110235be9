import IronSafe.MerkleReach
import IronSafe.MerkleVerify

/-! The walk of `mt_verify` over a tree of any shape and from any index. A left neighbor that
is missing on the way is an error that is returned; a node that is missing at the end of the
walk is dereferenced. -/
namespace IronSafe.Merkle
open RaggedTree

variable {H : MtHash → MtHash → MtHash} {mt : Mt}

/-- No level of the tree is full. -/
def Mt.Roomy (mt : Mt) : Prop := ∀ l, (mt.lvl l).elems < mtAlMaxElems

lemma Mt.lvl_of_le (mt : Mt) {l : ℕ} (h : treeLevels ≤ l) : mt.lvl l = mtAlCreate := by
  rw [Mt.lvl, List.getD_eq_getElem?_getD, List.getElem?_eq_none (by rw [mt.levels]; exact h),
    Option.getD_none]

lemma size_le_kept {n : ℕ} (h : ∀ l < treeLevels, (mt.lvl l).elems ≤ kept l n) (l : ℕ) :
    (mt.lvl l).elems ≤ kept l n := by
  by_cases hl : l < treeLevels
  · exact h l hl
  · rw [mt.lvl_of_le (by omega)]
    exact Nat.zero_le _

lemma Reach.roomy (h : Reach H mt) : mt.Roomy := fun l =>
  calc (mt.lvl l).elems ≤ kept l mt.elems := size_le_kept h.sized.level l
    _ ≤ span l mt.elems := kept_le_span l mt.elems
    _ ≤ mt.elems := span_le l mt.elems
    _ < mtAlMaxElems := h.elems_lt

/-- The walk from the index `i` finds every left neighbor it needs, and no node at its end. -/
structure WalksOff (mt : Mt) (i : ℕ) : Prop where
  left : ∀ l < mtRootLoop mt treeLevels 0, path l i % 2 = 1 → path l i - 1 < (mt.lvl l).elems
  top : (mt.lvl (mtRootLoop mt treeLevels 0)).elems ≤ path (mtRootLoop mt treeLevels 0) i

lemma le_mtRootLoop (mt : Mt) (left l : ℕ) : l ≤ mtRootLoop mt left l := by
  induction left generalizing l with
  | zero => exact le_rfl
  | succ left ih =>
    unfold mtRootLoop
    split_ifs
    · exact (Nat.le_succ l).trans (ih (l+1))
    · exact le_rfl

lemma mtAlGet_returns {al : MtAl} (h : al.elems < mtAlMaxElems) (q : ℕ) :
    ∃ r, mtAlGet al q = .ok r ∧ (r = none ↔ al.elems ≤ q) :=
  ⟨_, mtAlGet_ok h q, List.getElem?_eq_none_iff⟩

lemma findRightNeighbor_returns (h : mt.Roomy) (offset l : ℕ) :
    ∃ r, findRightNeighbor mt offset l = .ok r := by
  induction l generalizing offset with
  | zero =>
    unfold findRightNeighbor
    split_ifs
    · exact ⟨_, mtAlGet_ok (h 0) offset⟩
    · exact ⟨_, rfl⟩
  | succ l ih =>
    unfold findRightNeighbor
    split_ifs
    · exact ⟨_, mtAlGet_ok (h (l+1)) offset⟩
    · exact ih _

/-- One step of the walk returns, with an error only if the left neighbor is missing. -/
lemma hashNeighbor_returns (h : mt.Roomy) (q l : ℕ) (digest : MtHash) :
    ∃ r, hashNeighbor H mt q l digest = .ok r ∧
    (r = none ↔ q % 2 = 1 ∧ (mt.lvl l).elems ≤ q-1) := by
  unfold hashNeighbor
  split_ifs with heven
  · have hnot : ¬ (q % 2 = 1 ∧ (mt.lvl l).elems ≤ q-1) := by omega
    obtain ⟨r, hr⟩ := findRightNeighbor_returns h ((q+1) % 2^32) l
    rw [hr]
    cases r <;> exact ⟨_, rfl, by simp only [reduceCtorEq, hnot]⟩
  · obtain ⟨r, hr, hnone⟩ := mtAlGet_returns (h l) (q-1)
    have hodd : q % 2 = 1 := by omega
    rw [hr]
    cases r with
    | none => exact ⟨_, rfl, by simpa [hodd] using hnone⟩
    | some d => exact ⟨_, rfl, by simpa [hodd] using hnone⟩

lemma mtVerifyDone_returns_iff (h : mt.Roomy) (q l : ℕ) (digest : MtHash) :
    (∃ e, mtVerifyDone mt q l digest = .ok e) ↔ ¬ (mt.lvl l).elems ≤ q := by
  obtain ⟨r, hr, hnone⟩ := mtAlGet_returns (h l) q
  rw [mtVerifyDone, hr]
  cases r with
  | none => simp [hnone.mp rfl]
  | some d =>
    have hlt : ¬ (mt.lvl l).elems ≤ q := fun hc => by simpa using hnone.mpr hc
    simp only [hlt, not_false_eq_true, iff_true]
    split_ifs <;> exact ⟨_, rfl⟩

/-- The walk from level `l` on returns unless it finds all neighbors and no node at its end. -/
lemma mtVerifyLoop_returns_iff (h : mt.Roomy) (i left l : ℕ) (digest : MtHash) :
    (∃ e, mtVerifyLoop H mt left (path l i) l digest = .ok e) ↔
      ¬ ((∀ k, l ≤ k → k < mtRootLoop mt left l → path k i % 2 = 1 →
        path k i - 1 < (mt.lvl k).elems) ∧
        (mt.lvl (mtRootLoop mt left l)).elems ≤ path (mtRootLoop mt left l) i) := by
  have hend : ∀ l digest, (∃ e, mtVerifyDone mt (path l i) l digest = .ok e) ↔
      ¬ ((∀ k, l ≤ k → k < l → path k i % 2 = 1 → path k i - 1 < (mt.lvl k).elems) ∧
        (mt.lvl l).elems ≤ path l i) := by
    intro l digest
    rw [mtVerifyDone_returns_iff h]
    exact not_congr ⟨fun hle => ⟨fun k _ _ => by omega, hle⟩, And.right⟩
  induction left generalizing l digest with
  | zero => exact hend l digest
  | succ left ih =>
    unfold mtVerifyLoop mtRootLoop
    split_ifs with hnext
    · have hlt : l < mtRootLoop mt left (l+1) := le_mtRootLoop mt left (l+1)
      obtain ⟨r, hr, hnone⟩ := hashNeighbor_returns (H := H) h (path l i) l digest
      rw [hr]
      cases r with
      | none =>
        obtain ⟨hodd, hle⟩ := hnone.mp rfl
        refine iff_of_true ⟨_, rfl⟩ fun hc => ?_
        have := hc.1 l le_rfl hlt hodd
        omega
      | some d =>
        have hfound : path l i % 2 = 1 → path l i - 1 < (mt.lvl l).elems := fun hodd => by
          by_contra hge
          simpa using hnone.mpr ⟨hodd, by omega⟩
        have hstep : l < mtRootLoop mt left (l+1) → path l i % 2 = 1 →
            path l i - 1 < (mt.lvl l).elems :=
          fun _ => hfound
        rw [forall_levels_iff, and_iff_right hstep]
        exact ih (l+1) d
    · exact hend l digest

/-- On an index below the counter `mt_verify` returns a code unless its walk ends nowhere. -/
theorem mtVerify_returns_iff (h : mt.Roomy) (tag : List UInt8) (i : ℕ) :
    (∃ e, mtVerify H mt tag i = .ok e) ↔
    ¬ (tag.length ≤ hashLength ∧ i < mt.elems ∧ WalksOff mt i) := by
  have hloop := mtVerifyLoop_returns_iff (H := H) h i treeLevels 0 (mtInitHash tag)
  have hoff :
      ((∀ k, 0 ≤ k → k < mtRootLoop mt treeLevels 0 → path k i % 2 = 1 →
      path k i - 1 < (mt.lvl k).elems) ∧
      (mt.lvl (mtRootLoop mt treeLevels 0)).elems ≤ path (mtRootLoop mt treeLevels 0) i) ↔
      WalksOff mt i :=
    ⟨fun hc => ⟨fun l => hc.1 l (Nat.zero_le l), hc.2⟩, fun hc => ⟨fun l _ => hc.left l, hc.top⟩⟩
  rw [hoff] at hloop
  unfold mtVerify
  split_ifs with hguard
  · rw [← and_assoc, and_iff_right hguard]
    exact hloop
  · exact iff_of_true ⟨_, rfl⟩ fun hc => hguard ⟨hc.1, hc.2.1⟩

/-- The walk depends on the sizes of the levels only. -/
lemma WalksOff.congr {mt' : Mt} (hs : ∀ l, (mt'.lvl l).elems = (mt.lvl l).elems) {i : ℕ}
    (h : WalksOff mt i) : WalksOff mt' i := by
  have hnext : ∀ l, hasNextLevelExceptRoot mt' l = hasNextLevelExceptRoot mt l := fun l => by
    rw [hasNextLevelExceptRoot, hasNextLevelExceptRoot, mtAlGetSize, mtAlGetSize, hs]
  have htop : ∀ left l, mtRootLoop mt' left l = mtRootLoop mt left l := by
    intro left
    induction left with
    | zero => exact fun _ => rfl
    | succ left ih => intro l; simp only [mtRootLoop, hnext, ih]
  refine ⟨fun l hl hodd => ?_, ?_⟩
  · rw [hs]
    exact h.left l (by rwa [← htop]) hodd
  · rw [hs, htop]
    exact h.top

lemma mtRootLoop_le_height {n : ℕ} (hs : ∀ l, (mt.lvl l).elems ≤ kept l n) (left : ℕ) {l : ℕ}
    (hl : l ≤ height n) : mtRootLoop mt left l ≤ height n := by
  induction left generalizing l with
  | zero => exact hl
  | succ left ih =>
    unfold mtRootLoop
    split_ifs with hnext
    · simp only [hasNextLevelExceptRoot, Bool.and_eq_true, decide_eq_true_eq] at hnext
      have hpos : 0 < (mt.lvl (l+1)).elems := hnext.2
      have hkept : (mt.lvl (l+1)).elems ≤ span l n / 2 := hs (l+1)
      have hspan : 2 ≤ span l n := by omega
      exact ih (two_le_span_iff.mp hspan)
    · exact hl

/-- The ancestors of a multiple of a power of two are exact below that power. -/
lemma path_mul_of_dvd {h i l : ℕ} (hd : 2^h ∣ i) (hl : l ≤ h) : path l i * 2^l = i := by
  rw [path_eq_div]
  exact Nat.div_mul_cancel ((Nat.pow_dvd_pow 2 hl).trans hd)

/-- From a multiple of the width of the tree past its last leaf there is no left neighbor to
find, and no node at the end. -/
lemma walksOff_of_dvd {n i : ℕ} (hs : ∀ l, (mt.lvl l).elems ≤ kept l n) (hn : n ≤ i)
    (hd : 2^height n ∣ i) : WalksOff mt i := by
  have htop := mtRootLoop_le_height hs treeLevels (Nat.zero_le (height n))
  refine ⟨fun l hl hodd => ?_, ?_⟩
  · have heven : path l i = path (l+1) i * 2 := by
      have h1 := path_mul_of_dvd hd (show l ≤ height n by omega)
      have h2 := path_mul_of_dvd hd (show l+1 ≤ height n by omega)
      refine Nat.eq_of_mul_eq_mul_right (Nat.two_pow_pos l) ?_
      rw [h1, Nat.mul_assoc, ← Nat.pow_succ', h2]
    omega
  · refine ((hs _).trans (kept_le_span _ n)).trans ?_
    by_contra hlt
    have := (lt_span_iff _).mp (Nat.lt_of_not_le hlt)
    rw [path_mul_of_dvd hd htop] at this
    omega

/-- Past the width of the tree an odd node on an exact path has no stored left neighbor. -/
lemma path_even_of_left {n i l : ℕ} (hl : l < height n) (hexact : path l i * 2^l = i)
    (hpast : 2^height n ≤ i) (hleft : path l i % 2 = 1 → path l i - 1 < kept l n) :
    path l i % 2 = 0 := by
  by_contra heven
  have hstored := hleft (by omega)
  have hleaf := (lt_span_iff l).mp (hstored.trans_le (kept_le_span l n))
  have hwidth := le_pow_height n
  have hpow : 2^height n = 2^(height n - (l+1))*2*2^l := by
    rw [Nat.mul_assoc, ← Nat.pow_succ', ← Nat.pow_add, Nat.sub_add_cancel hl]
  have hlt := Nat.lt_of_mul_lt_mul_right (a := 2^l) (hleaf.trans_le (hwidth.trans_eq hpow))
  rw [hpow, ← hexact] at hpast
  have hle := Nat.le_of_mul_le_mul_right hpast (Nat.two_pow_pos l)
  omega

section Represented

variable {ls : List MtHash} {i : ℕ}

lemma Represents.mtRootLoop_eq (h : Represents H mt ls) (hn : ls.length < mtAlMaxElems) (left : ℕ)
    {l : ℕ} (hl : l ≤ height ls.length) (hlt : height ls.length < left + l) :
    mtRootLoop mt left l = height ls.length := by
  induction left generalizing l with
  | zero => omega
  | succ left ih =>
    rw [mtRootLoop, hasNextLevel_eq h hn hl]
    by_cases hnext : l < height ls.length
    · rw [if_pos (by simpa using hnext)]
      exact ih hnext (by omega)
    · rw [if_neg (by simpa using hnext)]
      omega

/-- In a well-formed tree the walk ends nowhere from the multiples of its width past its leaves. -/
theorem Represents.walksOff_iff (h : Represents H mt ls) (hn : ls.length < mtAlMaxElems) :
    WalksOff mt i ↔ ls.length ≤ i ∧ 2^height ls.length ∣ i := by
  have hh := height_lt hn
  have htop := h.mtRootLoop_eq hn treeLevels (Nat.zero_le _) (by simp only [treeLevels]; omega)
  have hsize : ∀ l ≤ height ls.length, (mt.lvl l).elems = kept l ls.length := fun l hl =>
    (h.level l (by simp only [treeLevels]; omega)).size
  constructor
  · rintro ⟨hleft, hend⟩
    rw [htop] at hleft hend
    rw [hsize _ le_rfl] at hend
    have hpast : 0 < ls.length → 2^height ls.length ≤ i := fun hpos => by
      have := kept_height_pos hpos
      rw [path_eq_div] at hend
      exact (Nat.one_le_div_iff (Nat.two_pow_pos _)).mp (by omega)
    have hle : ls.length ≤ i := by
      rcases Nat.eq_zero_or_pos ls.length with h0 | hpos
      · omega
      · exact (le_pow_height ls.length).trans (hpast hpos)
    refine ⟨hle, ?_⟩
    have hdvd : ∀ l ≤ height ls.length, 2^l ∣ i := by
      intro l hl
      induction l with
      | zero => simp
      | succ l ih =>
        have hexact := path_mul_of_dvd (ih (by omega)) le_rfl
        have heven := path_even_of_left hl hexact (hpast (pos_of_lt_height hl))
          fun hodd => (hleft l hl hodd).trans_eq (hsize l (by omega))
        refine ⟨path l i / 2, ?_⟩
        calc i = path l i / 2 * 2 * 2^l := by
              rw [Nat.div_mul_cancel (Nat.dvd_of_mod_eq_zero heven), hexact]
          _ = 2^(l+1) * (path l i / 2) := by ring
    exact hdvd _ le_rfl
  · rintro ⟨hle, hd⟩
    exact walksOff_of_dvd (size_le_kept fun l hl => (h.level l hl).size.le) hle hd

end Represented

end IronSafe.Merkle
