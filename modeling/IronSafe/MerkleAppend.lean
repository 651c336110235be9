import IronSafe.MerkleTree
import IronSafe.RaggedTree

/-! The level lists of the tree hold exactly the nodes of the ragged hash tree over its
leaves that have two children, and `mt_add` keeps it so for every number of leaves. -/
namespace IronSafe.Merkle
open RaggedTree

variable {H : MtHash → MtHash → MtHash}

/-- Level `l` stores the nodes of the ragged tree that have a right child. -/
structure LevelOk (H : MtHash → MtHash → MtHash) (al : MtAl) (ls : List MtHash) (l : ℕ) : Prop where
  size : al.elems = kept l ls.length
  get : ∀ j < kept l ls.length, al.store[j]? = node H ls l j

structure Represents (H : MtHash → MtHash → MtHash) (mt : Mt) (ls : List MtHash) : Prop where
  elems : mt.elems = ls.length
  level : ∀ l < treeLevels, LevelOk H (mt.lvl l) ls l

lemma represents_create : Represents H mtCreate [] where
  elems := rfl
  level l _ := ⟨by simp [kept_zero_right], by simp [kept_zero_right]⟩

lemma LevelOk.elems_lt {al : MtAl} {ls : List MtHash} {l : ℕ} (h : LevelOk H al ls l)
    (hn : ls.length < mtAlMaxElems) : al.elems < mtAlMaxElems := by
  have h1 := kept_le_span l ls.length
  have h2 := span_le l ls.length
  rw [h.size]
  omega

/-- A lookup finds the node if it has both children, and the null pointer otherwise. -/
lemma LevelOk.get_eq {al : MtAl} {ls : List MtHash} {l : ℕ} (h : LevelOk H al ls l)
    (hn : ls.length < mtAlMaxElems) (j : ℕ) :
    mtAlGet al j = .ok (if j < kept l ls.length then node H ls l j else none) := by
  rw [mtAlGet_ok (h.elems_lt hn)]
  split_ifs with hj
  · rw [h.get j hj]
  · have hl := h.size
    unfold MtAl.elems at hl
    rw [List.getElem?_eq_none (by omega)]

/-- The entries of a list behind which one more was appended. -/
lemma getElem?_appended {al al' : MtAl} {hash : MtHash} (hs : al'.store = al.store ++ [hash])
    (j : ℕ) : al'.store[j]? = if j = al.elems then some hash else al.store[j]? := by
  rw [hs, List.getElem?_append]
  unfold MtAl.elems
  rcases Nat.lt_trichotomy j al.store.length with hj | hj | hj
  · simp [hj, hj.ne]
  · simp [hj]
  · rw [if_neg (by omega), if_neg (by omega), List.getElem?_eq_none (by simp; omega),
      List.getElem?_eq_none (by omega)]

/-- Writing at an offset inside the list or right behind it; only the latter can fail. -/
lemma mtAlAddOrUpdate_spec (ok : Bool) {al : MtAl} (hash : MtHash) {offset : ℕ}
    (hm : al.elems < mtAlMaxElems) (ho : offset ≤ al.elems) :
    ∃ r al', mtAlAddOrUpdate ok al hash offset = .ok (r,al') ∧
      (r = .success ↔ (offset = al.elems → Grows al.elems → ok = true)) ∧
      (r = .success → al'.elems = max al.elems (offset+1) ∧
        ∀ j, al'.store[j]? = if j = offset then some hash else al.store[j]?) := by
  unfold mtAlAddOrUpdate
  rw [if_neg (by omega), if_neg (by omega)]
  by_cases he : offset = al.elems
  · rw [if_pos he]
    obtain ⟨r, al', h, hiff⟩ := mtAlAdd_outcome ok hash hm
    refine ⟨r, al', h, by simpa [he] using hiff, fun hr => ?_⟩
    rcases (mtAlAdd_cases h).2 with ⟨_, hs⟩ | ⟨hne, _⟩
    · exact ⟨by simp [MtAl.elems, hs, he], fun j => by rw [he, getElem?_appended hs]⟩
    · exact absurd hr hne
  · have hlt : offset < al.elems := by omega
    refine ⟨.success, { al with store := al.store.set offset hash }, ?_,
      by simp [he], fun _ => ⟨?_, fun j => ?_⟩⟩
    · simp [mtAlUpdate, he, hlt, Nat.not_le.mpr hm]
    · simp only [MtAl.elems, List.length_set] at *
      omega
    · unfold MtAl.elems at hlt
      by_cases hj : j = offset
      · simp [hj, hlt]
      · simp [hj, List.getElem?_set_ne (Ne.symm hj)]

/-- On a level below an even path node the append changes nothing. -/
lemma LevelOk.append_even {al : MtAl} {ls : List MtHash} {l : ℕ} (x : MtHash)
    (h : LevelOk H al ls (l+1)) (he : path l ls.length % 2 = 0) :
    LevelOk H al (ls ++ [x]) (l+1) := by
  have hs := span_succ l ls.length
  have hp := path_last l ls.length
  have hk : kept (l+1) (ls ++ [x]).length = kept (l+1) ls.length := by
    simp only [kept, List.length_append, List.length_singleton]
    omega
  refine ⟨by rw [hk]; exact h.size, ?_⟩
  intro j hj
  rw [hk] at hj
  rw [h.get j hj, node_append_of_ne]
  simp only [kept, path] at *
  omega

/-- Below an odd path node the parent is written, in place or as a new last entry. -/
lemma LevelOk.append_odd {al al' : MtAl} {ls : List MtHash} {l : ℕ} {x d : MtHash}
    (h : LevelOk H al ls (l+1)) (ho : path l ls.length % 2 = 1)
    (hd : node H (ls ++ [x]) (l+1) (path l ls.length / 2) = some d)
    (hsize : al'.elems = max al.elems (path l ls.length / 2 + 1))
    (hget : ∀ j, al'.store[j]? = if j = path l ls.length / 2 then some d else al.store[j]?) :
    LevelOk H al' (ls ++ [x]) (l+1) := by
  have hs := span_succ l ls.length
  have hp := path_last l ls.length
  have hz := h.size
  have hk : kept (l+1) (ls ++ [x]).length = path l ls.length / 2 + 1 := by
    simp only [kept, List.length_append, List.length_singleton]
    omega
  have hk' : kept (l+1) ls.length ≤ path l ls.length / 2 + 1 ∧
      path l ls.length / 2 ≤ kept (l+1) ls.length := by
    simp only [kept]
    omega
  refine ⟨by omega, ?_⟩
  intro j hj
  rw [hget j]
  split_ifs with hje
  · rw [hje, hd]
  · rw [h.get j (by omega), node_append_of_ne H ls x (by simpa [path] using hje)]

/-- `mt_add` has walked up to level `l` with digest `d`: the levels up to `l` already describe
the new leaf list, the levels above still the old one. -/
structure Climbing (H : MtHash → MtHash → MtHash) (ls : List MtHash) (x : MtHash) (mt : Mt) (l : ℕ)
    (d : MtHash) : Prop where
  stored : 0 < kept l (ls.length+1)
  digest : node H (ls ++ [x]) l (path l ls.length) = some d
  low : ∀ k ≤ l, k < treeLevels → LevelOk H (mt.lvl k) (ls ++ [x]) k
  high : ∀ k, l < k → k < treeLevels → LevelOk H (mt.lvl k) ls k

/-- Below the limit of leaves no inner node lies on the last level. -/
lemma level_lt_of_stored {l n : ℕ} (hn : n < mtAlMaxElems) (hk : 0 < kept l n) :
    l+1 < treeLevels := by
  cases l with
  | zero => simp [treeLevels]
  | succ l =>
    have hspan : ¬ span l n ≤ 1 := by simp only [kept] at hk; omega
    rw [span_le_one_iff] at hspan
    have hpow : 2^l < 2^22 := by simp only [mtAlMaxElems] at hn; omega
    have hlt := (Nat.pow_lt_pow_iff_right (show 1 < 2 by omega)).mp hpow
    simp only [treeLevels]
    omega

section Climbing

variable {ls : List MtHash} {x : MtHash} {mt : Mt} {l : ℕ} {d : MtHash}

/-- At the top the levels above have not changed. -/
lemma Climbing.levels (h : Climbing H ls x mt l d) (hq : path l ls.length = 0) :
    ∀ k < treeLevels, LevelOk H (mt.lvl k) (ls ++ [x]) k := by
  intro k hkl
  by_cases hkle : k ≤ l
  · exact h.low k hkle hkl
  · obtain ⟨m, rfl⟩ : ∃ m, k = l+m+1 := ⟨k-l-1, by omega⟩
    exact (h.high _ (by omega) hkl).append_even x (by rw [path_add_eq_zero hq])

lemma Climbing.stored_up (hq : path l ls.length ≠ 0) : 0 < kept (l+1) (ls.length+1) := by
  have hspan := path_last l ls.length
  simp only [kept]
  omega

/-- An even node has no right neighbor, so its digest is promoted. -/
lemma Climbing.even (h : Climbing H ls x mt l d) (hq : path l ls.length ≠ 0)
    (he : path l ls.length % 2 = 0) : Climbing H ls x mt (l+1) d := by
  have hspan := path_last l ls.length
  have hnone : node H (ls ++ [x]) l (path l ls.length + 1) = none := by
    rw [node_eq_none, List.length_append, List.length_singleton]
    omega
  have hup := climb_node H (ls ++ [x]) h.digest
  rw [climb, if_pos he, hnone] at hup
  refine ⟨Climbing.stored_up hq, hup, ?_, fun k hk => h.high k (by omega)⟩
  intro k hk hkl
  rcases Nat.le_succ_iff.mp hk with hkl' | rfl
  · exact h.low k hkl' hkl
  · exact (h.high (l+1) (by omega) hkl).append_even x he

/-- An odd node is hashed with its left neighbor, and the level above gets the parent. -/
lemma Climbing.odd (h : Climbing H ls x mt l d) (hl : l+1 < treeLevels)
    (ho : path l ls.length % 2 = 1) {a : MtHash}
    (ha : node H (ls ++ [x]) l (path l ls.length - 1) = some a) {al : MtAl}
    (hsize : al.elems = max (mt.lvl (l+1)).elems (path l ls.length / 2 + 1))
    (hget : ∀ j, al.store[j]? = if j = path l ls.length / 2 then some (H a d)
      else (mt.lvl (l+1)).store[j]?) : Climbing H ls x (mt.setLvl (l+1) al) (l+1) (H a d) := by
  have hup := climb_node H (ls ++ [x]) h.digest
  rw [climb, if_neg (by omega), ha] at hup
  refine ⟨Climbing.stored_up (by omega), hup, ?_, ?_⟩
  · intro k hk hkl
    rcases Nat.le_succ_iff.mp hk with hkl' | rfl
    · rw [lvl_setLvl_of_ne _ _ (by omega)]
      exact h.low k hkl' hkl
    · rw [lvl_setLvl_self _ _ hl]
      exact (h.high (l+1) (by omega) hl).append_odd ho hup hsize hget
  · intro k hk hkl
    rw [lvl_setLvl_of_ne _ _ (by omega)]
    exact h.high k (by omega) hkl

/-- The parent is written inside the level above or right behind it. -/
lemma Climbing.offset_le (h : Climbing H ls x mt l d) (hl : l+1 < treeLevels) :
    path l ls.length / 2 ≤ (mt.lvl (l+1)).elems := by
  have hspan := path_last l ls.length
  have hs := span_succ l ls.length
  rw [(h.high (l+1) (by omega) hl).size]
  simp only [kept]
  omega

lemma Climbing.get_eq (h : Climbing H ls x mt l d) (hl : l < treeLevels)
    (hn : ls.length + 1 < mtAlMaxElems) (j : ℕ) :
    mtAlGet (mt.lvl l) j =
      .ok (if j < kept l (ls.length+1) then node H (ls ++ [x]) l j else none) := by
  have hlen : (ls ++ [x]).length = ls.length + 1 := by simp
  rw [(h.low l le_rfl hl).get_eq (by rw [hlen]; exact hn), hlen]

end Climbing

/-- The append of leaf `n` creates the inner node above path node `l`, and this needs memory and
gets none. -/
def Starves (mem : ℕ → Bool) (n l : ℕ) : Prop := ∃ m, n = 2^l*(2*m+1) ∧ Grows m ∧ mem (l+1) = false

lemma starves_iff {mem : ℕ → Bool} {n l : ℕ} : Starves mem n l ↔ path l n % 2 = 1 ∧
    ¬ (path l n / 2 = kept (l+1) n → Grows (kept (l+1) n) → mem (l+1) = true) := by
  constructor
  · rintro ⟨m, hn, hgrows, hmem⟩
    have hpath : path l n = 2*m+1 := by
      rw [path_eq_div, hn, Nat.mul_div_cancel_left _ (Nat.two_pow_pos l)]
    have hodd : path l n % 2 = 1 := by omega
    have hhalf : path l n / 2 = kept (l+1) n :=
      (path_half_eq_kept_iff hodd).mpr (by rw [hpath]; exact hn)
    have hm : kept (l+1) n = m := by omega
    refine ⟨hodd, fun h => ?_⟩
    have htrue := h hhalf (by rw [hm]; exact hgrows)
    rw [hmem] at htrue
    cases htrue
  · rintro ⟨hodd, h⟩
    simp only [Classical.not_imp, Bool.not_eq_true] at h
    obtain ⟨hhalf, hgrows, hmem⟩ := h
    have hn := (path_half_eq_kept_iff hodd).mp hhalf
    refine ⟨kept (l+1) n, ?_, hgrows, hmem⟩
    rw [← hhalf, show 2*(path l n / 2) + 1 = path l n by omega]
    exact hn

lemma not_starves_of_path {mem : ℕ → Bool} {n l : ℕ} (h : path l n = 0) {k : ℕ} (hk : l ≤ k) :
    ¬ Starves mem n k := by
  obtain ⟨m, rfl⟩ : ∃ m, k = l+m := ⟨k-l, by omega⟩
  rw [starves_iff, path_add_eq_zero h]
  omega

section Walk

variable {ls : List MtHash} {x : MtHash} {mt : Mt} {l : ℕ} {d : MtHash}

/-- The left neighbor of an odd node is stored. -/
lemma Climbing.sibling (h : Climbing H ls x mt l d) (hl : l < treeLevels)
    (hn : ls.length + 1 < mtAlMaxElems) (ho : path l ls.length % 2 = 1) :
    ∃ a, node H (ls ++ [x]) l (path l ls.length - 1) = some a ∧
      mtAlGet (mt.lvl l) (path l ls.length - 1) = .ok (some a) := by
  have hspan := path_last l ls.length
  have hkept := path_le_kept l ls.length
  obtain ⟨a, ha⟩ := exists_node H (ls ++ [x]) (l := l) (j := path l ls.length - 1) (by simp; omega)
  exact ⟨a, ha, by rw [h.get_eq hl hn, if_pos (by omega), ha]⟩

/-- The parent of an odd node is stored unless its memory is missing. -/
lemma Climbing.store_parent (h : Climbing H ls x mt l d) (hl : l+1 < treeLevels)
    (hn : ls.length + 1 < mtAlMaxElems) (ho : path l ls.length % 2 = 1) (mem : ℕ → Bool)
    {a : MtHash} (ha : node H (ls ++ [x]) l (path l ls.length - 1) = some a) :
    ∃ r al, mtAlAddOrUpdate (mem (l+1)) (mt.lvl (l+1)) (H a d) (path l ls.length / 2) = .ok (r,al) ∧
      (r = .success ↔ ¬ Starves mem ls.length l) ∧
      (r = .success → Climbing H ls x (mt.setLvl (l+1) al) (l+1) (H a d)) := by
  have hal := h.high (l+1) (by omega) hl
  obtain ⟨r, al, hr, hiff, hok⟩ :=
    mtAlAddOrUpdate_spec (mem (l+1)) (H a d) (hal.elems_lt (by omega)) (h.offset_le hl)
  refine ⟨r, al, hr, ?_, fun hs => h.odd hl ho ha (hok hs).1 (hok hs).2⟩
  rw [starves_iff, hiff, hal.size]
  simp only [ho, true_and, not_not]

end Walk

/-- The upward walk of `mt_add` from level `l`. -/
lemma mtAddLoop_spec (mem : ℕ → Bool) (ls : List MtHash) (x : MtHash)
    (hn : ls.length + 1 < mtAlMaxElems) (left : ℕ) :
    ∀ (l : ℕ) (d : MtHash) (mt : Mt), left + l = treeLevels → Climbing H ls x mt l d →
      ∃ r mt', mtAddLoop H mem left (path l ls.length) l d mt = .ok (r,mt') ∧
        mt'.elems = mt.elems ∧ (r = .success ↔ ∀ k, l ≤ k → ¬ Starves mem ls.length k) ∧
        (r = .success → ∀ k < treeLevels, LevelOk H (mt'.lvl k) (ls ++ [x]) k) := by
  induction left with
  | zero =>
    intro l d mt hl h
    have hlt := level_lt_of_stored hn h.stored
    omega
  | succ left ih =>
    intro l d mt hl h
    have hlt := level_lt_of_stored hn h.stored
    unfold mtAddLoop
    by_cases hq : path l ls.length = 0
    · have hd := h.digest
      rw [if_pos hq]
      refine ⟨.success, mt, ?_, rfl,
        by simpa using fun k => not_starves_of_path hq, fun _ => h.levels hq⟩
      rw [hq] at hd ⊢
      simp [mtAddDone, h.get_eq (by omega) hn, h.stored, hd, Nat.not_le.mpr (Nat.lt_of_succ_lt hlt)]
    · rw [if_neg hq, forall_levels_iff]
      by_cases ho : path l ls.length % 2 = 1
      · rw [if_pos (by simp [mtRight, ho])]
        obtain ⟨a, ha, hget⟩ := h.sibling (by omega) hn ho
        obtain ⟨r, al, hr, hiff, hup⟩ := h.store_parent hlt hn ho mem ha
        simp only [hget, if_neg (Nat.not_le.mpr hlt), hr]
        by_cases hrs : r = .success
        · subst hrs
          obtain ⟨r', mt', hrun, helems, hiff', hlevels⟩ := ih (l+1) (H a d) _ (by omega) (hup rfl)
          exact ⟨r', mt', hrun, helems, by rw [hiff', and_iff_right (hiff.mp rfl)], hlevels⟩
        · refine ⟨r, mt.setLvl (l+1) al, ?_, rfl, ?_, fun hs => absurd hs hrs⟩
          · cases r <;> first | exact absurd rfl hrs | rfl
          · exact ⟨fun hs => absurd hs hrs, fun hk => hiff.mpr hk.1⟩
      · rw [if_neg (by simpa [mtRight] using ho)]
        have heven : ¬ Starves mem ls.length l := fun hs => ho (starves_iff.mp hs).1
        obtain ⟨r, mt', hrun, helems, hiff, hlevels⟩ :=
          ih (l+1) d mt (by omega) (h.even hq (by omega))
        exact ⟨r, mt', hrun, helems, by rw [hiff, and_iff_right heven], hlevels⟩

/-- The leaf list after an append at level 0. -/
lemma LevelOk.append_leaf {al al' : MtAl} {ls : List MtHash} {x : MtHash}
    (h : LevelOk H al ls 0) (hs : al'.store = al.store ++ [x]) : LevelOk H al' (ls ++ [x]) 0 := by
  have hsize := h.size
  simp only [kept, MtAl.elems] at hsize
  refine ⟨by simp [MtAl.elems, hs, kept, hsize], ?_⟩
  intro j hj
  have hl : ∀ i < ls.length, al.store[i]? = ls[i]? := fun i hi => h.get i (by simpa [kept] using hi)
  simp only [kept, List.length_append, List.length_singleton] at hj
  simp only [node, hs, List.getElem?_append, hsize]
  split_ifs with hj'
  · exact hl j hj'
  · rfl

/-- After the append at level 0 the walk starts at the new leaf. -/
lemma Represents.climbing {mt : Mt} {ls : List MtHash} {x : MtHash} {al : MtAl}
    (h : Represents H mt ls) (hs : al.store = (mt.lvl 0).store ++ [x]) (n : ℕ) :
    Climbing H ls x { mt.setLvl 0 al with elems := n } 0 x where
  stored := by simp [kept]
  digest := by simp [node, path]
  low k hk hkl := by
    obtain rfl : k = 0 := by omega
    rw [lvl_with_elems, lvl_setLvl_self _ _ hkl]
    exact (h.level 0 hkl).append_leaf hs
  high k hk hkl := by
    rw [lvl_with_elems, lvl_setLvl_of_ne _ _ (by omega)]
    exact h.level k hkl

/-- Below the limit `mt_add` fails only for lack of memory: at the leaf, and then nothing has
changed, or above it, and then the leaf is there and counted. -/
lemma mtAdd_outcome (mem : ℕ → Bool) {mt : Mt} {ls : List MtHash} {tag : List UInt8}
    (h : Represents H mt ls) (hn : ls.length + 1 < mtAlMaxElems) (ht : tag.length ≤ hashLength) :
    ∃ r mt', mtAdd H mem mt tag = .ok (r,mt') ∧
      (r = .success ↔ (Grows ls.length → mem 0 = true) ∧ ∀ l, ¬ Starves mem ls.length l) ∧
      (r = .success → Represents H mt' (ls ++ [mtInitHash tag])) ∧
      ((Grows ls.length → mem 0 = true) → mt'.elems = ls.length + 1) ∧
      (¬ (Grows ls.length → mem 0 = true) → mt' = mt) := by
  have hm : mtAlMaxElems = 4194304 := rfl
  have h0 := h.level 0 (by simp [treeLevels])
  have hsize : (mt.lvl 0).elems = ls.length := h0.size
  obtain ⟨r, al, hr, hiff⟩ := mtAlAdd_outcome (mem 0) (mtInitHash tag) (h0.elems_lt (by omega))
  rw [hsize] at hiff
  unfold mtAdd
  rw [if_neg (by omega), hr]
  by_cases hrs : r = .success
  · subst hrs
    have hleaf := hiff.mp rfl
    obtain ⟨_, hs⟩ := (mtAlAdd_cases hr).2.resolve_right (by simp)
    have hmod : (mt.elems+1) % 2^32 = ls.length + 1 := by rw [h.elems]; omega
    have hclimb := h.climbing hs (ls.length + 1)
    simp only [hmod]
    by_cases h1 : ls.length + 1 = 1
    · have hzero : path 0 ls.length = 0 := by simp only [path]; omega
      have hnot : ∀ l, ¬ Starves mem ls.length l :=
        fun l => not_starves_of_path hzero (Nat.zero_le l)
      rw [if_pos h1]
      exact ⟨.success, _, rfl, ⟨fun _ => ⟨hleaf, hnot⟩, fun _ => rfl⟩,
        fun _ => ⟨by simp, hclimb.levels hzero⟩, fun _ => rfl, fun hc => absurd hleaf hc⟩
    · rw [if_neg h1]
      have hq : (ls.length + 1 + (2^32-1)) % 2^32 = path 0 ls.length := by simp only [path]; omega
      obtain ⟨r', mt'', hrun, helems, hiff', hok⟩ :=
        mtAddLoop_spec mem ls (mtInitHash tag) hn treeLevels 0 (mtInitHash tag) _ rfl hclimb
      rw [hq]
      refine ⟨r', mt'', hrun, ?_, fun hr' => ⟨by rw [helems]; simp, hok hr'⟩, fun _ => helems,
        fun hc => absurd hleaf hc⟩
      rw [hiff']
      exact ⟨fun hk => ⟨hleaf, fun l => hk l (Nat.zero_le l)⟩, fun hk l _ => hk.2 l⟩
  · have hleaf : ¬ (Grows ls.length → mem 0 = true) := fun hc => hrs (hiff.mpr hc)
    have hkeep : mt.setLvl 0 al = mt := by
      rcases (mtAlAdd_cases hr).2 with ⟨hs, -⟩ | ⟨-, rfl⟩
      · exact absurd hs hrs
      · exact setLvl_lvl mt (by simp [treeLevels])
    refine ⟨r, mt.setLvl 0 al, ?_, ?_, fun hr' => absurd hr' hrs, fun hc => absurd hc hleaf,
      fun _ => hkeep⟩
    · cases r <;> first | exact absurd rfl hrs | rfl
    · exact ⟨fun hs => absurd hs hrs, fun hc => absurd hc.1 hleaf⟩

/-- Below the limit `mt_add` appends one leaf to the represented tree, unless memory runs
out on the way. -/
theorem mtAdd_spec (mem : ℕ → Bool) {mt : Mt} {ls : List MtHash} {tag : List UInt8}
    (h : Represents H mt ls) (hn : ls.length + 1 < mtAlMaxElems) (ht : tag.length ≤ hashLength) :
    ∃ r mt', mtAdd H mem mt tag = .ok (r,mt') ∧ ((∀ k, mem k = true) → r = .success) ∧
      (r = .success → Represents H mt' (ls ++ [mtInitHash tag])) := by
  obtain ⟨r, mt', hr, hiff, hrep, -⟩ := mtAdd_outcome mem h hn ht
  refine ⟨r, mt', hr, fun hall => hiff.mpr ⟨fun _ => hall 0, ?_⟩, hrep⟩
  rintro l ⟨m, -, -, hmem⟩
  rw [hall] at hmem
  cases hmem

/-- The leaf that would fill level 0 makes the assertion in `mt_al_get` stop the process. -/
lemma mtAdd_full (mem : ℕ → Bool) {mt : Mt} {tag : List UInt8} (hsize : (mt.lvl 0).elems = mt.elems)
    (hn : mtAlMaxElems ≤ mt.elems + 1) (ht : tag.length ≤ hashLength) :
    mtAdd H mem mt tag = .error .assertion := by
  have hm : mtAlMaxElems = 4194304 := rfl
  unfold mtAdd
  rw [if_neg (by omega)]
  by_cases hfull : mtAlMaxElems ≤ mt.elems
  · rw [mtAlAdd, if_pos (by omega)]
  · have hlen : mt.elems = 4194303 := by omega
    have hadd : mtAlAdd (mem 0) (mt.lvl 0) (mtInitHash tag) =
        .ok (.success, ⟨(mt.lvl 0).store ++ [mtInitHash tag], (mt.lvl 0).cap⟩) := by
      rw [mtAlAdd, hsize, hlen, if_neg (by decide), if_neg (by decide), if_neg (by decide)]
    have hal : MtAl.elems ⟨(mt.lvl 0).store ++ [mtInitHash tag], (mt.lvl 0).cap⟩ = 4194304 := by
      unfold MtAl.elems at hsize ⊢
      rw [List.length_append, hsize, hlen, List.length_singleton]
    have hmod : (mt.elems+1) % 2^32 = 4194304 := by rw [hlen]; norm_num
    rw [hadd]
    simp only [hmod]
    rw [if_neg (by omega), show treeLevels = 23+1 from rfl, mtAddLoop, if_neg (by omega),
      if_pos (by decide)]
    simp [mtAlGet, lvl_setLvl_self _ _ (show 0 < treeLevels by simp [treeLevels]), hal, hm]

lemma mtAdd_at_limit (mem : ℕ → Bool) {mt : Mt} {ls : List MtHash} {tag : List UInt8}
    (h : Represents H mt ls) (hn : mtAlMaxElems ≤ ls.length + 1) (ht : tag.length ≤ hashLength) :
    mtAdd H mem mt tag = .error .assertion := by
  have hsize : (mt.lvl 0).elems = ls.length := (h.level 0 (by simp [treeLevels])).size
  exact mtAdd_full mem (by rw [hsize, h.elems]) (by rw [h.elems]; exact hn) ht

/-- A successful `mt_add` leaves the number of leaves below the limit. -/
theorem mtAdd_success_lt {mem : ℕ → Bool} {mt mt' : Mt} {ls : List MtHash} {tag : List UInt8}
    (h : Represents H mt ls) (hr : mtAdd H mem mt tag = .ok (.success,mt')) :
    ls.length + 1 < mtAlMaxElems ∧ tag.length ≤ hashLength := by
  have ht : tag.length ≤ hashLength := by
    by_contra ht
    rw [mtAdd, if_pos (by omega)] at hr
    cases hr
  refine ⟨?_, ht⟩
  by_contra hn
  rw [mtAdd_at_limit mem h (by omega) ht] at hr
  cases hr

end IronSafe.Merkle
