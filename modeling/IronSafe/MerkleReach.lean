import IronSafe.MerkleAppend

/-! Trees reachable by `mt_add` and `mt_update`, whatever error codes the calls return on
the way: the leaf counter is the size of level 0, and no level is larger than that number
of leaves allows. An append that fails half way leaves levels too small, never too large. -/
namespace IronSafe.Merkle
open RaggedTree

variable {H : MtHash → MtHash → MtHash}

inductive Reach (H : MtHash → MtHash → MtHash) : Mt → Prop
  | create : Reach H mtCreate
  | add {mt mt' : Mt} {mem : ℕ → Bool} {tag : List UInt8} {r : MtError} (run : Reach H mt)
      (h : mtAdd H mem mt tag = .ok (r,mt')) : Reach H mt'
  | update {mt mt' : Mt} {tag : List UInt8} {offset : ℕ} {r : MtError} (run : Reach H mt)
      (h : mtUpdate H mt tag offset = .ok (r,mt')) : Reach H mt'

/-- Sizes of a reachable tree. -/
structure Sized (mt : Mt) : Prop where
  leaves : (mt.lvl 0).elems = mt.elems
  limit : mt.elems ≤ mtAlMaxElems
  level : ∀ l < treeLevels, (mt.lvl l).elems ≤ kept l mt.elems

lemma sized_create : Sized mtCreate where
  leaves := by rw [mtCreate_lvl]; rfl
  limit := by simp [mtCreate]
  level l _ := by simp

/-- Two trees whose counters and level sizes agree. -/
def SameSizes (mt mt' : Mt) : Prop :=
  mt'.elems = mt.elems ∧ ∀ l < treeLevels, (mt'.lvl l).elems = (mt.lvl l).elems

lemma SameSizes.refl (mt : Mt) : SameSizes mt mt := ⟨rfl, fun _ _ => rfl⟩

lemma SameSizes.trans {a b c : Mt} (h1 : SameSizes a b) (h2 : SameSizes b c) : SameSizes a c :=
  ⟨h2.1.trans h1.1, fun l hl => (h2.2 l hl).trans (h1.2 l hl)⟩

lemma SameSizes.setLvl {mt : Mt} {l : ℕ} {al : MtAl} (h : al.elems = (mt.lvl l).elems) :
    SameSizes mt (mt.setLvl l al) := by
  refine ⟨rfl, fun k hk => ?_⟩
  by_cases he : k = l
  · subst he
    rw [lvl_setLvl_self _ _ hk, h]
  · rw [lvl_setLvl_of_ne _ _ he]

lemma Sized.congr {mt mt' : Mt} (h : Sized mt) (hs : SameSizes mt mt') : Sized mt' := by
  obtain ⟨he, hl⟩ := hs
  refine ⟨?_, by rw [he]; exact h.limit, fun l hlt => ?_⟩
  · rw [hl 0 (by simp [treeLevels]), he, h.leaves]
  · rw [hl l hlt, he]
    exact h.level l hlt

lemma mtAlUpdate_size {al al' : MtAl} {hash : MtHash} {offset : ℕ} {r : MtError}
    (h : mtAlUpdate al hash offset = .ok (r,al')) : al'.elems = al.elems := by
  unfold mtAlUpdate at h
  split_ifs at h <;> cases h <;> simp [MtAl.elems]

lemma mtAlUpdateIfExists_size {al al' : MtAl} {hash : MtHash} {offset : ℕ} {r : MtError}
    (h : mtAlUpdateIfExists al hash offset = .ok (r,al')) : al'.elems = al.elems := by
  unfold mtAlUpdateIfExists at h
  split_ifs at h <;> cases h <;> simp [MtAl.elems]

lemma mtAddDone_keeps {q l : ℕ} {digest : MtHash} {mt mt' : Mt} {r : MtError}
    (h : mtAddDone q l digest mt = .ok (r,mt')) : mt' = mt := by
  unfold mtAddDone at h
  split_ifs at h
  split at h
  · cases h
  · cases h
  · split_ifs at h
    cases h
    rfl

lemma mtUpdateLoop_sizes {left q l : ℕ} {digest : MtHash} {mt mt' : Mt} {r : MtError}
    (h : mtUpdateLoop H left q l digest mt = .ok (r,mt')) : SameSizes mt mt' := by
  induction left generalizing q l digest mt with
  | zero =>
    rw [mtAddDone_keeps h]
    exact SameSizes.refl mt
  | succ left ih =>
    unfold mtUpdateLoop at h
    split_ifs at h with hn
    · split at h
      · cases h
      · cases h
        exact SameSizes.refl _
      · split at h
        · cases h
        · rename_i hup
          exact (SameSizes.setLvl (mtAlUpdateIfExists_size hup)).trans (ih h)
        · rename_i hup
          cases h
          exact SameSizes.setLvl (mtAlUpdateIfExists_size hup)
    · rw [mtAddDone_keeps h]
      exact SameSizes.refl mt

lemma mtUpdate_sizes {mt mt' : Mt} {tag : List UInt8} {offset : ℕ} {r : MtError}
    (h : mtUpdate H mt tag offset = .ok (r,mt')) : SameSizes mt mt' := by
  unfold mtUpdate at h
  split_ifs at h with hc
  · split at h
    · cases h
    · rename_i hup
      exact (SameSizes.setLvl (mtAlUpdate_size hup)).trans (mtUpdateLoop_sizes h)
    · rename_i hup
      cases h
      exact SameSizes.setLvl (mtAlUpdate_size hup)
  · cases h
    exact SameSizes.refl mt

lemma mtAlAddOrUpdate_size {ok : Bool} {al al' : MtAl} {hash : MtHash} {offset : ℕ} {r : MtError}
    (h : mtAlAddOrUpdate ok al hash offset = .ok (r,al')) :
    al'.elems ≤ max al.elems (offset+1) := by
  unfold mtAlAddOrUpdate at h
  split_ifs at h with h1 h2 h3
  · cases h
    omega
  · obtain ⟨-, ⟨-, hs⟩ | ⟨-, rfl⟩⟩ := mtAlAdd_cases h
    · have : al'.elems = al.elems + 1 := by simp [MtAl.elems, hs]
      omega
    · omega
  · rw [mtAlUpdate_size h]
    omega

lemma Sized.setLvl {mt : Mt} {l : ℕ} {al : MtAl} (h : Sized mt) (hl : l ≠ 0)
    (hal : al.elems ≤ kept l mt.elems) : Sized (mt.setLvl l al) := by
  refine ⟨?_, h.limit, fun k hk => ?_⟩
  · rw [lvl_setLvl_of_ne _ _ (Ne.symm hl)]
    exact h.leaves
  · by_cases he : k = l
    · subst he
      rw [lvl_setLvl_self _ _ hk]
      exact hal
    · rw [lvl_setLvl_of_ne _ _ he]
      exact h.level k hk

/-- The loop of `mt_add` keeps the sizes: an inner node is stored at the next free place
of its level at most, and only when its right child exists. -/
lemma mtAddLoop_sized {mem : ℕ → Bool} {left l n : ℕ} {digest : MtHash} {mt mt' : Mt} {r : MtError}
    (hs : Sized mt) (hn : mt.elems = n+1)
    (h : mtAddLoop H mem left (path l n) l digest mt = .ok (r,mt')) :
    Sized mt' ∧ mt'.elems = n+1 := by
  induction left generalizing l digest mt with
  | zero =>
    rw [mtAddDone_keeps h]
    exact ⟨hs, hn⟩
  | succ left ih =>
    unfold mtAddLoop at h
    split_ifs at h with h0 hodd hl
    · rw [mtAddDone_keeps h]
      exact ⟨hs, hn⟩
    · split at h <;> cases h
      exact ⟨hs, hn⟩
    · split at h
      · cases h
      · cases h
        exact ⟨hs, hn⟩
      · have hstep : ∀ {e : MtError} {al : MtAl} {d : MtHash},
            mtAlAddOrUpdate (mem (l+1)) (mt.lvl (l+1)) d (path l n / 2) = .ok (e,al) →
              Sized (mt.setLvl (l+1) al) := by
          intro e al d hal
          have h1 := mtAlAddOrUpdate_size hal
          have h2 := hs.level (l+1) (by omega)
          have h3 := path_last l n
          have hq : path l n % 2 = 1 := by simpa [mtRight] using hodd
          refine hs.setLvl (by omega) ?_
          rw [hn] at h2 ⊢
          simp only [kept] at h2 ⊢
          omega
        split at h
        · cases h
        · rename_i hal
          exact ih (l := l+1) (hstep hal) hn h
        · rename_i hal
          cases h
          exact ⟨hstep hal, hn⟩
    · exact ih (l := l+1) hs hn h

lemma mtAdd_sized {mem : ℕ → Bool} {mt mt' : Mt} {tag : List UInt8} {r : MtError} (hs : Sized mt)
    (h : mtAdd H mem mt tag = .ok (r,mt')) : Sized mt' ∧ mt'.elems ≤ mt.elems+1 := by
  unfold mtAdd at h
  split_ifs at h with hlong
  · cases h
    exact ⟨hs, Nat.le_succ _⟩
  · split at h
    · cases h
    · rename_i al hal
      obtain ⟨hlt, ⟨-, hstore⟩ | ⟨hne, -⟩⟩ := mtAlAdd_cases hal
      swap
      · exact absurd rfl hne
      rw [hs.leaves] at hlt
      have hmod : (mt.elems+1) % 2^32 = mt.elems+1 :=
        Nat.mod_eq_of_lt (by simp only [mtAlMaxElems] at hlt; omega)
      have hal' : al.elems = mt.elems+1 := by
        rw [← hs.leaves]
        simp [MtAl.elems, hstore]
      simp only [hmod] at h
      have hnew : Sized { mt.setLvl 0 al with elems := mt.elems+1 } := by
        refine ⟨?_, hlt, fun k hk => ?_⟩
        · rw [lvl_with_elems, lvl_setLvl_self _ _ (by simp [treeLevels]), hal']
        · by_cases he : k = 0
          · subst he
            rw [lvl_with_elems, lvl_setLvl_self _ _ hk, hal']
            exact le_rfl
          · rw [lvl_with_elems, lvl_setLvl_of_ne _ _ he]
            exact (hs.level k hk).trans (kept_mono k (Nat.le_succ _))
      split_ifs at h
      · cases h
        exact ⟨hnew, le_rfl⟩
      · have hq : (mt.elems+1 + (2^32-1)) % 2^32 = path 0 mt.elems := by
          simp only [path, mtAlMaxElems] at hlt ⊢
          omega
        rw [hq] at h
        exact (mtAddLoop_sized hnew rfl h).imp_right Eq.le
    · rename_i hne hal
      cases h
      obtain ⟨-, ⟨rfl, -⟩ | ⟨-, rfl⟩⟩ := mtAlAdd_cases hal
      · exact (hne rfl).elim
      · exact ⟨hs.congr (SameSizes.setLvl rfl), Nat.le_succ _⟩

/-- Every reachable tree has the sizes of its leaf count. -/
theorem Reach.sized {mt : Mt} (h : Reach H mt) : Sized mt := by
  induction h with
  | create => exact sized_create
  | add _ hadd ih => exact (mtAdd_sized ih hadd).1
  | update _ hup ih => exact ih.congr (mtUpdate_sizes hup)

/-- No reachable tree has reached the limit: the append that gets there does not return. -/
lemma Reach.elems_lt {mt : Mt} (h : Reach H mt) : mt.elems < mtAlMaxElems := by
  induction h with
  | create => simp [mtCreate, mtAlMaxElems]
  | @add mt mt' mem tag r run hadd ih =>
    have hgrow := (mtAdd_sized run.sized hadd).2
    by_cases hn : mt.elems + 1 < mtAlMaxElems
    · omega
    · by_cases ht : tag.length ≤ hashLength
      · rw [mtAdd_full mem run.sized.leaves (by omega) ht] at hadd
        cases hadd
      · rw [mtAdd, if_pos (by omega)] at hadd
        cases hadd
        exact ih
  | update _ hup ih =>
    rw [(mtUpdate_sizes hup).1]
    exact ih

end IronSafe.Merkle
