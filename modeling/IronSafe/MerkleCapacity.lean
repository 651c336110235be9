import IronSafe.MerkleSerialize
import IronSafe.PowerTwo

/-! The memory of the hash lists. A list that is restored gets a store that is sized by
`next_power_two`; a list that grows gets a new store whenever its size is a power of two. -/
namespace IronSafe.Merkle
open Bytes PowerTwo

section NextPowerTwo

variable {e : BitVec 32}

lemma nextPowerTwo_eq_smear (e : BitVec 32) : nextPowerTwo e = smear 5 (e-1) + 1 := rfl

lemma nextPowerTwo_toNat (hpos : 0 < e.toNat) (hle : e.toNat ≤ 2^31) :
    (nextPowerTwo e).toNat = 2^(e.toNat-1).size := by
  have hpred : (e-1).toNat = e.toNat-1 := BitVec.toNat_sub_of_le (BitVec.le_def.mpr hpos)
  have hsize : (e.toNat-1).size ≤ 31 := Nat.size_le.mpr (by omega)
  have hpow : 2^(e.toNat-1).size ≤ 2^31 := Nat.pow_le_pow_right (by omega) hsize
  rw [nextPowerTwo_eq_smear, toNat_smear_add_one (by norm_num), hpred, Nat.mod_eq_of_lt (by omega)]

lemma fits_nextPowerTwo (hpos : 0 < e.toNat) (hle : e.toNat ≤ 2^31) :
    Fits e.toNat (nextPowerTwo e).toNat := by
  rw [nextPowerTwo_toNat hpos hle]
  exact fits_size hpos

end NextPowerTwo

/-- The store of a list that is not empty has the least power of two of entries that holds it. An
empty list has no store. -/
structure MtAl.Allocated (al : MtAl) : Prop where
  empty : al.elems = 0 → al.cap = 0
  fits : 0 < al.elems → Fits al.elems al.cap

/-- The list is a level of a tree that was loaded from a file. -/
def Restored (al : MtAl) : Prop := ∃ file, al ∈ (deserializeInitMt file).mt.level

/-- The list after further calls of `mt_al_add`, with memory available. -/
inductive Extended (al : MtAl) : MtAl → Prop
  | refl : Extended al al
  | add {al' al'' : MtAl} {hash : MtHash} {r : MtError} (run : Extended al al')
      (h : mtAlAdd true al' hash = .ok (r,al'')) : Extended al al''

section Restore

variable {al : MtAl} {buf : List UInt8}

lemma exists_of_mem_readLevels {left : ℕ} (h : al ∈ readLevels left buf) :
    ∃ rest, al = readLevel rest := by
  induction left generalizing buf with
  | zero => cases h
  | succ left ih =>
    rcases List.mem_cons.mp h with rfl | htail
    · exact ⟨buf, rfl⟩
    · exact ih htail

lemma Restored.exists_readLevel (h : Restored al) : ∃ buf, al = readLevel buf := by
  obtain ⟨file, hmem⟩ := h
  exact exists_of_mem_readLevels hmem

@[simp] lemma readLevel_elems (buf : List UInt8) : (readLevel buf).elems = readLe32 buf := by
  simp [readLevel, MtAl.elems]

/-- An empty level gets no store: `next_power_two` gives zero for it. -/
lemma readLevel_cap_zero (h : readLe32 buf = 0) : (readLevel buf).cap = 0 := by
  simp only [readLevel, h]
  rfl

/-- As long as its size in bytes is an `unsigned int`, the store has the size that was computed. -/
lemma readLevel_cap (hpos : 0 < readLe32 buf) (hle : readLe32 buf ≤ 2^26) :
    (readLevel buf).cap = 2^(readLe32 buf - 1).size := by
  have hword : (BitVec.ofNat 32 (readLe32 buf)).toNat = readLe32 buf := by
    rw [BitVec.toNat_ofNat, Nat.mod_eq_of_lt (by omega)]
  have hsize : (readLe32 buf - 1).size ≤ 26 := Nat.size_le.mpr (by omega)
  have hpow : 2^(readLe32 buf - 1).size ≤ 2^26 := Nat.pow_le_pow_right (by omega) hsize
  have hnext := nextPowerTwo_toNat (e := BitVec.ofNat 32 (readLe32 buf)) (by omega) (by omega)
  rw [hword] at hnext
  simp only [readLevel, BitVec.toNat_mul, hnext, BitVec.toNat_ofNat, hashLength]
  omega

lemma Restored.allocated (h : Restored al) (hle : al.elems ≤ 2^26) : al.Allocated := by
  obtain ⟨buf, rfl⟩ := h.exists_readLevel
  rw [readLevel_elems] at hle
  constructor <;> rw [readLevel_elems]
  · exact readLevel_cap_zero
  · intro hpos
    rw [readLevel_cap hpos hle]
    exact fits_size hpos

end Restore

lemma allocated_create : mtAlCreate.Allocated :=
  ⟨fun _ => rfl, fun hpos => absurd mtAlCreate_elems hpos.ne'⟩

section Append

variable {al al' al'' : MtAl} {hash : MtHash} {r : MtError}

/-- An append with memory available: a new store at powers of two, and the same one otherwise. -/
lemma mtAlAdd_true_cases (h : mtAlAdd true al hash = .ok (r,al')) :
    al.elems < mtAlMaxElems ∧ r = .success ∧ al'.store = al.store ++ [hash] ∧
    al'.cap = if al.elems = 0 then 1 else if isPowerOfTwo al.elems then al.elems*2 else al.cap := by
  obtain ⟨hlt, -⟩ := mtAlAdd_cases h
  have hroom : isPowerOfTwo al.elems →
      ¬ (al.elems*2 % 2^32 < al.elems ∨ mtAlMaxElems < al.elems*2 % 2^32) := by
    intro hpow
    have hdouble := double_le_max hlt hpow
    simp only [mtAlMaxElems] at hlt hdouble ⊢
    omega
  refine ⟨hlt, ?_⟩
  rw [mtAlAdd, if_neg (Nat.not_le.mpr hlt)] at h
  by_cases hzero : al.elems = 0
  · rw [if_pos hzero] at h
    cases h
    exact ⟨rfl, rfl, by rw [if_pos hzero]⟩
  · rw [if_neg hzero] at h
    by_cases hpow : isPowerOfTwo al.elems
    · rw [if_pos hpow, if_neg (hroom hpow)] at h
      cases h
      exact ⟨rfl, rfl, by rw [if_neg hzero, if_pos hpow]⟩
    · rw [if_neg hpow] at h
      cases h
      exact ⟨rfl, rfl, by rw [if_neg hzero, if_neg hpow]⟩

lemma mtAlAdd_true_elems (h : mtAlAdd true al hash = .ok (r,al')) : al'.elems = al.elems + 1 := by
  obtain ⟨-, -, hstore, -⟩ := mtAlAdd_true_cases h
  rw [MtAl.elems, hstore, List.length_append, List.length_singleton, MtAl.elems]

/-- One append keeps the capacity right. -/
lemma MtAl.Allocated.add (hal : al.Allocated) (h : mtAlAdd true al hash = .ok (r,al')) :
    al'.Allocated := by
  obtain ⟨-, -, -, hcap⟩ := mtAlAdd_true_cases h
  have hsize := mtAlAdd_true_elems h
  refine ⟨fun hzero => by omega, fun _ => ?_⟩
  rw [hsize, hcap]
  split_ifs with hzero hpow
  · rw [hzero]
    exact fits_pow 0
  · obtain ⟨k, hk⟩ := (isPowerOfTwo_iff _).mp hpow
    rw [hk, ← Nat.pow_succ]
    exact fits_pow_succ k
  · exact (hal.fits (Nat.pos_of_ne_zero hzero)).succ fun k hk =>
      hpow ((isPowerOfTwo_iff _).mpr ⟨k, hk⟩)

/-- So do all further appends. -/
lemma Extended.allocated (run : Extended al al') (hal : al.Allocated) : al'.Allocated := by
  induction run with
  | refl => exact hal
  | add _ hadd ih => exact ih.add hadd

lemma Extended.elems_le (run : Extended al al') : al.elems ≤ al'.elems := by
  induction run with
  | refl => exact le_rfl
  | add _ hadd ih =>
    rw [mtAlAdd_true_elems hadd]
    exact ih.trans (Nat.le_succ _)

/-- The entry that an append writes lies inside the store. -/
lemma MtAl.Allocated.write_lt (hal : al.Allocated) (h : mtAlAdd true al hash = .ok (r,al')) :
    al.elems < al'.cap := by
  have hsize := mtAlAdd_true_elems h
  have hnew := (hal.add h).fits (by omega)
  rw [hsize] at hnew
  exact hnew.1.2

end Append

/-- From 1 to 2^31 `next_power_two` gives the least power of two that holds the size. A list that
was restored with at most 2^26 entries, or created, has such a store at all times while it is not
empty, and every append to a restored or created list writes inside its store. -/
theorem capacity_kept :
    (∀ e : BitVec 32, 1 ≤ e.toNat → e.toNat ≤ 2^31 → Fits e.toNat (nextPowerTwo e).toNat) ∧
    (∀ al al' : MtAl, (Restored al ∧ al.elems ≤ 2^26) ∨ al = mtAlCreate → Extended al al' →
      al'.Allocated) ∧ ∀ al al' al'' : MtAl, Restored al ∨ al = mtAlCreate → Extended al al' →
      ∀ hash r, mtAlAdd true al' hash = .ok (r,al'') →
        r = .success ∧ al''.store = al'.store ++ [hash] ∧ al'.elems < al''.cap := by
  have hkept : ∀ al al' : MtAl, (Restored al ∧ al.elems ≤ 2^26) ∨ al = mtAlCreate →
      Extended al al' →
      al'.Allocated := by
    rintro al al' (⟨hres, hle⟩ | rfl) run
    · exact run.allocated (hres.allocated hle)
    · exact run.allocated allocated_create
  refine ⟨fun e => fits_nextPowerTwo, hkept, ?_⟩
  intro al al' al'' horigin run hash r hadd
  obtain ⟨hlt, hr, hstore, -⟩ := mtAlAdd_true_cases hadd
  -- A list of more entries than the limit is not appended to.
  have hsmall : al.elems ≤ 2^26 := by
    have hle := run.elems_le
    simp only [mtAlMaxElems] at hlt
    omega
  exact ⟨hr, hstore, (hkept al al' (horigin.imp_left fun h => ⟨h, hsmall⟩) run).write_lt hadd⟩

/-- A file whose first level has the given size. -/
lemma restored_first (size : ℕ) (rest : List UInt8) : Restored (readLevel (le32 size ++ rest)) := by
  refine ⟨le32 0 ++ le32 0 ++ (le32 size ++ rest), ?_⟩
  have hdrop : (le32 0 ++ le32 0 ++ (le32 size ++ rest)).drop 8 = le32 size ++ rest :=
    List.drop_left' rfl
  simp only [deserializeInitMt, hdrop]
  exact List.mem_cons_self

/-- Three entries, and one more. -/
theorem capacity_kept_three : ∃ al al', Restored al ∧ al.elems = 3 ∧ Fits al.elems al.cap ∧
    mtAlAdd true al (mtInitHash [1]) = .ok (.success,al') ∧ al.elems < al'.cap := by
  have hres := restored_first 3 (List.replicate 96 0)
  have hsize : (readLevel (le32 3 ++ List.replicate 96 0)).elems = 3 := by
    rw [readLevel_elems, readLe32_le32_append, Nat.mod_eq_of_lt (by norm_num)]
  obtain ⟨r, al', hadd, -⟩ := mtAlAdd_outcome true (mtInitHash [1])
    (show (readLevel (le32 3 ++ List.replicate 96 0)).elems < mtAlMaxElems by rw [hsize]; decide)
  obtain ⟨rfl, -, hlt⟩ := capacity_kept.2.2 _ _ _ (.inl hres) .refl _ _ hadd
  have hal := capacity_kept.2.1 _ _ (.inl ⟨hres, hsize.le.trans (by norm_num)⟩) .refl
  exact ⟨_, al', hres, hsize, hal.fits (by rw [hsize]; norm_num), hadd, hlt⟩

lemma Mt.lvl_mem (mt : Mt) {l : ℕ} (hl : l < treeLevels) : mt.lvl l ∈ mt.level := by
  have hlt : l < mt.level.length := by rw [mt.levels]; exact hl
  rw [Mt.lvl, List.getD_eq_getElem?_getD, List.getElem?_eq_getElem hlt]
  exact List.getElem_mem hlt

/-- The store of a level of 2^26+1 entries is asked for with 2^32 bytes, which are none. -/
lemma large_level (rest : List UInt8) : Restored (readLevel (le32 (2^26+1) ++ rest)) ∧
    (readLevel (le32 (2^26+1) ++ rest)).elems = 2^26+1 ∧
      (readLevel (le32 (2^26+1) ++ rest)).cap = 0 ∧
    ¬ Fits (readLevel (le32 (2^26+1) ++ rest)).elems (readLevel (le32 (2^26+1) ++ rest)).cap := by
  have hread : readLe32 (le32 (2^26+1) ++ rest) = 2^26+1 := by
    rw [readLe32_le32_append, Nat.mod_eq_of_lt (by norm_num)]
  have hcap : (readLevel (le32 (2^26+1) ++ rest)).cap = 0 := by
    simp only [readLevel, hread]
    decide
  refine ⟨restored_first _ rest, ?_, hcap, ?_⟩
  · rw [readLevel_elems, hread]
  · rw [hcap]
    exact not_fits_zero _

/-- Level 1 of a tree with one leaf is restored without a store, and so is a level of 2^26+1
entries. -/
theorem capacity_missing :
    (∃ mt al, mtAdd (fun a _ => a) (fun _ => true) mtCreate [1] = .ok (.success,mt) ∧
      al ∈ (restored mt).level ∧ al.elems = 0 ∧ al.cap = 0 ∧ ¬ Fits al.elems al.cap) ∧
    ∃ al, Restored al ∧ al.elems = 2^26+1 ∧ al.cap = 0 ∧ ¬ Fits al.elems al.cap := by
  constructor
  · have hadd : ∃ mt, mtAdd (fun a _ => a) (fun _ => true) mtCreate [1] = .ok (.success,mt) ∧
        (mt.lvl 1).elems = 0 :=
      ⟨_, rfl, rfl⟩
    obtain ⟨mt, h, hlevel⟩ := hadd
    have run : Reach (fun a _ => a) mt := .add .create h
    have hmem := (restored mt).lvl_mem (show 1 < treeLevels by decide)
    have hres : Restored ((restored mt).lvl 1) := ⟨serializeMt mt, hmem⟩
    have hzero : ((restored mt).lvl 1).elems = 0 := by rw [run.sized.restored_size, hlevel]
    have hcap := (hres.allocated (hzero.le.trans (Nat.zero_le _))).empty hzero
    exact ⟨mt, _, h, hmem, hzero, hcap, by rw [hcap]; exact not_fits_zero _⟩
  · exact ⟨_, large_level (List.replicate (32*(2^26+1)) 0)⟩

end IronSafe.Merkle
