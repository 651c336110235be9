import IronSafe.MerkleWalk

/-! The tree image of `mt_serialize.c`: writer and reader of the length-prefixed levels. The
reader restores every level, but takes the leaf counter from the first word of the image,
which is the size of the image in bytes. -/
namespace IronSafe.Merkle
open Bytes RaggedTree

variable {H : MtHash → MtHash → MtHash}

def nextPowerTwo (n : BitVec 32) : BitVec 32 :=
  let n := n - 1
  let n := n ||| n >>> 1
  let n := n ||| n >>> 2
  let n := n ||| n >>> 4
  let n := n ||| n >>> 8
  let n := n ||| n >>> 16
  n + 1

def numBytes (mt : Mt) : ℕ := 4 + (mt.level.map fun al => 4 + al.elems*hashLength).sum + 4

def serializeLevel (al : MtAl) : List UInt8 := le32 al.elems ++ (al.store.map Subtype.val).flatten

def serializeMt (mt : Mt) : List UInt8 :=
  le32 (numBytes mt) ++ le32 mt.elems ++ (mt.level.map serializeLevel).flatten

/-- The level at the start of a buffer; a file that ends early reads as zeros. The size of the
store in bytes is an `unsigned int`. -/
def readLevel (buf : List UInt8) : MtAl :=
  ⟨(List.range (readLe32 buf)).map fun i =>
    mtInitHash (slice (i*hashLength) hashLength (buf.drop 4)),
    (nextPowerTwo (BitVec.ofNat 32 (readLe32 buf)) * BitVec.ofNat 32 hashLength).toNat / hashLength⟩

def readLevels : ℕ → List UInt8 → List MtAl
  | 0, _ => []
  | left+1, buf => readLevel buf :: readLevels left (buf.drop (4 + readLe32 buf*hashLength % 2^32))

lemma readLevels_length (left : ℕ) (buf : List UInt8) : (readLevels left buf).length = left := by
  induction left generalizing buf with
  | zero => rfl
  | succ left ih => simp [readLevels, ih]

/-- Both counters are read at the start of the file. -/
def deserializeInitMt (file : List UInt8) : MtObj :=
  ⟨⟨readLe32 file, readLevels treeLevels (file.drop 8), readLevels_length _ _⟩, readLe32 file⟩

/-- The tree loaded from its own image. -/
def restored (mt : Mt) : Mt := (deserializeInitMt (serializeMt mt)).mt

lemma mtInitHash_val (d : MtHash) : mtInitHash d.val = d :=
  Subtype.ext (List.take_left' d.2)

lemma serializeLevel_length (al : MtAl) : (serializeLevel al).length = 4 + al.elems*hashLength := by
  rw [serializeLevel, List.length_append, le32_length,
    length_flatten_blocks (L := hashLength) _ (by simp +contextual), List.length_map]
  rfl

/-- The writer fills the allocated buffer exactly. -/
lemma serializeMt_length (mt : Mt) : (serializeMt mt).length = numBytes mt := by
  simp only [serializeMt, numBytes, List.length_append, le32_length, List.length_flatten,
    List.map_map, Function.comp_def, serializeLevel_length]
  omega

lemma readLevel_serialize (al : MtAl) (rest : List UInt8) (h : al.elems < 2^32) :
    (readLevel (serializeLevel al ++ rest)).store = al.store := by
  have hb : ∀ b ∈ al.store.map Subtype.val, b.length = hashLength := by simp +contextual
  have hlen := length_flatten_blocks (al.store.map Subtype.val) hb
  rw [List.length_map] at hlen
  simp only [readLevel, serializeLevel, List.append_assoc, readLe32_le32_append, Nat.mod_eq_of_lt h]
  rw [List.drop_left' (le32_length _)]
  apply List.ext_getElem
  · simp [MtAl.elems]
  · intro i h1 h2
    simp only [List.getElem_map, List.getElem_range]
    have hle : i*hashLength + hashLength ≤ (al.store.map Subtype.val).flatten.length := by
      rw [hlen, ← Nat.succ_mul]
      exact Nat.mul_le_mul_right _ h2
    rw [slice_append_left _ _ hle, slice_flatten _ hb i (by simpa using h2), List.getElem_map,
      mtInitHash_val]

lemma readLevels_serialize (levels : List MtAl) (h : ∀ al ∈ levels, al.elems < 2^27) :
    (readLevels levels.length (levels.map serializeLevel).flatten).map MtAl.store =
      levels.map MtAl.store := by
  induction levels with
  | nil => rfl
  | cons al levels ih =>
    have hal := h al (by simp)
    have hword : al.elems < 2^32 := by omega
    have hbytes : al.elems*hashLength < 2^32 := by simp only [hashLength]; omega
    simp only [List.map_cons, List.flatten_cons, List.length_cons, readLevels,
      readLevel_serialize al _ hword]
    have hread : readLe32 (serializeLevel al ++ (levels.map serializeLevel).flatten) =
        al.elems := by
      rw [serializeLevel, List.append_assoc, readLe32_le32_append, Nat.mod_eq_of_lt hword]
    rw [hread, Nat.mod_eq_of_lt hbytes, List.drop_left' (serializeLevel_length al),
      ih fun x hx => h x (by simp [hx])]

lemma restored_elems (mt : Mt) : (restored mt).elems = numBytes mt % 2^32 := by
  simp [restored, deserializeInitMt, serializeMt, List.append_assoc]

lemma level_map_sum (f : MtAl → ℕ) (levels : List MtAl) :
    (levels.map f).sum = ∑ l ∈ Finset.range levels.length, f (levels.getD l mtAlCreate) := by
  induction levels with
  | nil => rfl
  | cons al levels ih => simp [Finset.sum_range_succ', ih, Nat.add_comm]

lemma numBytes_eq (mt : Mt) :
    numBytes mt = 104 + 32*∑ l ∈ Finset.range treeLevels, (mt.lvl l).elems := by
  have h := level_map_sum (fun al => 4 + al.elems*hashLength) mt.level
  rw [mt.levels, Finset.sum_add_distrib, Finset.sum_const, Finset.card_range, ← Finset.sum_mul] at h
  unfold numBytes
  rw [h]
  simp only [Mt.lvl, hashLength, treeLevels, smul_eq_mul]
  omega

/-- The image of a reachable tree is larger than its leaf counter and fits an `int`. -/
lemma Sized.numBytes_bounds {mt : Mt} (h : Sized mt) :
    104 + 32*mt.elems ≤ numBytes mt ∧ numBytes mt < 2^31 := by
  have hlim := h.limit
  have hle : ∑ l ∈ Finset.range treeLevels, (mt.lvl l).elems ≤ ∑ l ∈ Finset.range treeLevels,
      kept l mt.elems :=
    Finset.sum_le_sum fun l hl => h.level l (Finset.mem_range.mp hl)
  have hge : (mt.lvl 0).elems ≤ ∑ l ∈ Finset.range treeLevels, (mt.lvl l).elems :=
    Finset.single_le_sum (f := fun l => (mt.lvl l).elems) (fun _ _ => Nat.zero_le _)
      (Finset.mem_range.mpr (by simp [treeLevels]))
  have hsum : (∑ l ∈ Finset.range 24, kept l mt.elems) + span 23 mt.elems = 2*mt.elems :=
    sum_kept 23 mt.elems
  rw [numBytes_eq]
  rw [h.leaves] at hge
  simp only [treeLevels, mtAlMaxElems] at hle hlim hge hsum ⊢
  constructor <;> omega

lemma Sized.restored_elems {mt : Mt} (h : Sized mt) : (restored mt).elems = numBytes mt := by
  rw [Merkle.restored_elems, Nat.mod_eq_of_lt (by have := h.numBytes_bounds; omega)]

/-- The bytes of a level of a reachable tree are counted without overflow. -/
lemma Sized.elems_lt {mt : Mt} (h : Sized mt) : ∀ al ∈ mt.level, al.elems < 2^27 := by
  intro al hal
  obtain ⟨k, hk⟩ := List.mem_iff_getElem?.mp hal
  have hlt : k < treeLevels := by
    rw [← mt.levels]
    exact (List.getElem?_eq_some_iff.mp hk).1
  have hlvl : mt.lvl k = al := by simp [Mt.lvl, List.getD_eq_getElem?_getD, hk]
  have h1 := h.level k hlt
  have h2 := kept_le_span k mt.elems
  have h3 := span_le k mt.elems
  have h4 := h.limit
  simp only [mtAlMaxElems] at h4
  rw [hlvl] at h1
  omega

lemma Sized.restored_store {mt : Mt} (h : Sized mt) {l : ℕ} (hl : l < treeLevels) :
    ((restored mt).lvl l).store = (mt.lvl l).store := by
  have hmap := readLevels_serialize mt.level h.elems_lt
  rw [mt.levels] at hmap
  have hdrop : (serializeMt mt).drop 8 = (mt.level.map serializeLevel).flatten := by
    rw [serializeMt, List.drop_left' (by simp)]
  have hget := congrArg (fun xs => xs[l]?) hmap
  simp only [List.getElem?_map] at hget
  simp only [Mt.lvl, List.getD_eq_getElem?_getD, restored, deserializeInitMt, hdrop]
  rw [List.getElem?_eq_getElem (by rw [readLevels_length]; exact hl),
    List.getElem?_eq_getElem (by rw [mt.levels]; exact hl)] at hget ⊢
  exact Option.some.inj hget

lemma Sized.restored_size {mt : Mt} (h : Sized mt) (l : ℕ) :
    ((restored mt).lvl l).elems = (mt.lvl l).elems := by
  by_cases hl : l < treeLevels
  · exact congrArg List.length (h.restored_store hl)
  · rw [Mt.lvl_of_le _ (by omega), Mt.lvl_of_le _ (by omega)]

/-- On its restored image a reachable tree answers every index below the size of the image,
unless the walk from there ends nowhere. -/
lemma Reach.verify_restored_iff {mt : Mt} (run : Reach H mt) (tag : List UInt8) (i : ℕ) :
    (∃ e, mtVerify H (restored mt) tag i = .ok e) ↔
      ¬ (tag.length ≤ hashLength ∧ i < numBytes mt ∧ WalksOff mt i) := by
  have hsize := run.sized.restored_size
  have hroomy : (restored mt).Roomy := fun l => (hsize l).trans_lt (run.roomy l)
  have hoff : WalksOff (restored mt) i ↔ WalksOff mt i :=
    ⟨WalksOff.congr fun l => (hsize l).symm, WalksOff.congr hsize⟩
  rw [mtVerify_returns_iff hroomy, run.sized.restored_elems, hoff]

lemma pow_height_lt {n : ℕ} (hn : 0 < n) : 2^height n < 2*n := by
  rcases Nat.lt_or_ge 1 n with h1 | h1
  · have hlt := Nat.pow_pred_clog_lt_self (b := 2) (by omega) h1
    have hpos : 0 < Nat.clog 2 n := Nat.clog_pos (by omega) h1
    have heq : 2^Nat.clog 2 n = 2^(Nat.clog 2 n).pred*2 := by
      rw [← Nat.pow_succ, Nat.succ_pred_eq_of_pos hpos]
    rw [height, heq]
    omega
  · obtain rfl : n = 1 := by omega
    simp [height]

/-- An index that the tree refuses makes the restored tree crash. -/
lemma Reach.verify_restored {mt : Mt} (run : Reach H mt) {tag : List UInt8}
    (ht : tag.length ≤ hashLength) : mtVerify H mt tag (2^height mt.elems) = .ok .illegalParam ∧
      ∃ c, mtVerify H (restored mt) tag (2^height mt.elems) = .error c := by
  have hbound := run.sized.numBytes_bounds
  have hle := le_pow_height mt.elems
  have hlt : 2^height mt.elems < numBytes mt := by
    rcases Nat.eq_zero_or_pos mt.elems with h0 | hpos
    · have : height mt.elems = 0 := by simp [height, h0]
      rw [this]
      omega
    · have := pow_height_lt hpos
      omega
  refine ⟨by rw [mtVerify, if_neg (by omega)], ?_⟩
  have hoff := walksOff_of_dvd (size_le_kept run.sized.level) hle dvd_rfl
  rcases hv : mtVerify H (restored mt) tag (2^height mt.elems) with c | e
  · exact ⟨c, rfl⟩
  · exact absurd ⟨ht, hlt, hoff⟩ ((run.verify_restored_iff tag _).mp ⟨e, hv⟩)

inductive MtOp
  | add (mem : ℕ → Bool) (tag : List UInt8)
  | update (tag : List UInt8) (offset : ℕ)
  | verify (tag : List UInt8) (offset : ℕ)
  | getRoot

/-- What a caller sees of an operation: its code, and the root if it returns one. -/
structure MtOut where
  code : MtError
  root : Option MtHash
  deriving DecidableEq

def MtOp.run (H : MtHash → MtHash → MtHash) (mt : Mt) : MtOp → Except Crash (MtOut × Mt)
  | .add mem tag => (mtAdd H mem mt tag).map fun p => (⟨p.1,none⟩, p.2)
  | .update tag offset => (mtUpdate H mt tag offset).map fun p => (⟨p.1,none⟩, p.2)
  | .verify tag offset => (mtVerify H mt tag offset).map fun e => (⟨e,none⟩, mt)
  | .getRoot => (mtGetRoot mt).map fun p => (⟨p.1, some p.2⟩, mt)

/-- The results of a sequence of operations, up to the first one that ends the process. -/
def runOps (H : MtHash → MtHash → MtHash) : List MtOp → Mt → List (Except Crash MtOut)
  | [], _ => []
  | op :: ops, mt =>
    match op.run H mt with
    | .error c => [.error c]
    | .ok (out,mt') => .ok out :: runOps H ops mt'

/-- The tree `mt'` can stand for `mt`: same counter, same levels, same later results. -/
structure SameTree (H : MtHash → MtHash → MtHash) (mt mt' : Mt) : Prop where
  elems : mt'.elems = mt.elems
  level : ∀ l < treeLevels, (mt'.lvl l).store = (mt.lvl l).store
  results : ∀ ops, runOps H ops mt' = runOps H ops mt

/-- No reachable tree survives its own image: the levels are restored, but the counter
becomes the size of the image, and later calls give other results. -/
theorem restored_never_same {mt : Mt} (run : Reach H mt) :
    ¬ SameTree H mt (restored mt) ∧ (restored mt).elems = numBytes mt ∧ mt.elems < numBytes mt ∧
      (∀ l < treeLevels, ((restored mt).lvl l).store = (mt.lvl l).store) ∧
      ∃ ops, runOps H ops (restored mt) ≠ runOps H ops mt := by
  have hs := run.sized
  have hb := hs.numBytes_bounds
  refine ⟨fun h => ?_, hs.restored_elems, by omega, fun l hl => hs.restored_store hl, ?_⟩
  · have := h.elems
    rw [hs.restored_elems] at this
    omega
  · obtain ⟨hok, c, hcrash⟩ := run.verify_restored (show [].length ≤ hashLength by simp)
    refine ⟨[.verify [] (2^height mt.elems)], ?_⟩
    simp [runOps, MtOp.run, hok, hcrash, Except.map]

/-- One leaf: the image has 136 bytes, and so many leaves does the restored tree claim. -/
theorem restored_one_leaf :
    ∃ mt, mtAdd (fun a _ => a) (fun _ => true) mtCreate [1] = .ok (.success,mt) ∧
    mt.elems = 1 ∧ (restored mt).elems = 136 ∧ ¬ SameTree (fun a _ => a) mt (restored mt) := by
  refine ⟨_, rfl, rfl, by decide, fun h => ?_⟩
  have := h.elems
  revert this
  decide

theorem restored_never_same_one : ∃ mt, Reach (fun a _ => a) mt ∧ mt.elems = 1 ∧
    ¬ SameTree (fun a _ => a) mt (restored mt) := by
  have hadd : ∃ mt, mtAdd (fun a _ => a) (fun _ => true) mtCreate [1] = .ok (.success,mt) ∧
      mt.elems = 1 :=
    ⟨_, rfl, rfl⟩
  obtain ⟨mt, h, he⟩ := hadd
  exact ⟨mt, .add .create h, he, (restored_never_same (.add .create h)).1⟩

end IronSafe.Merkle
