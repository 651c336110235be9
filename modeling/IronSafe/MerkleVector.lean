import IronSafe.MerkleSerialize

/-! The tree as a vector of tags that vouches for its entries. With memory available, every sequence
of calls on a new tree returns what the calls on the plain list return: `mt_update` replaces an
entry, `mt_get_root` gives the root of the ragged tree over the list, and `mt_verify` accepts the
stored entry, and no other unless hashes on the two paths collide. -/
namespace IronSafe.Merkle
open RaggedTree

variable {H : MtHash → MtHash → MtHash}

/-! ### Trees with the same levels -/

lemma mtAlGet_congr {al al' : MtAl} (h : al'.store = al.store) (q : ℕ) :
    mtAlGet al' q = mtAlGet al q := by
  rw [mtAlGet, mtAlGet, MtAl.elems, MtAl.elems, h]

lemma hasNextLevel_congr {mt mt' : Mt} {l : ℕ} (h : (mt'.lvl (l+1)).elems = (mt.lvl (l+1)).elems) :
    hasNextLevelExceptRoot mt' l = hasNextLevelExceptRoot mt l := by
  rw [hasNextLevelExceptRoot, hasNextLevelExceptRoot, mtAlGetSize, mtAlGetSize, h]

section Congr

variable {mt mt' : Mt} {l : ℕ} (hs : ∀ k ≤ l, (mt'.lvl k).store = (mt.lvl k).store)
include hs

lemma findRightNeighbor_congr (offset : ℕ) :
    findRightNeighbor mt' offset l = findRightNeighbor mt offset l := by
  induction l generalizing offset with
  | zero =>
    rw [findRightNeighbor, findRightNeighbor, mtAlGetSize, mtAlGetSize, MtAl.elems, MtAl.elems,
      hs 0 le_rfl, mtAlGet_congr (hs 0 le_rfl)]
  | succ l ih =>
    rw [findRightNeighbor, findRightNeighbor, mtAlGetSize, mtAlGetSize, MtAl.elems, MtAl.elems,
      hs (l+1) le_rfl, mtAlGet_congr (hs (l+1) le_rfl), ih fun k hk => hs k (by omega)]

/-- A step of the walk reads the levels below it only. -/
lemma hashNeighbor_congr (q : ℕ) (d : MtHash) :
    hashNeighbor H mt' q l d = hashNeighbor H mt q l d := by
  rw [hashNeighbor, hashNeighbor, findRightNeighbor_congr hs, mtAlGet_congr (hs l le_rfl)]

end Congr

/-- The leaves determine the level. -/
lemma LevelOk.store_eq {al al' : MtAl} {ls : List MtHash} {l : ℕ} (h : LevelOk H al ls l)
    (h' : LevelOk H al' ls l) : al'.store = al.store := by
  have hsize := h.size
  have hsize' := h'.size
  unfold MtAl.elems at hsize hsize'
  apply List.ext_getElem?
  intro j
  by_cases hj : j < kept l ls.length
  · rw [h.get j hj, h'.get j hj]
  · rw [List.getElem?_eq_none (by omega), List.getElem?_eq_none (by omega)]

/-- Every list below the limit has a tree. -/
lemma exists_represents (H : MtHash → MtHash → MtHash) (ls : List MtHash)
    (hn : ls.length < mtAlMaxElems) : ∃ mt, Represents H mt ls := by
  induction ls using List.reverseRecOn with
  | nil => exact ⟨mtCreate, represents_create⟩
  | append_singleton ls x ih =>
    rw [List.length_append, List.length_singleton] at hn
    obtain ⟨mt, h⟩ := ih (by omega)
    obtain ⟨r, mt', -, hok, hrep⟩ := mtAdd_spec (fun _ => true) h hn x.2.le
    rw [mtInitHash_val] at hrep
    exact ⟨mt', hrep (hok fun _ => rfl)⟩

/-! ### The update of one leaf -/

section Update

variable {mt : Mt} {ls : List MtHash} {i l : ℕ} {x : MtHash}

/-- `mt_update` has walked up to level `l`: the levels up to `l` have the new leaf, the others the
old. -/
structure Updating (H : MtHash → MtHash → MtHash) (ls : List MtHash) (i : ℕ) (x : MtHash) (mt : Mt)
    (l : ℕ) : Prop where
  low : ∀ k ≤ l, LevelOk H (mt.lvl k) (ls.set i x) k
  high : ∀ k, l < k → k < treeLevels → LevelOk H (mt.lvl k) ls k

lemma LevelOk.set_of_ge {al : MtAl} (h : LevelOk H al ls l) (x : MtHash)
    (hge : kept l ls.length ≤ path l i) : LevelOk H al (ls.set i x) l := by
  refine ⟨by rw [h.size, List.length_set], fun j hj => ?_⟩
  rw [List.length_set] at hj
  rw [h.get j hj, node_set_of_ne H ls x (by omega)]

lemma LevelOk.set {al : MtAl} (h : LevelOk H al ls l) (hi : i < ls.length) (x : MtHash) :
    LevelOk H { al with store := al.store.set (path l i) (digestAt H ls i x l) }
      (ls.set i x) l := by
  have hsize := h.size
  unfold MtAl.elems at hsize
  refine ⟨by simp [MtAl.elems, hsize], fun j hj => ?_⟩
  rw [List.length_set] at hj
  by_cases hjp : j = path l i
  · rw [hjp, node_set_path H ls x hi]
    exact List.getElem?_set_self (by omega)
  · rw [node_set_of_ne H ls x hjp, ← h.get j hj]
    exact List.getElem?_set_ne (Ne.symm hjp)

/-- The parent is overwritten if it has both children, and is not stored otherwise. -/
lemma LevelOk.updateIfExists {al : MtAl} (h : LevelOk H al ls l) (hn : ls.length < mtAlMaxElems)
    (hi : i < ls.length) (x : MtHash) :
    ∃ al', mtAlUpdateIfExists al (digestAt H ls i x l) (path l i) = .ok (.success, al') ∧
      LevelOk H al' (ls.set i x) l := by
  rw [mtAlUpdateIfExists, if_neg (Nat.not_le.mpr (h.elems_lt hn)), h.size]
  split_ifs with hge
  · exact ⟨al, rfl, h.set_of_ge x hge⟩
  · exact ⟨_, rfl, h.set hi x⟩

lemma Updating.size (h : Updating H ls i x mt l) {k : ℕ} (hk : k < treeLevels) :
    (mt.lvl k).elems = kept k ls.length := by
  by_cases hkl : k ≤ l
  · rw [(h.low k hkl).size, List.length_set]
  · exact (h.high k (by omega) hk).size

lemma Updating.step (h : Updating H ls i x mt l) (hl : l+1 < treeLevels) {al : MtAl}
    (hal : LevelOk H al (ls.set i x) (l+1)) : Updating H ls i x (mt.setLvl (l+1) al) (l+1) := by
  refine ⟨fun k hk => ?_, fun k hk hkl => ?_⟩
  · rcases Nat.le_succ_iff.mp hk with hkl | rfl
    · rw [lvl_setLvl_of_ne _ _ (by omega)]
      exact h.low k hkl
    · rwa [lvl_setLvl_self _ _ hl]
  · rw [lvl_setLvl_of_ne _ _ (by omega)]
    exact h.high k (by omega) hkl

/-- Above the top no level stores a node. -/
lemma Updating.levels (h : Updating H ls i x mt (height ls.length)) :
    ∀ k < treeLevels, LevelOk H (mt.lvl k) (ls.set i x) k := by
  intro k hk
  by_cases hkh : k ≤ height ls.length
  · exact h.low k hkh
  · obtain ⟨m, rfl⟩ : ∃ m, k = m+1 := ⟨k-1, by omega⟩
    have hspan : ¬ 2 ≤ span m ls.length := fun hc => by
      have := two_le_span_iff.mp hc
      omega
    exact (h.high _ (by omega) hk).set_of_ge x (by simp only [kept]; omega)

/-- One step of the walk is one step of the ragged tree, over the old leaves or the new ones. -/
lemma Updating.hashNeighbor (h : Updating H ls i x mt l) (hn : ls.length < mtAlMaxElems)
    (hi : i < ls.length) (hl : l < 22) (d : MtHash) :
    Merkle.hashNeighbor H mt (path l i) l d = .ok (some (climb H ls l (path l i) d)) := by
  have hlen : (ls.set i x).length = ls.length := List.length_set
  obtain ⟨mt', h'⟩ := exists_represents H (ls.set i x) (by rwa [hlen])
  have hstore : ∀ k ≤ l, (mt.lvl k).store = (mt'.lvl k).store := fun k hk =>
    (h'.level k (by simp only [treeLevels]; omega)).store_eq (h.low k hk)
  rw [hashNeighbor_congr hstore, hashNeighbor_eq h' (by rwa [hlen]) hl (by rwa [hlen]), climb_set]

lemma Updating.hasNextLevel (h : Updating H ls i x mt l) (hn : ls.length < mtAlMaxElems)
    (hl : l ≤ height ls.length) : hasNextLevelExceptRoot mt l = decide (l < height ls.length) := by
  have hh := height_lt hn
  have htl : l+1 < treeLevels := by simp only [treeLevels]; omega
  obtain ⟨mt', h'⟩ := exists_represents H ls hn
  rw [hasNextLevel_congr ((h.size htl).trans (h'.level (l+1) htl).size.symm),
    hasNextLevel_eq h' hn hl]

/-- The upward walk of `mt_update` from level `l`. -/
lemma mtUpdateLoop_spec (hn : ls.length < mtAlMaxElems) (hi : i < ls.length) (x : MtHash)
    (left : ℕ) :
    ∀ (l : ℕ) (mt : Mt), l ≤ height ls.length → height ls.length < left + l →
      Updating H ls i x mt l →
      ∃ mt', mtUpdateLoop H left (path l i) l (digestAt H ls i x l) mt = .ok (.success, mt') ∧
        mt'.elems = mt.elems ∧ ∀ k < treeLevels, LevelOk H (mt'.lvl k) (ls.set i x) k := by
  have hh := height_lt hn
  induction left with
  | zero => intro l mt hl hlt; omega
  | succ left ih =>
    intro l mt hl hlt h
    have htl : l+1 < treeLevels := by simp only [treeLevels]; omega
    unfold mtUpdateLoop
    rw [h.hasNextLevel hn hl]
    by_cases hnext : l < height ls.length
    · have hhash := h.hashNeighbor hn hi (by omega) (digestAt H ls i x l)
      obtain ⟨al, hal, hlev⟩ := (h.high (l+1) (by omega) htl).updateIfExists hn hi x
      obtain ⟨mt', hrun, helems, hlevels⟩ :=
        ih (l+1) (mt.setLvl (l+1) al) hnext (by omega) (h.step htl hlev)
      refine ⟨mt', ?_, helems, hlevels⟩
      simp only [hnext, decide_true, if_true, hhash]
      rw [← digestAt, ← path, hal]
      exact hrun
    · obtain rfl : l = height ls.length := by omega
      refine ⟨mt, ?_, rfl, h.levels⟩
      have htop := (h.low _ le_rfl).get_eq (by rwa [List.length_set]) (path (height ls.length) i)
      have hkept := kept_height_pos (show 0 < ls.length by omega)
      rw [List.length_set, if_pos (by rwa [path_height hi]), node_set_path H ls x hi] at htop
      simp only [lt_irrefl, decide_false, Bool.false_eq_true, if_false]
      rw [mtAddDone, if_neg (by omega), htop]
      exact if_pos rfl

/-- Below the limit `mt_update` of a leaf always succeeds and replaces that leaf. -/
theorem mtUpdate_spec (h : Represents H mt ls) (hn : ls.length < mtAlMaxElems) {tag : List UInt8}
    (ht : tag.length ≤ hashLength) (hi : i < ls.length) :
    ∃ mt', mtUpdate H mt tag i = .ok (.success, mt') ∧
      Represents H mt' (ls.set i (mtInitHash tag)) := by
  have h0 := h.level 0 (by simp [treeLevels])
  have hsize : (mt.lvl 0).elems = ls.length := h0.size
  have hh := height_lt hn
  have hset : LevelOk H { mt.lvl 0 with store := (mt.lvl 0).store.set i (mtInitHash tag) }
      (ls.set i (mtInitHash tag)) 0 := h0.set hi (mtInitHash tag)
  have hstart : Updating H ls i (mtInitHash tag)
      (mt.setLvl 0 { mt.lvl 0 with store := (mt.lvl 0).store.set i (mtInitHash tag) }) 0 := by
    refine ⟨fun k hk => ?_, fun k hk hkl => ?_⟩
    · obtain rfl : k = 0 := by omega
      rwa [lvl_setLvl_self _ _ (by simp [treeLevels])]
    · rw [lvl_setLvl_of_ne _ _ (by omega)]
      exact h.level k hkl
  obtain ⟨mt', hrun, helems, hlevels⟩ :=
    mtUpdateLoop_spec hn hi (mtInitHash tag) treeLevels 0 _ (Nat.zero_le _)
    (by simp only [treeLevels]; omega) hstart
  refine ⟨mt', ?_, ?_, hlevels⟩
  · rw [mtUpdate, if_pos ⟨ht, by rwa [h.elems]⟩, mtAlUpdate, if_neg (by omega), if_pos (by omega)]
    exact hrun
  · rw [helems, List.length_set]
    exact h.elems

end Update

/-! ### The plain vector -/

def root (H : MtHash → MtHash → MtHash) (ls : List MtHash) : Option MtHash :=
  node H ls (height ls.length) 0

/-- The entry, or one whose path digests collide with those of the entry. -/
def accepts (H : MtHash → MtHash → MtHash) (ls : List MtHash) (i : ℕ) (d : MtHash) : Bool :=
  match ls[i]? with
  | none => false
  | some e => e = d ∨ ∃ l < height ls.length, ∃ p ∈ pathPair H ls i e l, ∃ r ∈ pathPair H ls i d l,
      p ≠ r ∧ H p.1 p.2 = H r.1 r.2

/-- The calls on the list itself. The last leaf that the limit allows, and the root of nothing, end
the process. -/
def MtOp.onList (H : MtHash → MtHash → MtHash) (ls : List MtHash) :
    MtOp → Except Crash (MtOut × List MtHash)
  | .add _ tag =>
    if hashLength < tag.length then .ok (⟨.illegalParam, none⟩, ls)
    else if mtAlMaxElems ≤ ls.length + 1 then .error .assertion
    else .ok (⟨.success, none⟩, ls ++ [mtInitHash tag])
  | .update tag i =>
    if tag.length ≤ hashLength ∧ i < ls.length then
      .ok (⟨.success, none⟩, ls.set i (mtInitHash tag))
    else .ok (⟨.illegalParam, none⟩, ls)
  | .verify tag i =>
    if tag.length ≤ hashLength ∧ i < ls.length then
      .ok (⟨if accepts H ls i (mtInitHash tag) then .success else .rootMismatch, none⟩, ls)
    else .ok (⟨.illegalParam, none⟩, ls)
  | .getRoot =>
    match root H ls with
    | none => .error .nullDeref
    | some r => .ok (⟨.success, some r⟩, ls)

def runOnList (H : MtHash → MtHash → MtHash) : List MtOp → List MtHash → List (Except Crash MtOut)
  | [], _ => []
  | op :: ops, ls =>
    match op.onList H ls with
    | .error c => [.error c]
    | .ok (out,ls') => .ok out :: runOnList H ops ls'

/-- No allocation of the call fails. -/
def MtOp.HasMemory : MtOp → Prop
  | .add mem _ => ∀ k, mem k = true
  | _ => True

section Runs

variable {mt : Mt} {ls : List MtHash}

lemma accepts_iff {i : ℕ} {e d : MtHash} (he : ls[i]? = some e) : accepts H ls i d = true ↔
    digestAt H ls i e (height ls.length) = digestAt H ls i d (height ls.length) := by
  rw [digestAt_eq_iff, accepts, he]
  exact decide_eq_true_iff

lemma mtVerify_eq_accepts (h : Represents H mt ls) (hn : ls.length < mtAlMaxElems)
    {tag : List UInt8} (ht : tag.length ≤ hashLength) {i : ℕ} (hi : i < ls.length) :
    mtVerify H mt tag i =
      .ok (if accepts H ls i (mtInitHash tag) then .success else .rootMismatch) := by
  have he := List.getElem?_eq_getElem hi
  have hnode := node_path H ls he (height ls.length)
  rw [path_height hi] at hnode
  rw [mtVerify_eq h hn ht hi, hnode]
  congr 1
  exact if_congr (by rw [Option.some.injEq, accepts_iff he]) rfl rfl

lemma mtGetRoot_eq (h : Represents H mt ls) (hn : ls.length < mtAlMaxElems) : mtGetRoot mt =
    match root H ls with
    | none => .error .nullDeref
    | some r => .ok (.success, r) := by
  have hh := height_lt hn
  have hget := (h.level (height ls.length) (by simp only [treeLevels]; omega)).get_eq hn 0
  have hstored :
      (if 0 < kept (height ls.length) ls.length then node H ls (height ls.length) 0 else none) =
      root H ls := by
    split_ifs with hk
    · rfl
    · have hempty : ls.length = 0 := by
        by_contra hne
        exact hk (kept_height_pos (by omega))
      rw [root, eq_comm, node_eq_none, hempty, span_zero_right]
  rw [mtGetRoot, h.mtRootLoop_eq hn treeLevels (Nat.zero_le _) (by simp only [treeLevels]; omega),
    hget, hstored]
  cases root H ls <;> rfl

/-- What a call on the tree and the call on the list may do: end the process both, or return the
same and leave a tree for the new list. -/
inductive Agree (H : MtHash → MtHash → MtHash) :
    Except Crash (MtOut × Mt) → Except Crash (MtOut × List MtHash) → Prop
  | crash (c : Crash) : Agree H (.error c) (.error c)
  | ok (out : MtOut) {mt : Mt} {ls : List MtHash} (h : Represents H mt ls)
      (hn : ls.length < mtAlMaxElems) :
      Agree H (.ok (out,mt)) (.ok (out,ls))

lemma MtOp.run_agree (h : Represents H mt ls) (hn : ls.length < mtAlMaxElems) {op : MtOp}
    (hmem : op.HasMemory) : Agree H (op.run H mt) (op.onList H ls) := by
  cases op with
  | add mem tag =>
    rw [MtOp.run, MtOp.onList]
    by_cases ht : hashLength < tag.length
    · rw [mtAdd, if_pos ht, if_pos ht]
      exact .ok _ h hn
    rw [if_neg ht]
    by_cases hlim : mtAlMaxElems ≤ ls.length + 1
    · rw [mtAdd_at_limit mem h hlim (by omega), if_pos hlim]
      exact .crash _
    · obtain ⟨r, mt', hr, hok, hrep⟩ := mtAdd_spec mem h (by omega) (Nat.le_of_not_lt ht)
      rw [hr, if_neg hlim]
      obtain rfl := hok hmem
      exact .ok _ (hrep rfl) (by rw [List.length_append, List.length_singleton]; omega)
  | update tag i =>
    rw [MtOp.run, MtOp.onList]
    split_ifs with hguard
    · obtain ⟨mt', hrun, hrep⟩ := mtUpdate_spec h hn hguard.1 hguard.2
      rw [hrun]
      exact .ok _ hrep (by rwa [List.length_set])
    · rw [mtUpdate, if_neg (by rwa [h.elems])]
      exact .ok _ h hn
  | verify tag i =>
    rw [MtOp.run, MtOp.onList]
    by_cases hguard : tag.length ≤ hashLength ∧ i < ls.length
    · rw [if_pos hguard, mtVerify_eq_accepts h hn hguard.1 hguard.2]
      exact .ok _ h hn
    · rw [if_neg hguard, mtVerify, if_neg (by rwa [h.elems])]
      exact .ok _ h hn
  | getRoot =>
    rw [MtOp.run, mtGetRoot_eq h hn, MtOp.onList]
    cases root H ls with
    | none => exact .crash _
    | some r => exact .ok _ h hn

lemma Represents.runOps_eq (h : Represents H mt ls) (hn : ls.length < mtAlMaxElems)
    {ops : List MtOp} (hmem : ∀ op ∈ ops, op.HasMemory) : runOps H ops mt = runOnList H ops ls := by
  induction ops generalizing mt ls with
  | nil => rfl
  | cons op ops ih =>
    have hagree := MtOp.run_agree h hn (hmem op (by simp))
    rw [runOps, runOnList]
    generalize op.run H mt = a, op.onList H ls = b at hagree
    cases hagree with
    | crash c => rfl
    | ok out h' hn' =>
      exact congrArg (List.cons (.ok out)) (ih h' hn' fun o ho => hmem o (by simp [ho]))

end Runs

/-- With memory available, every sequence of calls on a new tree has the results of the calls on the
plain list: same codes, same roots, same end of the process. -/
theorem runOps_eq_vector (H : MtHash → MtHash → MtHash) {ops : List MtOp}
    (hmem : ∀ op ∈ ops, op.HasMemory) : runOps H ops mtCreate = runOnList H ops [] :=
  represents_create.runOps_eq (by decide) hmem

/-- A hash for small trees: it cancels on either side. -/
def mixHash (a b : MtHash) : MtHash :=
  ⟨List.zipWith (fun x y => x + 3*y) a.val b.val,
    by rw [List.length_zipWith, a.2, b.2, Nat.min_self]⟩

def sampleOps : List MtOp :=
  [.add (fun _ => true) [1], .add (fun _ => true) [2], .add (fun _ => true) [3], .update [4] 1,
    .verify [4] 1, .verify [2] 1, .verify [3] 3]

/-- Three tags: one is replaced, and afterwards the new one verifies and the old one does not. -/
theorem runOps_eq_vector_three :
    runOps mixHash sampleOps mtCreate =
        [.ok ⟨.success, none⟩, .ok ⟨.success, none⟩, .ok ⟨.success, none⟩, .ok ⟨.success, none⟩,
          .ok ⟨.success, none⟩, .ok ⟨.rootMismatch, none⟩, .ok ⟨.illegalParam, none⟩] ∧
      runOps mixHash sampleOps mtCreate = runOnList mixHash sampleOps [] :=
  ⟨by decide +kernel, runOps_eq_vector mixHash (by simp [sampleOps, MtOp.HasMemory])⟩

/-- Two trees of one size with one root hold the same tags, unless the children of some node of the
two trees collide. -/
theorem root_commits {mt mt' : Mt} {ls ls' : List MtHash} (h : Represents H mt ls)
    (h' : Represents H mt' ls') (hn : ls.length < mtAlMaxElems) (hlen : ls.length = ls'.length)
    (hroot : mtGetRoot mt = mtGetRoot mt') :
    ls = ls' ∨ ∃ l < height ls.length, ∃ j, CollidesAt H ls ls' l j := by
  by_contra hno
  rw [not_or] at hno
  refine hno.1 (List.ext_getElem? fun i => ?_)
  have hsame : root H ls = root H ls' := by
    rw [mtGetRoot_eq h hn, mtGetRoot_eq h' (hlen ▸ hn)] at hroot
    cases hr : root H ls <;> cases hr' : root H ls' <;> simp [hr, hr'] at hroot ⊢
    exact hroot
  by_cases hi : i < ls.length
  · rw [root, root, ← hlen] at hsame
    exact leaves_eq_of_node H hlen hsame (fun l hl j hc => hno.2 ⟨l, hl, j, hc⟩) i (path_height hi)
  · rw [List.getElem?_eq_none (by omega), List.getElem?_eq_none (by omega)]

/-- The tags `[1]` and `[2]`, added one after the other or as a replacement. -/
theorem root_commits_two : ∃ mt mt' ls', Represents mixHash mt [mtInitHash [1], mtInitHash [2]] ∧
    Represents mixHash mt' ls' ∧ mtGetRoot mt = mtGetRoot mt' ∧
      ls' = [mtInitHash [1], mtInitHash [3]].set 1 (mtInitHash [2]) ∧
    ([mtInitHash [1], mtInitHash [2]] = ls' ∨ ∃ l < height 2, ∃ j,
      CollidesAt mixHash [mtInitHash [1], mtInitHash [2]] ls' l j) := by
  obtain ⟨mt, h⟩ := exists_represents mixHash [mtInitHash [1], mtInitHash [2]] (by decide)
  obtain ⟨mt₁, h₁⟩ := exists_represents mixHash [mtInitHash [1], mtInitHash [3]] (by decide)
  obtain ⟨mt', -, h'⟩ :=
    mtUpdate_spec h₁ (by decide) (show [2].length ≤ hashLength by decide) (show 1 < 2 by decide)
  have hroot : mtGetRoot mt = mtGetRoot mt' := by
    rw [mtGetRoot_eq h (by decide), mtGetRoot_eq h' (by decide)]
    rfl
  exact ⟨mt, mt', _, h, h', hroot, rfl, root_commits h h' (by decide) rfl hroot⟩

end IronSafe.Merkle
