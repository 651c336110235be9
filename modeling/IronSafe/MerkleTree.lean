import IronSafe.MerkleList

/-! The tree of `mt_impl.c`: one hash list per level and a separate leaf counter. The hash
function is a parameter, and so is the outcome of each allocation (one per level in a
call). A function that changes the tree returns the tree with its error code, because an
error can be returned after some levels have already changed. -/
namespace IronSafe.Merkle

structure Mt where
  elems : ℕ
  level : List MtAl
  levels : level.length = treeLevels

def Mt.lvl (mt : Mt) (l : ℕ) : MtAl := mt.level.getD l mtAlCreate

def Mt.setLvl (mt : Mt) (l : ℕ) (al : MtAl) : Mt :=
  { mt with level := mt.level.set l al, levels := by simp [mt.levels] }

def mtCreate : Mt := ⟨0, List.replicate treeLevels mtAlCreate, by simp⟩

/-- A tree together with the index that the next page gets. -/
structure MtObj where
  mt : Mt
  numBlocks : ℕ

def mtRight (offset : ℕ) : Bool := offset % 2 == 1

/-- Copy a tag of at most `hashLength` bytes and fill the rest with zeros. -/
def mtInitHash (tag : List UInt8) : MtHash :=
  ⟨(tag ++ List.replicate hashLength 0).take hashLength, by simp⟩

/-- The assertion at the end of `mt_add`: the last digest is the stored top node. -/
def mtAddDone (q l : ℕ) (digest : MtHash) (mt : Mt) : Except Crash (MtError × Mt) :=
  if treeLevels ≤ l then .error .outOfBounds
  else match mtAlGet (mt.lvl l) q with
  | .error c => .error c
  | .ok none => .error .nullDeref
  | .ok (some top) => if digest = top then .ok (.success, mt) else .error .assertion

/-- The loop of `mt_add`; the first argument is the number of levels left. -/
def mtAddLoop (H : MtHash → MtHash → MtHash) (mem : ℕ → Bool) :
    ℕ → ℕ → ℕ → MtHash → Mt → Except Crash (MtError × Mt)
  | 0, q, l, digest, mt => mtAddDone q l digest mt
  | left+1, q, l, digest, mt =>
    if q = 0 then mtAddDone q l digest mt
    else if mtRight q then
      match mtAlGet (mt.lvl l) (q-1) with
      | .error c => .error c
      | .ok none => .ok (.illegalParam, mt)
      | .ok (some sibling) =>
        if treeLevels ≤ l+1 then .error .outOfBounds
        else match mtAlAddOrUpdate (mem (l+1)) (mt.lvl (l+1)) (H sibling digest) (q/2) with
        | .error c => .error c
        | .ok (.success, al) =>
          mtAddLoop H mem left (q/2) (l+1) (H sibling digest) (mt.setLvl (l+1) al)
        | .ok (r, al) => .ok (r, mt.setLvl (l+1) al)
    else mtAddLoop H mem left (q/2) (l+1) digest mt

def mtAdd (H : MtHash → MtHash → MtHash) (mem : ℕ → Bool) (mt : Mt) (tag : List UInt8) :
    Except Crash (MtError × Mt) :=
  if hashLength < tag.length then .ok (.illegalParam, mt)
  else match mtAlAdd (mem 0) (mt.lvl 0) (mtInitHash tag) with
  | .error c => .error c
  | .ok (.success, al) =>
    let mt' : Mt := { mt.setLvl 0 al with elems := (mt.elems+1) % 2^32 }
    if mt'.elems = 1 then .ok (.success, mt')
    else mtAddLoop H mem treeLevels ((mt'.elems + (2^32-1)) % 2^32) 0 (mtInitHash tag) mt'
  | .ok (r, al) => .ok (r, mt.setLvl 0 al)

def mtGetSize (mt : Mt) : ℕ := mtAlGetSize (mt.lvl 0)

def hasNextLevelExceptRoot (mt : Mt) (curLvl : ℕ) : Bool :=
  curLvl+1 < treeLevels-1 && 0 < mtAlGetSize (mt.lvl (curLvl+1))

/-- Descend from level `l` until the node at the shifted offset is stored. -/
def findRightNeighbor (mt : Mt) : ℕ → ℕ → Except Crash (Option MtHash)
  | offset, 0 =>
    if offset < mtAlGetSize (mt.lvl 0) then mtAlGet (mt.lvl 0) offset else .ok none
  | offset, l+1 =>
    if offset < mtAlGetSize (mt.lvl (l+1)) then mtAlGet (mt.lvl (l+1)) offset
    else findRightNeighbor mt (offset*2 % 2^32) l

/-- The loop body that `mt_verify` and `mt_update` share: hash the digest with its
sibling. `none` is the error of `mt_hash` on a missing left neighbor. -/
def hashNeighbor (H : MtHash → MtHash → MtHash) (mt : Mt) (q l : ℕ) (digest : MtHash) :
    Except Crash (Option MtHash) :=
  if q % 2 = 0 then
    match findRightNeighbor mt ((q+1) % 2^32) l with
    | .error c => .error c
    | .ok none => .ok (some digest)
    | .ok (some right) => .ok (some (H digest right))
  else
    match mtAlGet (mt.lvl l) (q-1) with
    | .error c => .error c
    | .ok none => .ok none
    | .ok (some sibling) => .ok (some (H sibling digest))

/-- Final comparison of `mt_verify` with the top node; the pointer is not checked. -/
def mtVerifyDone (mt : Mt) (q l : ℕ) (digest : MtHash) : Except Crash MtError :=
  match mtAlGet (mt.lvl l) q with
  | .error c => .error c
  | .ok none => .error .nullDeref
  | .ok (some top) => if digest = top then .ok .success else .ok .rootMismatch

def mtVerifyLoop (H : MtHash → MtHash → MtHash) (mt : Mt) :
    ℕ → ℕ → ℕ → MtHash → Except Crash MtError
  | 0, q, l, digest => mtVerifyDone mt q l digest
  | left+1, q, l, digest =>
    if hasNextLevelExceptRoot mt l then
      match hashNeighbor H mt q l digest with
      | .error c => .error c
      | .ok none => .ok .illegalParam
      | .ok (some digest') => mtVerifyLoop H mt left (q/2) (l+1) digest'
    else mtVerifyDone mt q l digest

def mtVerify (H : MtHash → MtHash → MtHash) (mt : Mt) (tag : List UInt8) (offset : ℕ) :
    Except Crash MtError :=
  if tag.length ≤ hashLength ∧ offset < mt.elems then
    mtVerifyLoop H mt treeLevels offset 0 (mtInitHash tag)
  else .ok .illegalParam

def mtUpdateLoop (H : MtHash → MtHash → MtHash) :
    ℕ → ℕ → ℕ → MtHash → Mt → Except Crash (MtError × Mt)
  | 0, q, l, digest, mt => mtAddDone q l digest mt
  | left+1, q, l, digest, mt =>
    if hasNextLevelExceptRoot mt l then
      match hashNeighbor H mt q l digest with
      | .error c => .error c
      | .ok none => .ok (.illegalParam, mt)
      | .ok (some digest') =>
        match mtAlUpdateIfExists (mt.lvl (l+1)) digest' (q/2) with
        | .error c => .error c
        | .ok (.success, al) => mtUpdateLoop H left (q/2) (l+1) digest' (mt.setLvl (l+1) al)
        | .ok (r, al) => .ok (r, mt.setLvl (l+1) al)
    else mtAddDone q l digest mt

def mtUpdate (H : MtHash → MtHash → MtHash) (mt : Mt) (tag : List UInt8) (offset : ℕ) :
    Except Crash (MtError × Mt) :=
  if tag.length ≤ hashLength ∧ offset < mt.elems then
    match mtAlUpdate (mt.lvl 0) (mtInitHash tag) offset with
    | .error c => .error c
    | .ok (.success, al) => mtUpdateLoop H treeLevels offset 0 (mtInitHash tag) (mt.setLvl 0 al)
    | .ok (r, al) => .ok (r, mt.setLvl 0 al)
  else .ok (.illegalParam, mt)

def mtRootLoop (mt : Mt) : ℕ → ℕ → ℕ
  | 0, l => l
  | left+1, l => if hasNextLevelExceptRoot mt l then mtRootLoop mt left (l+1) else l

def mtGetRoot (mt : Mt) : Except Crash (MtError × MtHash) :=
  match mtAlGet (mt.lvl (mtRootLoop mt treeLevels 0)) 0 with
  | .error c => .error c
  | .ok none => .error .nullDeref
  | .ok (some root) => .ok (.success, root)

@[simp] lemma lvl_setLvl_self (mt : Mt) {l : ℕ} (al : MtAl) (h : l < treeLevels) :
    (mt.setLvl l al).lvl l = al := by
  simp [Mt.lvl, Mt.setLvl, List.getD_eq_getElem?_getD, mt.levels, h]

lemma lvl_setLvl_of_ne (mt : Mt) {l k : ℕ} (al : MtAl) (h : k ≠ l) :
    (mt.setLvl l al).lvl k = mt.lvl k := by
  simp [Mt.lvl, Mt.setLvl, List.getD_eq_getElem?_getD, List.getElem?_set_ne h.symm]

@[simp] lemma setLvl_lvl (mt : Mt) {l : ℕ} (h : l < treeLevels) : mt.setLvl l (mt.lvl l) = mt := by
  have hlt : l < mt.level.length := by rw [mt.levels]; exact h
  obtain ⟨elems, level, levels⟩ := mt
  simp only [Mt.setLvl, Mt.lvl, Mt.mk.injEq, true_and]
  rw [List.getD_eq_getElem?_getD, List.getElem?_eq_getElem hlt, Option.getD_some,
    List.set_getElem_self]

@[simp] lemma lvl_with_elems (mt : Mt) (n l : ℕ) : Mt.lvl { mt with elems := n } l = mt.lvl l := rfl

@[simp] lemma mtCreate_lvl (l : ℕ) : mtCreate.lvl l = mtAlCreate := by
  simp only [Mt.lvl, mtCreate, List.getD_eq_getElem?_getD, List.getElem?_replicate]
  split_ifs <;> rfl

/-- Tags of one length are told apart by their padded digests. -/
lemma mtInitHash_injective {s t : List UInt8} (hl : s.length = t.length)
    (hs : s.length ≤ hashLength) (h : mtInitHash s = mtInitHash t) : s = t := by
  have hh := congrArg (fun d : MtHash => d.val.take s.length) h
  simp only [mtInitHash, List.take_take, Nat.min_eq_left hs] at hh
  rw [List.take_left, hl, List.take_left] at hh
  exact hh

end IronSafe.Merkle
