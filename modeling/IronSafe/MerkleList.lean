import IronSafe.Bytes

/-! The resizable hash lists of `mt_arr_list.c`. A list holds its initialised entries and
the number of slots allocated for them. Assertions are enabled, as in the default build:
a violated one is a crash, distinct from an error code returned to the caller. -/
namespace IronSafe.Merkle

def hashLength : ℕ := 32
def treeLevels : ℕ := 24
def mtAlMaxElems : ℕ := 4194304

abbrev MtHash := {bs : List UInt8 // bs.length = hashLength}

inductive MtError
  | success | outOfMemory | illegalParam | illegalState | rootMismatch | unspecified
  deriving DecidableEq, Repr

/-- Ways in which the process ends instead of returning. -/
inductive Crash
  | assertion | nullDeref | outOfBounds
  deriving DecidableEq, Repr

structure MtAl where
  store : List MtHash
  cap : ℕ
  deriving DecidableEq

def MtAl.elems (al : MtAl) : ℕ := al.store.length

def mtAlCreate : MtAl := ⟨[],0⟩

def isPowerOfTwo (v : ℕ) : Bool := v ≠ 0 && (v &&& (v-1)) == 0

/-- `ok` says whether the allocation succeeds, if one is made. -/
def mtAlAdd (ok : Bool) (al : MtAl) (hash : MtHash) : Except Crash (MtError × MtAl) :=
  if mtAlMaxElems ≤ al.elems then .error .assertion
  else if al.elems = 0 then
    if ok then .ok (.success, ⟨al.store ++ [hash], 1⟩) else .ok (.outOfMemory, al)
  else if isPowerOfTwo al.elems then
    if al.elems*2 % 2^32 < al.elems ∨ mtAlMaxElems < al.elems*2 % 2^32 then .ok (.illegalState, al)
    else if ok then .ok (.success, ⟨al.store ++ [hash], al.elems*2⟩)
    else .ok (.outOfMemory, al)
  else .ok (.success, ⟨al.store ++ [hash], al.cap⟩)

def mtAlUpdate (al : MtAl) (hash : MtHash) (offset : ℕ) : Except Crash (MtError × MtAl) :=
  if mtAlMaxElems ≤ al.elems then .error .assertion
  else if offset < al.elems then .ok (.success, { al with store := al.store.set offset hash })
  else .ok (.illegalParam, al)

def mtAlUpdateIfExists (al : MtAl) (hash : MtHash) (offset : ℕ) : Except Crash (MtError × MtAl) :=
  if mtAlMaxElems ≤ al.elems then .error .assertion
  else if al.elems ≤ offset then .ok (.success, al)
  else .ok (.success, { al with store := al.store.set offset hash })

def mtAlAddOrUpdate (ok : Bool) (al : MtAl) (hash : MtHash) (offset : ℕ) :
    Except Crash (MtError × MtAl) :=
  if mtAlMaxElems ≤ al.elems then .error .assertion
  else if al.elems < offset then .ok (.illegalParam, al)
  else if offset = al.elems then mtAlAdd ok al hash
  else mtAlUpdate al hash offset

/-- `none` is the null pointer returned for an offset past the end. -/
def mtAlGet (al : MtAl) (offset : ℕ) : Except Crash (Option MtHash) :=
  if mtAlMaxElems ≤ al.elems then .error .assertion
  else .ok (al.store[offset]?)

def mtAlGetSize (al : MtAl) : ℕ := al.elems

@[simp] lemma mtAlCreate_elems : mtAlCreate.elems = 0 := rfl

lemma mtAlGet_ok {al : MtAl} (h : al.elems < mtAlMaxElems) (offset : ℕ) :
    mtAlGet al offset = .ok al.store[offset]? := by
  simp [mtAlGet, Nat.not_le.mpr h]

/-- Every outcome of an append: one entry more, or the list as it was. -/
lemma mtAlAdd_cases {ok : Bool} {al : MtAl} {hash : MtHash} {r : MtError} {al' : MtAl}
    (h : mtAlAdd ok al hash = .ok (r,al')) :
    al.elems < mtAlMaxElems ∧
      ((r = .success ∧ al'.store = al.store ++ [hash]) ∨ (r ≠ .success ∧ al' = al)) := by
  unfold mtAlAdd at h
  split_ifs at h <;> simp only [Except.ok.injEq, Prod.mk.injEq] at h <;>
    obtain ⟨rfl, rfl⟩ := h <;> refine ⟨by omega, ?_⟩ <;> simp

lemma isPowerOfTwo_iff (v : ℕ) : isPowerOfTwo v ↔ ∃ k, v = 2^k := by
  have h := Nat.ne_zero_and_sub_one_eq_zero_iff_isPowerOfTwo (n := v)
  simpa [isPowerOfTwo, Nat.isPowerOfTwo] using h

/-- The largest power of two below the limit is half of it, so the growth check never
refuses a list that is not full. -/
lemma double_le_max {v : ℕ} (hv : v < mtAlMaxElems) (hp : isPowerOfTwo v) :
    v*2 ≤ mtAlMaxElems := by
  obtain ⟨k, rfl⟩ := (isPowerOfTwo_iff v).mp hp
  have hk : k < 22 := (Nat.pow_lt_pow_iff_right (by omega)).mp (show 2^k < 2^22 from hv)
  have hle := Nat.pow_le_pow_right (show 0 < 2 by omega) (show k ≤ 21 by omega)
  simp only [mtAlMaxElems]
  omega

/-- An append to a list of `n` entries allocates memory. -/
def Grows (n : ℕ) : Prop := n = 0 ∨ isPowerOfTwo n

/-- An append to a list that is not full fails only if it needs memory and gets none. -/
lemma mtAlAdd_outcome (ok : Bool) {al : MtAl} (hash : MtHash) (h : al.elems < mtAlMaxElems) :
    ∃ r al', mtAlAdd ok al hash = .ok (r,al') ∧ (r = .success ↔ (Grows al.elems → ok = true)) := by
  simp only [mtAlAdd, Nat.not_le.mpr h, if_false]
  split_ifs with h0 hok hp hbig hok
  · exact ⟨_, _, rfl, by simp [hok]⟩
  · exact ⟨_, _, rfl, by simp [hok, Grows, h0]⟩
  · have hd := double_le_max h hp
    simp only [mtAlMaxElems] at h hd hbig
    omega
  · exact ⟨_, _, rfl, by simp [hok]⟩
  · exact ⟨_, _, rfl, by simp [hok, Grows, hp]⟩
  · exact ⟨_, _, rfl, by simp [Grows, h0, hp]⟩

end IronSafe.Merkle
