import IronSafe.MerkleVector
import IronSafe.ShaRuns

/-! The node hash of `mt_crypto.c`: SHA-256 of two digests, one after the other. With it as the hash
of the tree, two different leaves that verify at one place exhibit a collision of SHA-256. -/
namespace IronSafe.Merkle
open Bytes BlockStream RaggedTree Sha Fips

/-- A null pointer is `none`, and `ctx` is what the stack held. -/
def mtHash (ctx : Sha256Context) :
    Option MtHash → Option MtHash → Except Crash (MtError × Option (List UInt8))
  | some left, some right => do
    let ctx := sha224256Reset ctx sha256H0
    let (code, ctx) ← sha256Input ctx (some left.val) hashLength
    if code ≠ .success then return (.illegalState, none)
    let (code, ctx) ← sha256Input ctx (some right.val) hashLength
    if code ≠ .success then return (.illegalState, none)
    let (code, messageDigest, _) ← sha224256ResultN ctx true 32
    if code ≠ .success then return (.illegalState, none)
    return (.success, messageDigest)
  | _, _ => .ok (.illegalParam, none)

/-- The digest of two digests by the standard. -/
def shaPair (left right : MtHash) : MtHash :=
  ⟨(List.range hashLength).map (digestByte (Fips.hash .sha256 (bitsOf (left.val ++ right.val)))),
    by simp⟩

lemma bitsOf_shaPair (left right : MtHash) :
    bitsOf (shaPair left right).val = sha256 (bitsOf (left.val ++ right.val)) :=
  bitsOf_digest _ le_rfl

lemma absorb_digest {H0 : Words} {message : List UInt8} {ctx : Sha256Context}
    (h : Absorbing H0 message ctx) (d : MtHash) (hshort : message.length ≤ hashLength) :
    ∃ ctx', sha256Input ctx (some d.val) hashLength =
      .ok (.success, ctx') ∧ Absorbing H0 (message ++ d.val) ctx' := by
  have htake : d.val.take hashLength = d.val := List.take_of_length_le d.2.le
  have hfits : 8*(message ++ d.val.take hashLength).length < 2^64 := by
    rw [htake, List.length_append, d.2]
    simp only [hashLength] at hshort ⊢
    omega
  obtain ⟨ctx', hrun, h'⟩ := h.input (by decide) hfits
  exact ⟨ctx', hrun, by rwa [htake] at h'⟩

/-- `mt_hash` of two digests always succeeds, whatever its context held before, and returns the
SHA-256 digest of the left digest followed by the right one. -/
theorem mtHash_eq_sha256 (ctx : Sha256Context) (left right : MtHash) :
    mtHash ctx (some left) (some right) = .ok (.success, some (shaPair left right).val) ∧
      bitsOf (shaPair left right).val = sha256 (bitsOf left.val ++ bitsOf right.val) := by
  obtain ⟨ctx₁, hleft, h₁⟩ := absorb_digest (absorbing_reset ctx sha256H0) left (Nat.zero_le _)
  obtain ⟨ctx₂, hright, h₂⟩ := absorb_digest h₁ right (by rw [List.nil_append, left.2])
  obtain ⟨ctx₃, hfin, -, -, hhash⟩ := @Absorbing.finalizeOnce ctx₂ .sha256 _ h₂
  have hresult := resultN_of_success h₂.corrupted hfin 32
  rw [hhash, List.nil_append] at hresult
  refine ⟨?_, by rw [bitsOf_shaPair, bitsOf_append]⟩
  simp only [mtHash, bind, Except.bind, hleft, hright, hresult, ne_eq, not_true_eq_false, if_false]
  rfl

/-- The 64 bytes that are hashed for an inner node. -/
def pairBits (p : MtHash × MtHash) : List Bool := bitsOf (p.1.val ++ p.2.val)

lemma pairBits_injective {p r : MtHash × MtHash} (h : pairBits p = pairBits r) : p = r := by
  obtain ⟨hl, hr⟩ := List.append_inj (bitsOf_injective h) (by rw [p.1.2, r.1.2])
  exact Prod.ext (Subtype.ext hl) (Subtype.ext hr)

lemma shaPair_eq_iff (p r : MtHash × MtHash) :
    shaPair p.1 p.2 = shaPair r.1 r.2 ↔ sha256 (pairBits p) = sha256 (pairBits r) := by
  rw [pairBits, pairBits, ← bitsOf_shaPair, ← bitsOf_shaPair, Subtype.ext_iff]
  exact ⟨congrArg bitsOf, fun h => bitsOf_injective h⟩

/-- With SHA-256 as the hash of the nodes, `mt_verify` accepts the stored tag, and another one
exactly if two messages of 64 bytes hashed on the paths of the two tags are a collision of
SHA-256. -/
theorem verify_sha256 {mt : Mt} {ls : List MtHash} (h : Represents shaPair mt ls)
    (hn : ls.length < mtAlMaxElems) {tag : List UInt8} (ht : tag.length ≤ hashLength) {i : ℕ}
    {e : MtHash} (he : ls[i]? = some e) :
    mtVerify shaPair mt tag i = .ok .success ↔ e = mtInitHash tag ∨
      ∃ l < height ls.length, ∃ p ∈ pathPair shaPair ls i e l,
        ∃ r ∈ pathPair shaPair ls i (mtInitHash tag) l,
        pairBits p ≠ pairBits r ∧ sha256 (pairBits p) = sha256 (pairBits r) := by
  have hi : i < ls.length := (List.getElem?_eq_some_iff.mp he).1
  have hpair : ∀ p r : MtHash × MtHash, (p ≠ r ∧ shaPair p.1 p.2 = shaPair r.1 r.2) ↔
      (pairBits p ≠ pairBits r ∧ sha256 (pairBits p) = sha256 (pairBits r)) := fun p r =>
    and_congr ⟨fun hne hc => hne (pairBits_injective hc), fun hne hc => hne (congrArg pairBits hc)⟩
      (shaPair_eq_iff p r)
  rw [mtVerify_eq_accepts h hn ht hi]
  simp only [← hpair]
  rw [← digestAt_eq_iff, ← accepts_iff he]
  by_cases hacc : accepts shaPair ls i (mtInitHash tag) = true <;> simp [hacc]

/-- Two leaves: the second one verifies with its own tag. -/
theorem verify_sha256_two : ∃ mt, Represents shaPair mt [mtInitHash [1], mtInitHash [2]] ∧
    mtVerify shaPair mt [2] 1 = .ok .success := by
  obtain ⟨mt, h⟩ := exists_represents shaPair [mtInitHash [1], mtInitHash [2]] (by decide)
  exact ⟨mt, h, (verify_sha256 h (by decide) (by decide) rfl).mpr (.inl rfl)⟩

end IronSafe.Merkle
