import IronSafe.PageCipher

/-! Key material of `sec_sqlite3.c`: hexadecimal text, passphrases that spell out a raw key, and the
key specification that is made from a derived key and its salt. -/
namespace IronSafe.Keys
open Bytes Page

def cipherHex2int (c : UInt8) : UInt8 :=
  if 0x30 ≤ c ∧ c ≤ 0x39 then c - 0x30
  else if 0x41 ≤ c ∧ c ≤ 0x46 then c - 0x41 + 10
  else if 0x61 ≤ c ∧ c ≤ 0x66 then c - 0x61 + 10
  else 0

def cipherHex2bin : List UInt8 → List UInt8
  | high :: low :: hex => (cipherHex2int high <<< 4 ||| cipherHex2int low) :: cipherHex2bin hex
  | _ => []

def hexDigit (n : ℕ) : UInt8 := UInt8.ofNat (if n < 10 then 0x30 + n else 0x61 + n - 10)

def cipherBin2hex (bytes : List UInt8) : List UInt8 :=
  bytes.flatMap fun b => [hexDigit (b.toNat/16), hexDigit (b.toNat % 16)]

def isHexChar (c : UInt8) : Bool :=
  !((c < 0x30 || 0x39 < c) && (c < 0x41 || 0x46 < c) && (c < 0x61 || 0x66 < c))

def cipherIsHex (hex : List UInt8) : Bool := hex.all isHexChar

/-- A buffer of `n` bytes. -/
abbrev KeyBytes (n : ℕ) := {bs : List UInt8 // bs.length = n}

abbrev Salt := KeyBytes fileHeaderSz

/-- The buffer of `n` bytes that starts with the bytes given. -/
def fill (n : ℕ) (bs : List UInt8) : KeyBytes n := ⟨(bs ++ List.replicate n 0).take n, by simp⟩

/-- The passphrase is `x'` with `2*n` hexadecimal digits and one more character. -/
def isRaw (n : ℕ) (pass : List UInt8) : Bool :=
  pass.length = 2*n+3 ∧ (pass.getD 0 0 = 0x78 ∨ pass.getD 0 0 = 0x58) ∧ pass.getD 1 0 = 0x27 ∧
    cipherIsHex (slice 2 (2*n) pass)

/-- The text `x'…'` of a key and its salt. -/
def keyspecOf {n : ℕ} (key : KeyBytes n) (salt : Salt) : List UInt8 :=
  0x78 :: 0x27 :: (cipherBin2hex key.val ++ cipherBin2hex salt.val ++ [0x27])

/-! ### Hexadecimal text -/

lemma nibbles_join : ∀ h < 16, ∀ l < 16,
    cipherHex2int (hexDigit h) <<< 4 ||| cipherHex2int (hexDigit l) = UInt8.ofNat (16*h+l) := by
  decide +kernel

lemma isHexChar_hexDigit : ∀ n < 16, isHexChar (hexDigit n) = true := by decide

@[simp] lemma bin2hex_length (bytes : List UInt8) :
    (cipherBin2hex bytes).length = 2*bytes.length := by
  induction bytes with
  | nil => rfl
  | cons b bytes ih =>
    rw [cipherBin2hex, List.flatMap_cons, List.length_append, ← cipherBin2hex, ih, List.length_cons]
    simp only [List.length_cons, List.length_nil]
    omega

lemma hex2bin_bin2hex (bytes : List UInt8) : cipherHex2bin (cipherBin2hex bytes) = bytes := by
  induction bytes with
  | nil => rfl
  | cons b bytes ih =>
    have hb := b.toNat_lt
    have hjoin := nibbles_join (b.toNat/16) (by omega) (b.toNat % 16) (by omega)
    rw [Nat.div_add_mod, UInt8.ofNat_toNat] at hjoin
    rw [cipherBin2hex, List.flatMap_cons, ← cipherBin2hex]
    simp only [List.cons_append, List.nil_append, cipherHex2bin, hjoin, ih]

lemma isHex_bin2hex (bytes : List UInt8) : cipherIsHex (cipherBin2hex bytes) = true := by
  rw [cipherIsHex, List.all_eq_true, cipherBin2hex]
  intro c hc
  obtain ⟨b, -, hb⟩ := List.mem_flatMap.mp hc
  have hlt := b.toNat_lt
  rcases List.mem_pair.mp hb with rfl | rfl
  · exact isHexChar_hexDigit _ (by omega)
  · exact isHexChar_hexDigit _ (by omega)

lemma bin2hex_append (xs ys : List UInt8) :
    cipherBin2hex (xs ++ ys) = cipherBin2hex xs ++ cipherBin2hex ys :=
  List.flatMap_append

lemma fill_val {n : ℕ} (key : KeyBytes n) : fill n key.val = key :=
  Subtype.ext (List.take_left' key.2)

/-! ### Key specifications -/

section Keyspec

variable {n : ℕ} (key : KeyBytes n) (salt : Salt)

lemma keyspec_length : (keyspecOf key salt).length = 2*(n+fileHeaderSz)+3 := by
  simp only [keyspecOf, List.length_cons, List.length_append, bin2hex_length, key.2, salt.2,
    List.length_nil]
  omega

lemma keyspec_ne_nil : keyspecOf key salt ≠ [] := List.cons_ne_nil _ _

lemma slice_keyspec_key : slice 2 (2*n) (keyspecOf key salt) = cipherBin2hex key.val := by
  rw [slice, keyspecOf, List.append_assoc]
  exact List.take_left' (by rw [bin2hex_length, key.2])

lemma slice_keyspec_salt :
    slice (2+2*n) (2*fileHeaderSz) (keyspecOf key salt) = cipherBin2hex salt.val := by
  have hdrop : (keyspecOf key salt).drop (2+2*n) = cipherBin2hex salt.val ++ [0x27] := by
    rw [keyspecOf, List.append_assoc, ← List.drop_drop]
    exact List.drop_left' (by rw [bin2hex_length, key.2])
  rw [slice, hdrop]
  exact List.take_left' (by rw [bin2hex_length, salt.2])

lemma slice_keyspec :
    slice 2 (2*(n+fileHeaderSz)) (keyspecOf key salt) = cipherBin2hex (key.val ++ salt.val) := by
  rw [slice, keyspecOf, bin2hex_append]
  exact List.take_left' (by simp only [List.length_append, bin2hex_length, key.2, salt.2]; omega)

/-- A key specification is a raw key with salt, and not a raw key alone. -/
lemma isRaw_keyspec :
    isRaw n (keyspecOf key salt) = false ∧ isRaw (n+fileHeaderSz) (keyspecOf key salt) = true := by
  refine ⟨decide_eq_false fun h => ?_, decide_eq_true ⟨keyspec_length key salt, .inl rfl, rfl, ?_⟩⟩
  · have hlen := h.1
    rw [keyspec_length] at hlen
    simp only [fileHeaderSz] at hlen
    omega
  · rw [slice_keyspec]
    exact isHex_bin2hex _

end Keyspec

end IronSafe.Keys
