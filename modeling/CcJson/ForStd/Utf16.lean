import CcJson.ForStd.Transcode

/-!
# UTF-16 encodings of code points

A code point below 0x10000 is one word and any other a pair of surrogates, which no
code point below 0x10000 is. `Utf16.Word` and `Utf16.Pair` say this in arithmetic.

## Key results

- `encodeChar_of_word`, `encodeChar_of_pair`: the arithmetic determines the encoding
- `cases`: the encoding of a character is one of the two
-/

namespace Utf16

/-- The UTF-16 encoding of a code point. -/
def encodeChar (c : Char) : List UInt16 :=
  if c.toNat < 0x10000 then [UInt16.ofNat c.toNat]
  else [UInt16.ofNat (0xd800 + (c.toNat - 0x10000) / 1024),
    UInt16.ofNat (0xdc00 + (c.toNat - 0x10000) % 1024)]

/-- `w` is the word of the code point `n`. -/
structure Word (n : Nat) (w : UInt16) : Prop where
  toNat : w.toNat = n
  noSurrogate : n < 0xd800 ∨ 0xe000 ≤ n

/-- `w` and `v` are the surrogates of the code point `n`. -/
structure Pair (n : Nat) (w v : UInt16) : Prop where
  lead : 0xd800 ≤ w.toNat ∧ w.toNat < 0xdc00
  trail : 0xdc00 ≤ v.toNat ∧ v.toNat < 0xe000
  value : n = (w.toNat - 0xd800) * 1024 + (v.toNat - 0xdc00) + 0x10000

theorem toNat_lt (c : Char) : c.toNat < 0x110000 := by
  have := c.valid
  simp only [UInt32.isValidChar, Nat.isValidChar] at this
  have : c.toNat = c.val.toNat := rfl
  omega

theorem toNat_no_surrogate (c : Char) : c.toNat < 0xd800 ∨ 0xe000 ≤ c.toNat := by
  have := c.valid
  simp only [UInt32.isValidChar, Nat.isValidChar] at this
  have : c.toNat = c.val.toNat := rfl
  omega

/-- The encoding of a character is its word or its surrogates. -/
theorem cases (c : Char) :
    (∃ w, encodeChar c = [w] ∧ Word c.toNat w) ∨
      ∃ w v, encodeChar c = [w, v] ∧ Pair c.toNat w v := by
  have hlt := toNat_lt c
  unfold encodeChar
  split
  · rename_i hbmp
    refine .inl ⟨_, rfl, ?_, toNat_no_surrogate c⟩
    rw [UInt16.toNat_ofNat']
    omega
  · refine .inr ⟨_, _, rfl, ?_, ?_, ?_⟩
    · rw [UInt16.toNat_ofNat']
      omega
    · rw [UInt16.toNat_ofNat']
      omega
    · rw [UInt16.toNat_ofNat', UInt16.toNat_ofNat']
      omega

theorem encodeChar_of_word {c : Char} {w : UInt16} (h : Word c.toNat w) : encodeChar c = [w] := by
  have hw := w.toNat_lt
  rw [encodeChar, if_pos (by rw [← h.toNat]; omega), ← h.toNat, UInt16.ofNat_toNat]

theorem encodeChar_of_pair {c : Char} {w v : UInt16} (h : Pair c.toNat w v) :
    encodeChar c = [w, v] := by
  obtain ⟨hlead, htrail, hvalue⟩ := h
  have hw : 0xd800 + (c.toNat - 0x10000) / 1024 = w.toNat := by omega
  have hv : 0xdc00 + (c.toNat - 0x10000) % 1024 = v.toNat := by omega
  rw [encodeChar, if_neg (by omega), hw, hv, UInt16.ofNat_toNat, UInt16.ofNat_toNat]

theorem toNat_ofNat {n : Nat} (h : n.isValidChar) : (Char.ofNat n).toNat = n := by
  rw [Char.ofNat, dif_pos h]
  rfl

/-- A word that is no surrogate is a code point. -/
theorem exists_char_of_word {w : UInt16} (h : w.toNat < 0xd800 ∨ 0xe000 ≤ w.toNat) :
    ∃ c : Char, Word c.toNat w := by
  have hw := w.toNat_lt
  have hvalid : w.toNat.isValidChar := by
    unfold Nat.isValidChar
    omega
  refine ⟨Char.ofNat w.toNat, ?_, ?_⟩
  · rw [toNat_ofNat hvalid]
  · rwa [toNat_ofNat hvalid]

/-- A pair of surrogates is a code point. -/
theorem exists_char_of_pair {w v : UInt16} (hw : 0xd800 ≤ w.toNat ∧ w.toNat < 0xdc00)
    (hv : 0xdc00 ≤ v.toNat ∧ v.toNat < 0xe000) : ∃ c : Char, Pair c.toNat w v := by
  have hvalid : ((w.toNat - 0xd800) * 1024 + (v.toNat - 0xdc00) + 0x10000).isValidChar := by
    unfold Nat.isValidChar
    omega
  refine ⟨Char.ofNat ((w.toNat - 0xd800) * 1024 + (v.toNat - 0xdc00) + 0x10000), hw, hv, ?_⟩
  rw [toNat_ofNat hvalid]

theorem encodeChar_ne_nil (c : Char) : encodeChar c ≠ [] := by
  unfold encodeChar
  split <;> simp

/-- UTF-16 as a code whose decoders deliver the values of the code points. -/
def code : Code Char UInt16 UInt32 where
  encode := encodeChar
  value := Char.val
  ne_nil := encodeChar_ne_nil

/-- The UTF-16 encoding of a list of code points. -/
def encode (cs : List Char) : List UInt16 := code.text cs

/-- Words that begin with a surrogate without its partner; the second argument is the word that
    shows it. -/
inductive Unpaired : List UInt16 → UInt16 → Prop where
  | trail {w : UInt16} (h : 0xdc00 ≤ w.toNat ∧ w.toNat < 0xe000) (rest : List UInt16) :
      Unpaired (w :: rest) w
  | last {w : UInt16} (h : 0xd800 ≤ w.toNat ∧ w.toNat < 0xdc00) : Unpaired [w] w
  | lead {w v : UInt16} (h : 0xd800 ≤ w.toNat ∧ w.toNat < 0xdc00)
      (hv : ¬ (0xdc00 ≤ v.toNat ∧ v.toNat < 0xe000)) (rest : List UInt16) :
      Unpaired (w :: v :: rest) v

/-- Words begin with a code point or with a surrogate without its partner. -/
theorem char_or_unpaired {words : List UInt16} (h : words ≠ []) :
    (∃ c rest, words = encodeChar c ++ rest) ∨ ∃ w, Unpaired words w := by
  obtain ⟨w, words, rfl⟩ := List.exists_cons_of_ne_nil h
  by_cases hlead : 0xd800 ≤ w.toNat ∧ w.toNat < 0xdc00
  · cases words with
    | nil => exact .inr ⟨w, .last hlead⟩
    | cons v words =>
      by_cases htrail : 0xdc00 ≤ v.toNat ∧ v.toNat < 0xe000
      · obtain ⟨c, hpair⟩ := exists_char_of_pair hlead htrail
        exact .inl ⟨c, words, by rw [encodeChar_of_pair hpair]; rfl⟩
      · exact .inr ⟨v, .lead hlead htrail words⟩
  · by_cases htrail : 0xdc00 ≤ w.toNat ∧ w.toNat < 0xe000
    · exact .inr ⟨w, .trail htrail words⟩
    · obtain ⟨c, hword⟩ := exists_char_of_word (w := w) (by omega)
      exact .inl ⟨c, words, by rw [encodeChar_of_word hword]; rfl⟩

end Utf16
