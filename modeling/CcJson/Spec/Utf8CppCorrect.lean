import CcJson.Native.Utf8Cpp

/-!
# The vendored decoder and encoder

`utf8::next` decodes exactly the encodings `String.utf8EncodeChar` of Unicode
scalar values, and `utf8::append` produces them. The masks and shifts are read
as arithmetic on `Nat` once (`IsSequence`), and both directions go through that
reading.

## Key results

- `next_encode`: `next` decodes an encoded character
- `next_eq_ok`: whatever `next` decodes is an encoded character
- `next_error`: `next` throws exactly on undecodable bytes
- `append_val`: `append` produces the encoding of a character
- `prior_encode`: `prior` steps back over an encoded character
-/

namespace CcJson.Utf8Cpp

/-! ## Masks and shifts as arithmetic -/

theorem octet_cons_toNat (b : UInt8) (r : Bytes) : (octet (b :: r)).toNat = b.toNat := by
  simp [octet]

/-- `(octet << k) & (2^n - 1)` as arithmetic. -/
private theorem shiftLeft_and_toNat (x k m : UInt32) (n : Nat) (hk : k.toNat < 32)
    (hn : n ≤ 32) (hm : m.toNat = 2 ^ n - 1) :
    ((x <<< k) &&& m).toNat = x.toNat * 2 ^ k.toNat % 2 ^ n := by
  rw [UInt32.toNat_and, UInt32.toNat_shiftLeft, Nat.mod_eq_of_lt hk, hm,
    Nat.and_two_pow_sub_one_eq_mod, Nat.shiftLeft_eq,
    Nat.mod_mod_of_dvd _ (Nat.pow_dvd_pow 2 hn)]

private theorem and_3f_toNat (x : UInt32) : (x &&& 0x3f).toNat = x.toNat % 64 := by
  rw [UInt32.toNat_and]
  exact Nat.and_two_pow_sub_one_eq_mod _ 6

theorem isTrail_iff (b : UInt8) : isTrail b = true ↔ 128 ≤ b.toNat ∧ b.toNat < 192 := by
  have := b.toNat_lt
  simp only [isTrail, beq_iff_eq, ← UInt8.toNat_inj, UInt8.toNat_shiftRight]
  simp only [UInt8.reduceToNat, Nat.reduceMod, Nat.shiftRight_eq_div_pow, Nat.reducePow]
  omega

/-- The sequence length announced by a lead octet, as a range check. -/
theorem sequenceLength_eq (b : UInt8) :
    sequenceLength b =
      if b.toNat < 128 then 1
      else if 192 ≤ b.toNat ∧ b.toNat < 224 then 2
      else if 224 ≤ b.toNat ∧ b.toNat < 240 then 3
      else if 240 ≤ b.toNat ∧ b.toNat < 248 then 4
      else 0 := by
  have hb := b.toNat_lt
  have h5 : (b >>> 5 == 0x6) = true ↔ 192 ≤ b.toNat ∧ b.toNat < 224 := by
    simp only [beq_iff_eq, ← UInt8.toNat_inj, UInt8.toNat_shiftRight, UInt8.reduceToNat,
      Nat.reduceMod, Nat.shiftRight_eq_div_pow, Nat.reducePow]
    omega
  have h4 : (b >>> 4 == 0xe) = true ↔ 224 ≤ b.toNat ∧ b.toNat < 240 := by
    simp only [beq_iff_eq, ← UInt8.toNat_inj, UInt8.toNat_shiftRight, UInt8.reduceToNat,
      Nat.reduceMod, Nat.shiftRight_eq_div_pow, Nat.reducePow]
    omega
  have h3 : (b >>> 3 == 0x1e) = true ↔ 240 ≤ b.toNat ∧ b.toNat < 248 := by
    simp only [beq_iff_eq, ← UInt8.toNat_inj, UInt8.toNat_shiftRight, UInt8.reduceToNat,
      Nat.reduceMod, Nat.shiftRight_eq_div_pow, Nat.reducePow]
    omega
  simp only [sequenceLength, h5, h4, h3, UInt8.lt_iff_toNat_lt, UInt8.reduceToNat]

theorem isCodePointValid_iff (cp : UInt32) :
    isCodePointValid cp = true ↔ cp.isValidChar := by
  simp only [isCodePointValid, isSurrogate, UInt32.isValidChar, Nat.isValidChar,
    Bool.and_eq_true, Bool.not_eq_true', Bool.and_eq_false_iff, decide_eq_true_eq,
    decide_eq_false_iff_not, UInt32.le_iff_toNat_le, ge_iff_le, UInt32.reduceToNat]
  omega

theorem isOverlongSequence_iff (cp : UInt32) (length : Nat) :
    isOverlongSequence cp length = true ↔
      (cp.toNat < 0x80 ∧ length ≠ 1) ∨ (0x80 ≤ cp.toNat ∧ cp.toNat < 0x800 ∧ length ≠ 2) ∨
      (0x800 ≤ cp.toNat ∧ cp.toNat < 0x10000 ∧ length ≠ 3) := by
  simp only [isOverlongSequence, UInt32.lt_iff_toNat_lt, UInt32.reduceToNat]
  split
  · simp; omega
  · split
    · simp; omega
    · split
      · simp; omega
      · simp; omega

/-! ## The byte sequences of a code point -/

/-- `bs` is the byte sequence of the code point `n`: the arithmetic that the
    masks and shifts of the decoder and the encoder perform. -/
inductive IsSequence (n : Nat) : Bytes → Prop where
  | one (b₀ : UInt8) : n = b₀.toNat → n < 0x80 → IsSequence n [b₀]
  | two (b₀ b₁ : UInt8) : 192 ≤ b₀.toNat → b₀.toNat < 224 → isTrail b₁ = true →
      n = b₀.toNat % 32 * 64 + b₁.toNat % 64 → 0x80 ≤ n → IsSequence n [b₀, b₁]
  | three (b₀ b₁ b₂ : UInt8) : 224 ≤ b₀.toNat → b₀.toNat < 240 → isTrail b₁ = true →
      isTrail b₂ = true →
      n = b₀.toNat % 16 * 4096 + b₁.toNat % 64 * 64 + b₂.toNat % 64 → 0x800 ≤ n →
      IsSequence n [b₀, b₁, b₂]
  | four (b₀ b₁ b₂ b₃ : UInt8) : 240 ≤ b₀.toNat → b₀.toNat < 248 → isTrail b₁ = true →
      isTrail b₂ = true → isTrail b₃ = true →
      n = b₀.toNat % 8 * 262144 + b₁.toNat % 64 * 4096 + b₂.toNat % 64 * 64 + b₃.toNat % 64 →
      0x10000 ≤ n → IsSequence n [b₀, b₁, b₂, b₃]

private theorem val_toNat_lt (c : Char) : c.val.toNat < 0x110000 := by
  have := c.valid
  simp only [UInt32.isValidChar, Nat.isValidChar] at this
  omega

/-- The encoding of a character is its byte sequence. -/
theorem isSequence_utf8EncodeChar (c : Char) :
    IsSequence c.val.toNat (String.utf8EncodeChar c) := by
  -- The encoding splits on the same bounds as `IsSequence`; the rest is arithmetic.
  have hv := val_toNat_lt c
  unfold String.utf8EncodeChar
  generalize c.val.toNat = v at hv ⊢
  simp only []
  split
  · exact .one _ (by simp; omega) (by omega)
  · split
    · exact .two _ _ (by simp; omega) (by simp; omega) (by rw [isTrail_iff]; simp; omega)
        (by simp; omega) (by omega)
    · split
      · exact .three _ _ _ (by simp; omega) (by simp; omega) (by rw [isTrail_iff]; simp; omega)
          (by rw [isTrail_iff]; simp; omega) (by simp; omega) (by omega)
      · exact .four _ _ _ _ (by simp; omega) (by simp; omega) (by rw [isTrail_iff]; simp; omega)
          (by rw [isTrail_iff]; simp; omega) (by rw [isTrail_iff]; simp; omega)
          (by simp; omega) (by omega)

/-- A byte sequence of the value of a character is the encoding of the character. -/
theorem IsSequence.eq_utf8EncodeChar {c : Char} {bs : Bytes}
    (h : IsSequence c.val.toNat bs) : bs = String.utf8EncodeChar c := by
  have hv := val_toNat_lt c
  unfold String.utf8EncodeChar
  generalize c.val.toNat = v at hv h ⊢
  simp only []
  cases h with
  | one b₀ hn hlt =>
    rw [if_pos (by omega)]
    simp only [List.cons.injEq, and_true, ← UInt8.toNat_inj, UInt8.toNat_ofNat']
    omega
  | two b₀ b₁ hlo hhi ht hn hge =>
    rw [isTrail_iff] at ht
    rw [if_neg (by omega), if_pos (by omega)]
    simp only [List.cons.injEq, and_true, ← UInt8.toNat_inj, UInt8.toNat_ofNat']
    omega
  | three b₀ b₁ b₂ hlo hhi ht₁ ht₂ hn hge =>
    rw [isTrail_iff] at ht₁ ht₂
    rw [if_neg (by omega), if_neg (by omega), if_pos (by omega)]
    simp only [List.cons.injEq, and_true, ← UInt8.toNat_inj, UInt8.toNat_ofNat']
    omega
  | four b₀ b₁ b₂ b₃ hlo hhi ht₁ ht₂ ht₃ hn hge =>
    rw [isTrail_iff] at ht₁ ht₂ ht₃
    rw [if_neg (by omega), if_neg (by omega), if_neg (by omega)]
    simp only [List.cons.injEq, and_true, ← UInt8.toNat_inj, UInt8.toNat_ofNat']
    omega

/-! ## Decoding -/

private theorem increaseSafely_cons (b b' : UInt8) (r : Bytes) :
    increaseSafely (b :: b' :: r) =
      if isTrail b' then .ok (b' :: r) else .error .incompleteSequence := by
  cases ht : isTrail b' <;> simp [increaseSafely, ht]

private theorem getSequence1_cons (b₀ : UInt8) (r : Bytes) :
    getSequence1 (b₀ :: r) = .ok (octet (b₀ :: r), b₀ :: r) := rfl

private theorem getSequence2_cons (b₀ b₁ : UInt8) (r : Bytes) :
    ∃ v : UInt32, v.toNat = b₀.toNat % 32 * 64 + b₁.toNat % 64 ∧
      getSequence2 (b₀ :: b₁ :: r) =
        if isTrail b₁ then .ok (v, b₁ :: r) else .error .incompleteSequence := by
  refine ⟨((octet (b₀ :: b₁ :: r) <<< 6) &&& 0x7ff) + (octet (b₁ :: r) &&& 0x3f), ?_, ?_⟩
  · rw [UInt32.toNat_add, shiftLeft_and_toNat _ 6 0x7ff 11 (by decide) (by omega) rfl,
      and_3f_toNat, octet_cons_toNat, octet_cons_toNat]
    simp only [UInt32.reduceToNat]
    omega
  · simp only [getSequence2, List.isEmpty_cons, increaseSafely_cons, bind, Except.bind, pure,
      Except.pure, Bool.false_eq_true, ↓reduceIte]
    cases isTrail b₁ <;> rfl

private theorem getSequence3_cons (b₀ b₁ b₂ : UInt8) (r : Bytes) :
    ∃ v : UInt32, v.toNat = b₀.toNat % 16 * 4096 + b₁.toNat % 64 * 64 + b₂.toNat % 64 ∧
      getSequence3 (b₀ :: b₁ :: b₂ :: r) =
        if isTrail b₁ && isTrail b₂ then .ok (v, b₂ :: r) else .error .incompleteSequence := by
  refine ⟨((octet (b₀ :: b₁ :: b₂ :: r) <<< 12) &&& 0xffff) +
    ((octet (b₁ :: b₂ :: r) <<< (6 : UInt32)) &&& 0xfff) + (octet (b₂ :: r) &&& 0x3f), ?_, ?_⟩
  · rw [UInt32.toNat_add, UInt32.toNat_add,
      shiftLeft_and_toNat _ 12 0xffff 16 (by decide) (by omega) rfl,
      shiftLeft_and_toNat _ 6 0xfff 12 (by decide) (by omega) rfl, and_3f_toNat,
      octet_cons_toNat, octet_cons_toNat, octet_cons_toNat]
    simp only [UInt32.reduceToNat]
    omega
  · simp only [getSequence3, List.isEmpty_cons, increaseSafely_cons, bind, Except.bind, pure,
      Except.pure, Bool.false_eq_true, ↓reduceIte]
    cases isTrail b₁ <;> cases ht₂ : isTrail b₂ <;> simp [increaseSafely_cons, ht₂]

private theorem getSequence4_cons (b₀ b₁ b₂ b₃ : UInt8) (r : Bytes) :
    ∃ v : UInt32, v.toNat = b₀.toNat % 8 * 262144 + b₁.toNat % 64 * 4096 + b₂.toNat % 64 * 64
        + b₃.toNat % 64 ∧
      getSequence4 (b₀ :: b₁ :: b₂ :: b₃ :: r) =
        if isTrail b₁ && isTrail b₂ && isTrail b₃ then .ok (v, b₃ :: r)
        else .error .incompleteSequence := by
  refine ⟨((octet (b₀ :: b₁ :: b₂ :: b₃ :: r) <<< 18) &&& 0x1fffff) +
    ((octet (b₁ :: b₂ :: b₃ :: r) <<< (12 : UInt32)) &&& 0x3ffff) +
    ((octet (b₂ :: b₃ :: r) <<< (6 : UInt32)) &&& 0xfff) + (octet (b₃ :: r) &&& 0x3f), ?_, ?_⟩
  · rw [UInt32.toNat_add, UInt32.toNat_add, UInt32.toNat_add,
      shiftLeft_and_toNat _ 18 0x1fffff 21 (by decide) (by omega) rfl,
      shiftLeft_and_toNat _ 12 0x3ffff 18 (by decide) (by omega) rfl,
      shiftLeft_and_toNat _ 6 0xfff 12 (by decide) (by omega) rfl, and_3f_toNat,
      octet_cons_toNat, octet_cons_toNat, octet_cons_toNat, octet_cons_toNat]
    simp only [UInt32.reduceToNat]
    omega
  · simp only [getSequence4, List.isEmpty_cons, increaseSafely_cons, bind, Except.bind, pure,
      Except.pure, Bool.false_eq_true, ↓reduceIte]
    cases isTrail b₁ <;> cases ht₂ : isTrail b₂ <;> cases ht₃ : isTrail b₃ <;>
      simp [increaseSafely_cons, ht₂, ht₃]

/-- The checks of `validate_next` accept the byte sequence of every scalar value. -/
theorem validateNext_sequence {cp : UInt32} {bs : Bytes} (h : IsSequence cp.toNat bs)
    (hv : cp.isValidChar) (rest : Bytes) : validateNext (bs ++ rest) = .ok (cp, rest) := by
  have hvalid := (isCodePointValid_iff cp).mpr hv
  cases h with
  | one b₀ hn hlt =>
    have hlen : sequenceLength b₀ = 1 := by rw [sequenceLength_eq, if_pos (by omega)]
    have hcp : octet (b₀ :: rest) = cp := by
      rw [← UInt32.toNat_inj, octet_cons_toNat, hn]
    have hlong : isOverlongSequence cp 1 = false := by
      rw [Bool.eq_false_iff, ne_eq, isOverlongSequence_iff]; omega
    simp [validateNext, getSequence, hlen, getSequence1_cons, hcp, hvalid, hlong, bind, Except.bind,
      pure, Except.pure]
  | two b₀ b₁ hlo hhi ht hn hge =>
    have hlen : sequenceLength b₀ = 2 := by
      rw [sequenceLength_eq, if_neg (by omega), if_pos (by omega)]
    obtain ⟨v, hval, hget⟩ := getSequence2_cons b₀ b₁ rest
    obtain rfl : v = cp := by rw [← UInt32.toNat_inj, hval, hn]
    have hlong : isOverlongSequence v 2 = false := by
      rw [Bool.eq_false_iff, ne_eq, isOverlongSequence_iff]; omega
    simp [validateNext, getSequence, hlen, hget, ht, hvalid, hlong, bind, Except.bind, pure,
      Except.pure]
  | three b₀ b₁ b₂ hlo hhi ht₁ ht₂ hn hge =>
    have hlen : sequenceLength b₀ = 3 := by
      rw [sequenceLength_eq, if_neg (by omega), if_neg (by omega), if_pos (by omega)]
    obtain ⟨v, hval, hget⟩ := getSequence3_cons b₀ b₁ b₂ rest
    obtain rfl : v = cp := by rw [← UInt32.toNat_inj, hval, hn]
    have hlong : isOverlongSequence v 3 = false := by
      rw [Bool.eq_false_iff, ne_eq, isOverlongSequence_iff]; omega
    simp [validateNext, getSequence, hlen, hget, ht₁, ht₂, hvalid, hlong, bind, Except.bind, pure,
      Except.pure]
  | four b₀ b₁ b₂ b₃ hlo hhi ht₁ ht₂ ht₃ hn hge =>
    have hlen : sequenceLength b₀ = 4 := by
      rw [sequenceLength_eq, if_neg (by omega), if_neg (by omega), if_neg (by omega),
        if_pos (by omega)]
    obtain ⟨v, hval, hget⟩ := getSequence4_cons b₀ b₁ b₂ b₃ rest
    obtain rfl : v = cp := by rw [← UInt32.toNat_inj, hval, hn]
    have hlong : isOverlongSequence v 4 = false := by
      rw [Bool.eq_false_iff, ne_eq, isOverlongSequence_iff]; omega
    simp [validateNext, getSequence, hlen, hget, ht₁, ht₂, ht₃, hvalid, hlong, bind, Except.bind,
      pure, Except.pure]

/-- Octets that pass the switch and the overlong check form a byte sequence. -/
private theorem getSequence_sound {b₀ : UInt8} {r it' : Bytes} {cp : UInt32}
    (h : getSequence (sequenceLength b₀) (b₀ :: r) = .ok (cp, it'))
    (hlong : isOverlongSequence cp (sequenceLength b₀) = false) :
    ∃ bs, b₀ :: r = bs ++ it'.tail ∧ IsSequence cp.toNat bs := by
  rw [Bool.eq_false_iff, ne_eq, isOverlongSequence_iff] at hlong
  -- By the length that the lead octet announces, and then by how many octets there are.
  have hlen := sequenceLength_eq b₀
  split at hlen
  · -- one octet
    rw [hlen] at h
    obtain ⟨rfl, rfl⟩ := Prod.mk.inj (Except.ok.inj h)
    exact ⟨[b₀], rfl, .one b₀ (octet_cons_toNat _ _) (by rw [octet_cons_toNat]; omega)⟩
  · split at hlen
    · -- two octets
      rw [hlen] at h hlong
      match r with
      | [] => exact nomatch h
      | b₁ :: r =>
        obtain ⟨v, hval, hget⟩ := getSequence2_cons b₀ b₁ r
        rw [getSequence, hget] at h
        split at h
        · rename_i ht
          obtain ⟨rfl, rfl⟩ := Prod.mk.inj (Except.ok.inj h)
          exact ⟨[b₀, b₁], rfl, .two b₀ b₁ (by omega) (by omega) ht hval (by omega)⟩
        · exact nomatch h
    · split at hlen
      · -- three octets
        rw [hlen] at h hlong
        match r with
        | [] => exact nomatch h
        | [b₁] =>
          cases ht : isTrail b₁ <;>
            simp [getSequence, getSequence3, increaseSafely, ht, bind, Except.bind] at h
        | b₁ :: b₂ :: r =>
          obtain ⟨v, hval, hget⟩ := getSequence3_cons b₀ b₁ b₂ r
          rw [getSequence, hget] at h
          split at h
          · rename_i ht
            rw [Bool.and_eq_true] at ht
            obtain ⟨rfl, rfl⟩ := Prod.mk.inj (Except.ok.inj h)
            exact ⟨[b₀, b₁, b₂], rfl,
              .three b₀ b₁ b₂ (by omega) (by omega) ht.1 ht.2 hval (by omega)⟩
          · exact nomatch h
      · split at hlen
        · -- four octets
          rw [hlen] at h hlong
          match r with
          | [] => exact nomatch h
          | [b₁] =>
            cases ht : isTrail b₁ <;>
              simp [getSequence, getSequence4, increaseSafely, ht, bind, Except.bind] at h
          | [b₁, b₂] =>
            cases ht₁ : isTrail b₁ <;> cases ht₂ : isTrail b₂ <;>
              simp [getSequence, getSequence4, increaseSafely, ht₁, ht₂, bind, Except.bind] at h
          | b₁ :: b₂ :: b₃ :: r =>
            obtain ⟨v, hval, hget⟩ := getSequence4_cons b₀ b₁ b₂ b₃ r
            rw [getSequence, hget] at h
            split at h
            · rename_i ht
              rw [Bool.and_eq_true, Bool.and_eq_true] at ht
              obtain ⟨rfl, rfl⟩ := Prod.mk.inj (Except.ok.inj h)
              exact ⟨[b₀, b₁, b₂, b₃], rfl,
                .four b₀ b₁ b₂ b₃ (by omega) (by omega) ht.1.1 ht.1.2 ht.2 hval (by omega)⟩
            · exact nomatch h
        · -- not a lead octet
          rw [hlen] at h
          exact nomatch h

/-- Whatever `validate_next` accepts is the byte sequence of a scalar value. -/
theorem validateNext_eq_ok {it rest : Bytes} {cp : UInt32}
    (h : validateNext it = .ok (cp, rest)) :
    cp.isValidChar ∧ ∃ bs, it = bs ++ rest ∧ IsSequence cp.toNat bs := by
  match it with
  | [] => exact nomatch h
  | b₀ :: r =>
    simp only [validateNext, List.isEmpty_cons, List.headD_cons, bind, Except.bind, pure,
      Except.pure, Bool.false_eq_true, ↓reduceIte] at h
    -- `v` has been decoded; what is left are the two security checks.
    split at h
    · exact nomatch h
    · rename_i v hget
      split at h
      · rename_i hvalid
        cases hlong : isOverlongSequence v.1 (sequenceLength b₀) with
        | true => simp [hlong, throw, throwThe, MonadExceptOf.throw] at h
        | false =>
          simp only [hlong, Bool.not_false, ↓reduceIte, Except.ok.injEq, Prod.mk.injEq] at h
          obtain ⟨rfl, rfl⟩ := h
          exact ⟨(isCodePointValid_iff v.1).mp hvalid, getSequence_sound hget hlong⟩
      · exact nomatch h

/-! ## `next` -/

/-- `next` decodes an encoded character. -/
theorem next_encode (c : Char) (rest : Bytes) :
    next (String.utf8EncodeChar c ++ rest) = .ok (c.val, rest) := by
  rw [next, validateNext_sequence (isSequence_utf8EncodeChar c) c.valid]

/-- Whatever `next` decodes is an encoded character. -/
theorem next_eq_ok {it rest : Bytes} {cp : UInt32} (h : next it = .ok (cp, rest)) :
    ∃ c : Char, cp = c.val ∧ it = String.utf8EncodeChar c ++ rest := by
  unfold next at h
  split at h
  · rename_i r hval
    obtain rfl := Except.ok.inj h
    obtain ⟨hv, bs, rfl, hseq⟩ := validateNext_eq_ok hval
    exact ⟨⟨cp, hv⟩, rfl, by rw [hseq.eq_utf8EncodeChar (c := ⟨cp, hv⟩)]⟩
  all_goals exact nomatch h

/-- `next` throws exactly on undecodable bytes. -/
theorem next_error {it : Bytes} : (∃ e, next it = .error e) ↔ Utf8.Undecodable it := by
  constructor
  · rintro ⟨e, he⟩ c r rfl
    rw [next_encode] at he
    exact nomatch he
  · intro h
    cases hn : next it with
    | error e => exact ⟨e, rfl⟩
    | ok p =>
      obtain ⟨c, -, hit⟩ := next_eq_ok hn
      exact absurd hit (h c p.2)

/-- Calls of `next` decode all of the bytes into `cps`. -/
inductive Decodes : Bytes → List UInt32 → Prop where
  | nil : Decodes [] []
  | cons {it rest : Bytes} {cp : UInt32} {cps : List UInt32} (hnext : next it = .ok (cp, rest))
      (h : Decodes rest cps) : Decodes it (cp :: cps)

/-- Well-formed UTF-8 is what `next` decodes up to its end. -/
theorem wellFormed_iff_decodes {bytes : Bytes} :
    Utf8.WellFormed bytes ↔ ∃ cps, Decodes bytes cps := by
  constructor
  · intro h
    obtain ⟨cs, rfl⟩ := h
    induction cs with
    | nil => exact ⟨[], .nil⟩
    | cons c cs ih =>
      obtain ⟨cps, hcps⟩ := ih
      exact ⟨c.val :: cps, .cons (next_encode c _) hcps⟩
  · intro h
    obtain ⟨cps, h⟩ := h
    induction h with
    | nil => exact ⟨[], rfl⟩
    | cons hnext _ ih =>
      obtain ⟨c, -, rfl⟩ := next_eq_ok hnext
      obtain ⟨cs, rfl⟩ := ih
      exact ⟨c :: cs, rfl⟩

/-! ## `append` -/

private theorem or_toUInt8_toNat (x m : UInt32) (i a : Nat) (hm : m.toNat = 2 ^ i * a)
    (hx : x.toNat < 2 ^ i) : (x ||| m).toUInt8.toNat = (x.toNat + m.toNat) % 256 := by
  rw [UInt32.toNat_toUInt8, UInt32.toNat_or, Nat.or_comm, hm, ← Nat.two_pow_add_eq_or_of_lt hx,
    Nat.add_comm]

private theorem shiftRight_toNat (x k : UInt32) (hk : k.toNat < 32) :
    (x >>> k).toNat = x.toNat / 2 ^ k.toNat := by
  rw [UInt32.toNat_shiftRight, Nat.mod_eq_of_lt hk, Nat.shiftRight_eq_div_pow]

/-- A trail octet written by `append`. -/
private theorem trail_toNat (x : UInt32) :
    ((x &&& 0x3f) ||| 0x80).toUInt8.toNat = x.toNat % 64 + 128 := by
  rw [or_toUInt8_toNat _ 0x80 7 1 rfl (by rw [and_3f_toNat]; omega), and_3f_toNat]
  simp only [UInt32.reduceToNat]
  omega

/-- `append` produces the encoding of a character. -/
theorem append_val (c : Char) : append c.val = .ok (String.utf8EncodeChar c) := by
  have hvalid := (isCodePointValid_iff c.val).mpr c.valid
  have hv := val_toNat_lt c
  -- The lead octets of two, three and four octets, as sums.
  have hlead6 : ∀ x : UInt32, x.toNat < 0x800 →
      ((x >>> 6) ||| 0xc0).toUInt8.toNat = x.toNat / 64 + 192 := by
    intro x hx
    rw [or_toUInt8_toNat _ 0xc0 6 3 rfl (by rw [shiftRight_toNat _ _ (by decide)]; simp; omega),
      shiftRight_toNat _ _ (by decide)]
    simp only [UInt32.reduceToNat]
    omega
  have hlead12 : ∀ x : UInt32, x.toNat < 0x10000 →
      ((x >>> 12) ||| 0xe0).toUInt8.toNat = x.toNat / 4096 + 224 := by
    intro x hx
    rw [or_toUInt8_toNat _ 0xe0 5 7 rfl (by rw [shiftRight_toNat _ _ (by decide)]; simp; omega),
      shiftRight_toNat _ _ (by decide)]
    simp only [UInt32.reduceToNat]
    omega
  have hlead18 : ∀ x : UInt32, x.toNat < 0x110000 →
      ((x >>> 18) ||| 0xf0).toUInt8.toNat = x.toNat / 262144 + 240 := by
    intro x hx
    rw [or_toUInt8_toNat _ 0xf0 4 15 rfl (by rw [shiftRight_toNat _ _ (by decide)]; simp; omega),
      shiftRight_toNat _ _ (by decide)]
    simp only [UInt32.reduceToNat]
    omega
  simp only [append, hvalid, Bool.not_true, Bool.false_eq_true, ↓reduceIte,
    UInt32.lt_iff_toNat_lt, UInt32.reduceToNat]
  split
  · refine congrArg Except.ok (IsSequence.eq_utf8EncodeChar (.one _ ?_ (by omega)))
    rw [UInt32.toNat_toUInt8]; omega
  · split
    · have h₀ := hlead6 c.val (by omega)
      have h₁ := trail_toNat c.val
      refine congrArg Except.ok (IsSequence.eq_utf8EncodeChar
        (.two _ _ (by omega) (by omega) ?_ (by omega) (by omega)))
      rw [isTrail_iff]; omega
    · split
      · have h₀ := hlead12 c.val (by omega)
        have h₁ := trail_toNat (c.val >>> 6)
        have h₂ := trail_toNat c.val
        rw [shiftRight_toNat _ _ (by decide)] at h₁
        simp only [UInt32.reduceToNat, Nat.reducePow] at h₁
        refine congrArg Except.ok (IsSequence.eq_utf8EncodeChar
          (.three _ _ _ (by omega) (by omega) ?_ ?_ (by omega) (by omega)))
        · rw [isTrail_iff]; omega
        · rw [isTrail_iff]; omega
      · have h₀ := hlead18 c.val (by omega)
        have h₁ := trail_toNat (c.val >>> 12)
        have h₂ := trail_toNat (c.val >>> 6)
        have h₃ := trail_toNat c.val
        rw [shiftRight_toNat _ _ (by decide)] at h₁ h₂
        simp only [UInt32.reduceToNat, Nat.reducePow] at h₁ h₂
        refine congrArg Except.ok (IsSequence.eq_utf8EncodeChar
          (.four _ _ _ _ (by omega) (by omega) ?_ ?_ ?_ (by omega) (by omega)))
        · rw [isTrail_iff]; omega
        · rw [isTrail_iff]; omega
        · rw [isTrail_iff]; omega

/-- `append` writes nothing but characters. -/
theorem append_eq_ok {cp : UInt32} {octets : Bytes} :
    append cp = .ok octets ↔ ∃ c : Char, cp = c.val ∧ octets = String.utf8EncodeChar c := by
  constructor
  · intro h
    by_cases hvalid : isCodePointValid cp = true
    · have hval := append_val ⟨cp, (isCodePointValid_iff cp).mp hvalid⟩
      exact ⟨_, rfl, Except.ok.inj (h.symm.trans hval)⟩
    · simp [append, hvalid] at h
  · intro h
    obtain ⟨c, rfl, rfl⟩ := h
    exact append_val c

/-! ## `prior` -/

/-- An encoded character is a lead octet followed by trail octets. -/
theorem exists_lead_trail (c : Char) :
    ∃ b ts, String.utf8EncodeChar c = b :: ts ∧ isTrail b = false ∧ ∀ t ∈ ts, isTrail t = true := by
  -- Lead octets are outside the range of trail octets.
  have lead : ∀ b : UInt8, (b.toNat < 128 ∨ 192 ≤ b.toNat) → isTrail b = false := by
    intro b hb
    rw [Bool.eq_false_iff, ne_eq, isTrail_iff]; omega
  have hseq := isSequence_utf8EncodeChar c
  generalize String.utf8EncodeChar c = bs at hseq
  cases hseq with
  | one b₀ hn hlt => exact ⟨b₀, [], rfl, lead b₀ (by omega), by simp⟩
  | two b₀ b₁ hlo hhi ht hn hge => exact ⟨b₀, [b₁], rfl, lead b₀ (by omega), by simp [ht]⟩
  | three b₀ b₁ b₂ hlo hhi ht₁ ht₂ hn hge =>
    exact ⟨b₀, [b₁, b₂], rfl, lead b₀ (by omega), by simp [ht₁, ht₂]⟩
  | four b₀ b₁ b₂ b₃ hlo hhi ht₁ ht₂ ht₃ hn hge =>
    exact ⟨b₀, [b₁, b₂, b₃], rfl, lead b₀ (by omega), by simp [ht₁, ht₂, ht₃]⟩

/-- The backward walk stops at the lead octet. -/
private theorem priorLead_eq (buffer pre ts : Bytes) (b : UInt8) (rest : Bytes)
    (hbuf : buffer = pre ++ b :: ts ++ rest) (hb : isTrail b = false)
    (hts : ∀ t ∈ ts, isTrail t = true) (k : Nat) (hk : k ≤ ts.length) :
    priorLead buffer (pre.length + k) = .ok pre.length := by
  induction k with
  | zero =>
    have hget : buffer.getD pre.length 0 = b := by simp [hbuf]
    cases hp : pre.length with
    | zero => rw [Nat.add_zero, priorLead, ← hp, hget, hb]; rfl
    | succ n => rw [Nat.add_zero, priorLead, ← hp, hget, hb]; rfl
  | succ k ih =>
    -- The octet at `pre.length + k + 1` is a trail octet: the walk goes on.
    have hget : buffer.getD (pre.length + k + 1) 0 = ts[k] := by
      subst hbuf
      rw [List.getD_eq_getElem?_getD, List.append_assoc,
        List.getElem?_append_right (by omega),
        show pre.length + k + 1 - pre.length = k + 1 from by omega]
      simp [List.getElem?_append_left hk, List.getElem?_eq_getElem (show k < ts.length from hk)]
    rw [← Nat.add_assoc, priorLead, hget, hts _ (List.getElem_mem hk)]
    exact ih (by omega)

/-- `prior` steps back over an encoded character. -/
theorem prior_encode (pre : Bytes) (c : Char) (rest : Bytes) :
    prior (pre ++ String.utf8EncodeChar c ++ rest)
        (pre.length + (String.utf8EncodeChar c).length) = .ok (c.val, pre.length) := by
  obtain ⟨b, ts, hc, hb, hts⟩ := exists_lead_trail c
  have hlead : priorLead (pre ++ String.utf8EncodeChar c ++ rest)
      (pre.length + (String.utf8EncodeChar c).length - 1) = .ok pre.length := by
    rw [hc, List.length_cons, show pre.length + (ts.length + 1) - 1 = pre.length + ts.length
      from by omega]
    exact priorLead_eq _ pre ts b rest rfl hb hts ts.length (Nat.le_refl _)
  have hdrop : ((pre ++ String.utf8EncodeChar c ++ rest).take
      (pre.length + (String.utf8EncodeChar c).length)).drop pre.length =
        String.utf8EncodeChar c := by
    rw [← List.length_append, List.take_left, List.drop_left]
  have hpos := Utf8.length_utf8EncodeChar_pos c
  have hnext : next (String.utf8EncodeChar c) = .ok (c.val, []) := by
    simpa using next_encode c []
  simp only [prior, hlead, hdrop, peekNext, hnext, bind, Except.bind, pure, Except.pure]
  rw [if_neg (by omega)]

end CcJson.Utf8Cpp
