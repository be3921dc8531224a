import CcJson.ForStd.Utf16
import CcJson.Native.Utf8Convert
import CcJson.Spec.Utf8CppCorrect

/-!
# Conversions between the encodings

The conversions of the vendored library are loops that read a text in one code and
write it in another. Those from UTF-8 to UTF-16 and to UTF-32 and those back are
inverse to each other, and end normally exactly on well-formed input.

## Key results

- `next_reads`, `readUtf16_reads`: the readers of the two codes, with `_only` for what
  they do not read
- `utf16_inverse`, `utf32_inverse`: the conversions
- `utf16to8_throws_iff`: where the conversion from UTF-16 throws
- `next16_cases`: where reading single code points of UTF-16 goes wrong
-/

namespace CcJson.Utf8Cpp

/-! ## The three codes -/

/-- UTF-8 as a code whose decoders deliver the values of the code points. -/
def utf8Code : Code Char UInt8 UInt32 where
  encode := String.utf8EncodeChar
  value := Char.val
  ne_nil _ := String.utf8EncodeChar_ne_nil

/-- UTF-32: every code point is a word of its own. -/
def utf32Code : Code Char UInt32 UInt32 where
  encode c := [c.val]
  value := Char.val
  ne_nil _ := List.cons_ne_nil _ _

theorem utf32Code_text (cs : List Char) : utf32Code.text cs = cs.map Char.val := by
  induction cs with
  | nil => rfl
  | cons c cs ih => rw [Code.text_cons, ih]; rfl

theorem next_reads : utf8Code.Reads next := next_encode

theorem next_only : utf8Code.Only next := fun h => next_eq_ok h

/-! ## Surrogates as arithmetic -/

theorem isLeadSurrogate_iff (w : UInt16) :
    isLeadSurrogate w.toUInt32 = true ↔ 0xd800 ≤ w.toNat ∧ w.toNat < 0xdc00 := by
  simp [isLeadSurrogate, UInt32.le_iff_toNat_le]
  omega

theorem isTrailSurrogate_iff (w : UInt16) :
    isTrailSurrogate w.toUInt32 = true ↔ 0xdc00 ≤ w.toNat ∧ w.toNat < 0xe000 := by
  simp [isTrailSurrogate, UInt32.le_iff_toNat_le]
  omega

theorem isSurrogate_iff (w : UInt16) :
    isSurrogate w.toUInt32 = true ↔ 0xd800 ≤ w.toNat ∧ w.toNat < 0xe000 := by
  simp [isSurrogate, UInt32.le_iff_toNat_le]
  omega

theorem isLeadSurrogate_eq_false {w : UInt16} (h : ¬ (0xd800 ≤ w.toNat ∧ w.toNat < 0xdc00)) :
    isLeadSurrogate w.toUInt32 = false := by
  rwa [Bool.eq_false_iff, ne_eq, isLeadSurrogate_iff]

theorem isTrailSurrogate_eq_false {w : UInt16} (h : ¬ (0xdc00 ≤ w.toNat ∧ w.toNat < 0xe000)) :
    isTrailSurrogate w.toUInt32 = false := by
  rwa [Bool.eq_false_iff, ne_eq, isTrailSurrogate_iff]

/-- A word that is no surrogate is its code point. -/
theorem word_value {c : Char} {w : UInt16} (h : Utf16.Word c.toNat w) : w.toUInt32 = c.val := by
  rw [← UInt32.toNat_inj, UInt16.toNat_toUInt32]
  exact h.toNat

/-- The sum that the library forms of a pair of surrogates wraps around to its code point. -/
theorem pair_value {c : Char} {w v : UInt16} (h : Utf16.Pair c.toNat w v) :
    (w.toUInt32 <<< 10) + v.toUInt32 + surrogateOffset = c.val := by
  obtain ⟨hw, hv, hc⟩ := h
  rw [← UInt32.toNat_inj, show c.val.toNat = c.toNat from rfl, hc, UInt32.toNat_add,
    UInt32.toNat_add, UInt32.toNat_shiftLeft, UInt16.toNat_toUInt32, UInt16.toNat_toUInt32,
    surrogateOffset]
  simp only [UInt32.reduceToNat, Nat.reduceMod, Nat.shiftLeft_eq, Nat.reducePow]
  omega

/-! ## Reading and writing UTF-16 -/

/-- A word that is no surrogate is read as it is. -/
theorem readUtf16_word {w : UInt16} (h : w.toNat < 0xd800 ∨ 0xe000 ≤ w.toNat) (rest : Words) :
    readUtf16 (w :: rest) = .ok (w.toUInt32, rest) := by
  have hlead := isLeadSurrogate_eq_false (w := w) (by omega)
  have htrail := isTrailSurrogate_eq_false (w := w) (by omega)
  simp only [readUtf16, hlead, htrail, Bool.false_eq_true, ↓reduceIte]

/-- What is read from a lead surrogate on. -/
theorem readUtf16_lead {w : UInt16} (h : 0xd800 ≤ w.toNat ∧ w.toNat < 0xdc00) (rest : Words) :
    readUtf16 (w :: rest) =
      match rest with
      | [] => .error (.invalidUtf16 w)
      | v :: rest =>
        if isTrailSurrogate v.toUInt32 then
          .ok ((w.toUInt32 <<< 10) + v.toUInt32 + surrogateOffset, rest)
        else .error (.invalidUtf16 v) := by
  simp only [readUtf16, (isLeadSurrogate_iff w).mpr h, ↓reduceIte, UInt16.toUInt16_toUInt32]
  cases rest <;> rfl

theorem readUtf16_reads : Utf16.code.Reads readUtf16 := by
  intro c rest
  show readUtf16 (Utf16.encodeChar c ++ rest) = .ok (c.val, rest)
  obtain ⟨w, hc, hw⟩ | ⟨w, v, hc, hpair⟩ := Utf16.cases c
  · rw [hc, List.singleton_append, readUtf16_word (by rw [hw.toNat]; exact hw.noSurrogate),
      word_value hw]
  · rw [hc, List.cons_append, readUtf16_lead hpair.lead]
    simp only [List.singleton_append, (isTrailSurrogate_iff v).mpr hpair.trail, ↓reduceIte,
      pair_value hpair]

/-- In front of an unpaired surrogate nothing is read. -/
theorem readUtf16_unpaired {words : Words} {w : UInt16} (h : Utf16.Unpaired words w) :
    readUtf16 words = .error (.invalidUtf16 w) := by
  cases h with
  | trail htrail rest =>
    have hlead := isLeadSurrogate_eq_false (w := w) (by omega)
    simp only [readUtf16, hlead, (isTrailSurrogate_iff w).mpr htrail, Bool.false_eq_true,
      ↓reduceIte, UInt16.toUInt16_toUInt32]
  | last hlead => rw [readUtf16_lead hlead]
  | lead hlead hv rest =>
    have htrail := isTrailSurrogate_eq_false hv
    rw [readUtf16_lead hlead]
    simp only [htrail, Bool.false_eq_true, ↓reduceIte]

theorem readUtf16_only : Utf16.code.Only readUtf16 := by
  intro units cp rest h
  by_cases hnil : units = []
  · subst hnil
    exact nomatch h
  · obtain ⟨c, rest', rfl⟩ | ⟨w, hw⟩ := Utf16.char_or_unpaired hnil
    · obtain ⟨hvalue, hrest⟩ := Prod.mk.inj (Except.ok.inj ((readUtf16_reads c rest').symm.trans h))
      exact ⟨c, hvalue.symm, by rw [← hrest]; rfl⟩
    · rw [readUtf16_unpaired hw] at h
      exact nomatch h

/-- The words that `utf8to16` writes for a code point. -/
def utf16Words (cp : UInt32) : Words :=
  if cp > 0xffff then
    [((cp >>> 10) + leadOffset).toUInt16, ((cp &&& 0x3ff) + trailSurrogateMin).toUInt16]
  else [cp.toUInt16]

theorem utf16Words_val (c : Char) : utf16Words c.val = Utf16.encodeChar c := by
  have hlt := Utf16.toNat_lt c
  have hnat : c.val.toNat = c.toNat := rfl
  unfold utf16Words
  split
  · rename_i hpair
    rw [gt_iff_lt, UInt32.lt_iff_toNat_lt, hnat] at hpair
    simp only [UInt32.reduceToNat] at hpair
    have hlead : ((c.val >>> 10) + leadOffset).toUInt16.toNat =
        0xd800 + (c.toNat - 0x10000) / 1024 := by
      simp only [UInt32.toNat_toUInt16, UInt32.toNat_add, UInt32.toNat_shiftRight, leadOffset,
        UInt32.reduceToNat, Nat.reduceMod, Nat.shiftRight_eq_div_pow, Nat.reducePow, hnat]
      omega
    have htrail : ((c.val &&& 0x3ff) + trailSurrogateMin).toUInt16.toNat =
        0xdc00 + (c.toNat - 0x10000) % 1024 := by
      have hand : (c.val &&& 0x3ff).toNat = c.toNat % 1024 := by
        rw [UInt32.toNat_and, hnat]
        exact Nat.and_two_pow_sub_one_eq_mod _ 10
      simp only [UInt32.toNat_toUInt16, UInt32.toNat_add, hand, trailSurrogateMin,
        UInt32.reduceToNat, Nat.reducePow]
      omega
    exact (Utf16.encodeChar_of_pair ⟨by omega, by omega, by omega⟩).symm
  · rename_i hbmp
    rw [gt_iff_lt, UInt32.lt_iff_toNat_lt, hnat] at hbmp
    simp only [UInt32.reduceToNat] at hbmp
    have hword : c.val.toUInt16.toNat = c.toNat := by
      rw [UInt32.toNat_toUInt16, hnat]
      omega
    rw [Utf16.encodeChar_of_word ⟨hword, Utf16.toNat_no_surrogate c⟩]

/-! ## The loops -/

theorem utf8to16Body_eq : utf8to16Body =
    Code.body next fun result cp => .ok (result ++ utf16Words cp) := by
  funext ⟨start, result⟩
  unfold utf8to16Body Code.body utf16Words
  dsimp only
  split
  · rfl
  · cases next start with
    | error e => rfl
    | ok out =>
      simp only [Run.ofExcept_ok, Run.returns_bind]
      split <;> rfl

theorem utf8to32Body_eq : utf8to32Body =
    Code.body next fun result cp => .ok (result ++ [cp]) := by
  funext ⟨start, result⟩
  unfold utf8to32Body Code.body
  dsimp only
  split
  · rfl
  · cases next start <;> rfl

theorem utf16to8Body_eq : utf16to8Body =
    Code.body readUtf16 fun result cp =>
      ((append cp).mapError Utf16Exception.ofAppend).map (result ++ ·) := by
  funext ⟨start, result⟩
  unfold utf16to8Body Code.body
  dsimp only
  split
  · rfl
  · cases readUtf16 start with
    | error e => rfl
    | ok out =>
      simp only [Run.ofExcept_ok, Run.returns_bind]
      cases append out.1 <;> rfl

/-- The reading part of `utf32to8`, with the check that `append` makes. -/
def readUtf32 (start : List UInt32) : Except Exception (UInt32 × List UInt32) :=
  match start with
  | [] => .error .notEnoughRoom
  | cp :: start => if isCodePointValid cp then .ok (cp, start) else .error (.invalidCodePoint cp)

theorem utf32to8Body_eq : utf32to8Body =
    Code.body readUtf32 fun result cp => ((append cp).mapError id).map (result ++ ·) := by
  funext ⟨start, result⟩
  cases start with
  | nil => rfl
  | cons cp start =>
    unfold utf32to8Body Code.body readUtf32
    dsimp only [List.isEmpty_cons]
    by_cases hvalid : isCodePointValid cp = true
    · simp only [hvalid, ↓reduceIte, Bool.false_eq_true, Run.ofExcept_ok, Run.returns_bind]
      cases append cp <;> rfl
    · rw [Bool.not_eq_true] at hvalid
      simp only [append, hvalid, Bool.not_false, ↓reduceIte, Bool.false_eq_true]
      rfl

theorem readUtf32_reads : utf32Code.Reads readUtf32 := by
  intro c rest
  show readUtf32 (c.val :: rest) = .ok (c.val, rest)
  rw [readUtf32, if_pos ((isCodePointValid_iff _).mpr c.valid)]

theorem readUtf32_only : utf32Code.Only readUtf32 := by
  intro units cp rest h
  cases units with
  | nil => exact nomatch h
  | cons v units =>
    by_cases hvalid : isCodePointValid v = true
    · simp only [readUtf32, hvalid, ↓reduceIte] at h
      obtain ⟨rfl, rfl⟩ := Prod.mk.inj (Except.ok.inj h)
      exact ⟨⟨v, (isCodePointValid_iff v).mp hvalid⟩, rfl, rfl⟩
    · simp only [readUtf32, hvalid, Bool.false_eq_true, ↓reduceIte, reduceCtorEq] at h

/-! ## The conversions -/

theorem utf16_writes : Utf16.code.Writes (ε := Exception)
    fun result cp => .ok (result ++ utf16Words cp) := by
  intro result c
  show Except.ok (result ++ utf16Words c.val) = _
  rw [utf16Words_val]
  rfl

theorem utf32_writes : utf32Code.Writes (ε := Exception) fun result cp => .ok (result ++ [cp]) :=
  fun _ _ => rfl

/-- `append` writes UTF-8, whatever its exceptions are turned into. -/
theorem utf8_writes {ε : Type} (f : Exception → ε) :
    utf8Code.Writes fun result cp => ((append cp).mapError f).map (result ++ ·) := by
  intro result c
  show ((append c.val).mapError f).map (result ++ ·) = _
  rw [append_val]
  rfl

theorem utf8to16_eq : utf8to16 =
    Code.transcode next fun result cp => .ok (result ++ utf16Words cp) := by
  unfold utf8to16 Code.transcode
  rw [utf8to16Body_eq]

theorem utf16to8_eq : utf16to8 =
    Code.transcode readUtf16 fun result cp =>
      ((append cp).mapError Utf16Exception.ofAppend).map (result ++ ·) := by
  unfold utf16to8 Code.transcode
  rw [utf16to8Body_eq]

theorem utf8to32_eq : utf8to32 =
    Code.transcode next fun result cp => .ok (result ++ [cp]) := by
  unfold utf8to32 Code.transcode
  rw [utf8to32Body_eq]

theorem utf32to8_eq : utf32to8 =
    Code.transcode readUtf32 fun result cp => ((append cp).mapError id).map (result ++ ·) := by
  unfold utf32to8 Code.transcode
  rw [utf32to8Body_eq]

/-- The conversions between UTF-8 and UTF-16 are inverse to each other: each ends normally exactly
    on well-formed input, and writes the code points that it has read. -/
theorem utf16_inverse (octets : Bytes) (words : Words) :
    (utf8to16 octets = .returns words ↔
      ∃ cs, octets = Utf8.encode cs ∧ words = Utf16.encode cs) ∧
    (utf16to8 words = .returns octets ↔
      ∃ cs, octets = Utf8.encode cs ∧ words = Utf16.encode cs) := by
  constructor
  · rw [utf8to16_eq]
    exact Code.transcode_returns_iff next_reads next_only utf16_writes rfl
  · rw [utf16to8_eq, Code.transcode_returns_iff readUtf16_reads readUtf16_only
      (utf8_writes Utf16Exception.ofAppend) rfl]
    exact exists_congr fun cs => and_comm

/-- The conversions between UTF-8 and UTF-32 are inverse to each other as well. -/
theorem utf32_inverse (octets : Bytes) (words : List UInt32) :
    (utf8to32 octets = .returns words ↔
      ∃ cs, octets = Utf8.encode cs ∧ words = cs.map Char.val) ∧
    (utf32to8 words = .returns octets ↔
      ∃ cs, octets = Utf8.encode cs ∧ words = cs.map Char.val) := by
  simp only [← utf32Code_text]
  constructor
  · rw [utf8to32_eq]
    exact Code.transcode_returns_iff next_reads next_only utf32_writes rfl
  · rw [utf32to8_eq, Code.transcode_returns_iff readUtf32_reads readUtf32_only
      (utf8_writes id) rfl]
    exact exists_congr fun cs => and_comm

/-- In front of an unpaired surrogate `utf16to8` throws. -/
theorem utf16to8_unpaired (cs : List Char) {rest : Words} {w : UInt16}
    (h : Utf16.Unpaired rest w) :
    utf16to8 (Utf16.encode cs ++ rest) = .throws (.invalidUtf16 w) := by
  rw [utf16to8_eq]
  refine Code.transcode_stops readUtf16_reads (utf8_writes Utf16Exception.ofAppend) rfl ?_
    (readUtf16_unpaired h)
  cases h <;> simp

/-- On words that are not well-formed `utf16to8` throws an exception of its own, with the word at
    which the first surrogate turns out to have no partner, and on no others. -/
theorem utf16to8_throws_iff (words : Words) (e : Utf16Exception) :
    utf16to8 words = .throws e ↔ ∃ cs rest w, words = Utf16.encode cs ++ rest ∧
      Utf16.Unpaired rest w ∧ e = .invalidUtf16 w := by
  constructor
  · intro h
    obtain ⟨cs, rest, hwords, hstops⟩ := Code.exists_split readUtf16_only words
    by_cases hrest : rest = []
    · rw [hwords, hrest, List.append_nil, utf16to8_eq, Code.transcode_text readUtf16_reads
        (utf8_writes Utf16Exception.ofAppend) rfl] at h
      exact nomatch h
    · obtain ⟨c, rest', rfl⟩ | ⟨w, hw⟩ := Utf16.char_or_unpaired hrest
      · obtain ⟨e', he'⟩ := hstops.resolve_left hrest
        cases (readUtf16_reads c rest').symm.trans he'
      · rw [hwords] at h
        exact ⟨cs, rest, w, hwords, hw,
          Run.throws.inj (h.symm.trans (utf16to8_unpaired cs hw))⟩
  · intro h
    obtain ⟨cs, rest, w, rfl, hw, rfl⟩ := h
    exact utf16to8_unpaired cs hw

/-! ## Single code points of UTF-16 -/

/-- What `append16` writes, and for which code points. -/
theorem append16_eq_ok {cp : UInt32} {words : Words} :
    append16 cp = .ok words ↔ ∃ c : Char, cp = c.val ∧ words = Utf16.encodeChar c := by
  have hwrites : ∀ c : Char, append16 c.val = .ok (Utf16.encodeChar c) := by
    intro c
    have hvalid := (isCodePointValid_iff c.val).mpr c.valid
    have hbmp : isInBmp c.val = true ↔ ¬ c.val > 0xffff := by
      rw [isInBmp, decide_eq_true_eq, gt_iff_lt, UInt32.lt_iff_toNat_lt, UInt32.lt_iff_toNat_lt]
      simp only [UInt32.reduceToNat]
      omega
    rw [← utf16Words_val, append16, utf16Words, hvalid, UInt32.add_comm leadOffset,
      UInt32.add_comm trailSurrogateMin]
    by_cases hlarge : c.val > 0xffff
    · simp [hbmp, hlarge]
    · simp [hbmp, hlarge]
  constructor
  · intro h
    by_cases hvalid : isCodePointValid cp = true
    · have hval := hwrites ⟨cp, (isCodePointValid_iff cp).mp hvalid⟩
      exact ⟨_, rfl, Except.ok.inj (h.symm.trans hval)⟩
    · simp [append16, hvalid] at h
  · intro h
    obtain ⟨c, rfl, rfl⟩ := h
    exact hwrites c

/-- A code point is read by `next16` as by `utf16to8`. -/
theorem next16_encode (c : Char) (rest : Words) :
    next16 (Utf16.encodeChar c ++ rest) = .ok (c.val, rest) := by
  have hvalidate : validateNext16 (Utf16.encodeChar c ++ rest) = .ok (c.val, rest) := by
    obtain ⟨w, hc, hw⟩ | ⟨w, v, hc, hpair⟩ := Utf16.cases c
    · have hno : isSurrogate c.val = false := by
        have := hw.noSurrogate
        rw [Bool.eq_false_iff, ne_eq, ← word_value hw, isSurrogate_iff, hw.toNat]
        omega
      rw [hc, List.singleton_append]
      simp only [validateNext16, word_value hw, hno, Bool.not_false, ↓reduceIte]
    · have hlead := hpair.lead
      have hsurrogate : isSurrogate w.toUInt32 = true := by
        rw [isSurrogate_iff]
        omega
      rw [hc, List.cons_append, List.singleton_append]
      simp only [validateNext16, hsurrogate, Bool.not_true, Bool.false_eq_true, ↓reduceIte,
        (isLeadSurrogate_iff w).mpr hlead, (isTrailSurrogate_iff v).mpr hpair.trail,
        pair_value hpair]
  rw [next16, hvalidate]

/-- In front of an unpaired surrogate `next16` throws only when it is the last word. -/
theorem next16_unpaired {words : Words} {w : UInt16} (h : Utf16.Unpaired words w) :
    next16 words = if words.length = 1 then .error .notEnoughRoom else .ok (0, words) := by
  have hsurrogate : ∀ w : UInt16, 0xd800 ≤ w.toNat → w.toNat < 0xe000 →
      isSurrogate w.toUInt32 = true := fun w hge hlt => (isSurrogate_iff w).mpr ⟨hge, hlt⟩
  cases h with
  | trail htrail rest =>
    have hlead := isLeadSurrogate_eq_false (w := w) (by omega)
    cases rest with
    | nil => simp [next16, validateNext16, hsurrogate w (by omega) (by omega)]
    | cons v rest => simp [next16, validateNext16, hsurrogate w (by omega) (by omega), hlead]
  | last hlead => simp [next16, validateNext16, hsurrogate w (by omega) (by omega)]
  | @lead u v hlead hv rest =>
    have htrail := isTrailSurrogate_eq_false hv
    simp [next16, validateNext16, hsurrogate u (by omega) (by omega),
      (isLeadSurrogate_iff u).mpr hlead, htrail]

/-- `next16` reads back what `append16` writes. Unlike `utf16to8` it does not report a surrogate
    without its partner when a word comes after it: it returns 0 without moving, so that a loop
    over it does not end. -/
theorem next16_cases (words : Words) :
    (∃ cp written rest, append16 cp = .ok written ∧ words = written ++ rest ∧
      next16 words = .ok (cp, rest)) ∨
    (words = [] ∨ words.length = 1 ∧ ∃ w, Utf16.Unpaired words w) ∧
      next16 words = .error .notEnoughRoom ∨
    (2 ≤ words.length ∧ ∃ w, Utf16.Unpaired words w) ∧ next16 words = .ok (0, words) := by
  by_cases hnil : words = []
  · subst hnil
    exact .inr (.inl ⟨.inl rfl, rfl⟩)
  · obtain ⟨c, rest, rfl⟩ | ⟨w, hw⟩ := Utf16.char_or_unpaired hnil
    · exact .inl ⟨_, _, rest, append16_eq_ok.mpr ⟨c, rfl, rfl⟩, rfl, next16_encode c rest⟩
    · have hpos := List.length_pos_of_ne_nil hnil
      have hnext := next16_unpaired hw
      split at hnext
      · rename_i hone
        exact .inr (.inl ⟨.inr ⟨hone, w, hw⟩, hnext⟩)
      · exact .inr (.inr ⟨⟨by omega, w, hw⟩, hnext⟩)

end CcJson.Utf8Cpp
