import Mathlib.Data.List.Basic

/-!
# UTF-8 encodings of lists of code points

`Utf8.encode` concatenates the encodings `String.utf8EncodeChar` of a list of
Unicode scalar values. The encodings of two characters are prefix-free, so a byte
string has exactly one decomposition into encoded characters and a tail that
starts with no encoded character (`encode_append_unique`).
-/

namespace Utf8

/-- The UTF-8 encoding of a list of code points. -/
def encode (cs : List Char) : List UInt8 := cs.flatMap String.utf8EncodeChar

@[simp] theorem encode_nil : encode [] = [] := rfl

@[simp] theorem encode_cons (c : Char) (cs : List Char) :
    encode (c :: cs) = String.utf8EncodeChar c ++ encode cs := rfl

@[simp] theorem encode_append (cs ds : List Char) :
    encode (cs ++ ds) = encode cs ++ encode ds := List.flatMap_append

theorem encode_singleton (c : Char) : encode [c] = String.utf8EncodeChar c := by simp

/-- Encoded characters are prefix-free: the bytes determine the first character. -/
theorem utf8EncodeChar_append_inj {c d : Char} {r r' : List UInt8}
    (h : String.utf8EncodeChar c ++ r = String.utf8EncodeChar d ++ r') : c = d ∧ r = r' := by
  -- Decode the first character of both sides.
  have hdec := congrArg (fun l => ByteArray.utf8DecodeChar? l.toByteArray 0) h
  simp only [List.toByteArray_append, ByteArray.utf8DecodeChar?_utf8EncodeChar_append,
    Option.some.injEq] at hdec
  subst hdec
  exact ⟨rfl, List.append_cancel_left h⟩

/-- No encoded character is a prefix of `bytes`. -/
def Undecodable (bytes : List UInt8) : Prop :=
  ∀ c r, bytes ≠ String.utf8EncodeChar c ++ r

theorem undecodable_nil : Undecodable [] := by
  intro c r h
  exact String.utf8EncodeChar_ne_nil (List.append_eq_nil_iff.mp h.symm).1

/-- A text of characters with the property `p` ends where no such character begins. -/
theorem encode_append_inj {p : Char → Prop} {cs ds : List Char} {t u : List UInt8}
    (hcs : ∀ c ∈ cs, p c) (hds : ∀ d ∈ ds, p d)
    (ht : ∀ c r, p c → t ≠ String.utf8EncodeChar c ++ r)
    (hu : ∀ c r, p c → u ≠ String.utf8EncodeChar c ++ r)
    (h : encode cs ++ t = encode ds ++ u) : cs = ds ∧ t = u := by
  induction cs generalizing ds with
  | nil =>
    cases ds with
    | nil => exact ⟨rfl, h⟩
    | cons d ds => exact absurd (by simpa using h) (ht d (encode ds ++ u) (hds d (by simp)))
  | cons c cs ih =>
    cases ds with
    | nil => exact absurd (by simpa using h.symm) (hu c (encode cs ++ t) (hcs c (by simp)))
    | cons d ds =>
      rw [encode_cons, encode_cons, List.append_assoc, List.append_assoc] at h
      obtain ⟨rfl, hrest⟩ := utf8EncodeChar_append_inj h
      obtain ⟨rfl, htu⟩ := ih (fun c hc => hcs c (by simp [hc])) (fun d hd => hds d (by simp [hd]))
        hrest
      exact ⟨rfl, htu⟩

/-- A byte string splits in one way only into encoded characters and an undecodable tail. -/
theorem encode_append_unique {cs ds : List Char} {t u : List UInt8}
    (ht : Undecodable t) (hu : Undecodable u)
    (h : encode cs ++ t = encode ds ++ u) : cs = ds ∧ t = u :=
  @encode_append_inj (fun _ => True) cs ds t u (fun _ _ => trivial) (fun _ _ => trivial)
    (fun c r _ => ht c r) (fun c r _ => hu c r) h

/-- `encode` is injective. -/
theorem encode_injective {cs ds : List Char} (h : encode cs = encode ds) : cs = ds :=
  (encode_append_unique undecodable_nil undecodable_nil (by simpa using h)).1

@[simp] theorem encode_inj {cs ds : List Char} : encode cs = encode ds ↔ cs = ds :=
  ⟨encode_injective, congrArg encode⟩

@[simp] theorem encode_eq_nil {cs : List Char} : encode cs = [] ↔ cs = [] := by
  rw [← encode_nil, encode_inj]

/-- The decodable part of a byte string is its longest prefix of encoded characters. -/
theorem prefix_of_encode_prefix {cs ds : List Char} {t : List UInt8}
    (ht : Undecodable t) (h : encode ds <+: encode cs ++ t) : ds <+: cs := by
  induction ds generalizing cs with
  | nil => exact List.nil_prefix
  | cons d ds ih =>
    obtain ⟨r, hr⟩ := h
    simp only [encode_cons, List.append_assoc] at hr
    cases cs with
    | nil => exact absurd (by simpa using hr.symm) (ht d (encode ds ++ r))
    | cons c cs =>
      simp only [encode_cons, List.append_assoc] at hr
      obtain ⟨rfl, hr'⟩ := utf8EncodeChar_append_inj hr
      exact (List.prefix_cons_inj d).mpr (ih ⟨r, hr'⟩)

/-- Prefixes of encoded lists that are themselves encoded lists come from prefixes. -/
theorem encode_prefix_encode {cs ds : List Char} :
    encode ds <+: encode cs ↔ ds <+: cs := by
  constructor
  · intro h
    exact prefix_of_encode_prefix undecodable_nil (by simpa using h)
  · intro h
    obtain ⟨es, rfl⟩ := h
    rw [encode_append]
    exact List.prefix_append _ _

theorem length_utf8EncodeChar_pos (c : Char) : 0 < (String.utf8EncodeChar c).length :=
  List.length_pos_of_ne_nil String.utf8EncodeChar_ne_nil

/-- Every code point takes at least one byte. -/
theorem length_le_length_encode (cs : List Char) : cs.length ≤ (encode cs).length := by
  induction cs with
  | nil => simp
  | cons c cs ih =>
    have := length_utf8EncodeChar_pos c
    simp only [encode_cons, List.length_append, List.length_cons]
    omega

/-- Well-formed UTF-8: the encoding of some list of code points. -/
def WellFormed (bytes : List UInt8) : Prop := ∃ cs, bytes = encode cs

/-- Every byte string splits into encoded characters and an undecodable tail. -/
theorem exists_decomposition (bytes : List UInt8) :
    ∃ cs t, bytes = encode cs ++ t ∧ Undecodable t := by
  by_cases hb : Undecodable bytes
  · exact ⟨[], bytes, rfl, hb⟩
  · simp only [Undecodable, not_forall, not_not] at hb
    obtain ⟨c, r, hr⟩ := hb
    -- An encoded character is not empty, so what follows it is shorter.
    have hlt : r.length < bytes.length := by
      have := length_utf8EncodeChar_pos c
      rw [hr, List.length_append]; omega
    obtain ⟨cs, t, rfl, ht⟩ := exists_decomposition r
    exact ⟨c :: cs, t, by simp [hr], ht⟩
termination_by bytes.length

/-- A byte string is well formed iff its undecodable tail is empty. -/
theorem wellFormed_encode_append_iff {cs : List Char} {t : List UInt8} (ht : Undecodable t) :
    WellFormed (encode cs ++ t) ↔ t = [] := by
  constructor
  · intro h
    obtain ⟨ds, hds⟩ := h
    exact (encode_append_unique ht undecodable_nil (by simpa using hds)).2
  · rintro rfl
    exact ⟨cs, by simp⟩

end Utf8
