import CcJson.Native.Utf8Convert
import CcJson.Spec.Utf8CppCorrect
import Mathlib.Data.List.TakeWhile

/-!
# Finding and replacing malformed sequences

`find_invalid` stops behind the longest well-formed beginning of a text.
`replace_invalid` makes any text well-formed, and does to each stretch between
well-formed text what it would do to it alone.

## Key results

- `findInvalid_spec`: what `find_invalid`, its overload for strings and `is_valid` return
- `Repaired`: the text that `replace_invalid` writes
- `replaceInvalid_local`: well-formed text is kept, and separates what is around it
- `replaceInvalid_spec`: its results and exceptions
-/

namespace CcJson.Utf8Cpp

/-! ## The errors of `validate_next` -/

theorem validateNext_encode (c : Char) (rest : Bytes) :
    validateNext (String.utf8EncodeChar c ++ rest) = .ok (c.val, rest) :=
  validateNext_sequence (isSequence_utf8EncodeChar c) c.valid rest

theorem exists_validateNext_error {it : Bytes} (h : Utf8.Undecodable it) :
    ∃ e, validateNext it = .error e := by
  cases hvalidate : validateNext it with
  | error e => exact ⟨e, rfl⟩
  | ok out =>
    obtain ⟨hvalid, bs, hit, hseq⟩ := validateNext_eq_ok hvalidate
    rw [hseq.eq_utf8EncodeChar (c := ⟨out.1, hvalid⟩)] at hit
    exact absurd hit (h _ _)

/-- An error that is found in the octets after the lead octet: when they run out, all of them are
    trail octets. -/
def FoundIn (rest : Bytes) (e : UtfError) : Prop :=
  e ≠ .invalidLead ∧ (e = .notEnoughRoom → ∀ oc ∈ rest, isTrail oc = true)

/-- An error is found in the next octet or behind it. -/
theorem foundIn_of_increase {α : Type} {b : UInt8} {rest : Bytes} {f : Bytes → Except UtfError α}
    {e : UtfError} (h : (increaseSafely (b :: rest) >>= f) = .error e)
    (hf : ∀ oc r, rest = oc :: r → f (oc :: r) = .error e → FoundIn r e) : FoundIn rest e := by
  cases rest with
  | nil =>
    obtain rfl := Except.error.inj h
    exact ⟨by simp, by simp⟩
  | cons oc r =>
    cases htrail : isTrail oc with
    | false =>
      simp only [increaseSafely, List.tail_cons, htrail, Bool.not_false, ↓reduceIte] at h
      obtain rfl := Except.error.inj h
      exact ⟨by simp, by simp⟩
    | true =>
      simp only [increaseSafely, List.tail_cons, htrail, Bool.not_true, Bool.false_eq_true,
        ↓reduceIte] at h
      obtain ⟨hlead, htrails⟩ := hf oc r rfl h
      refine ⟨hlead, fun he => ?_⟩
      simpa [htrail] using htrails he

theorem getSequence_error {b : UInt8} {rest : Bytes} {n : Nat} {e : UtfError}
    (h : getSequence n (b :: rest) = .error e) (hn : n ≠ 0) (hn' : n ≤ 4) : FoundIn rest e := by
  match n, hn, hn' with
  | 1, _, _ => exact nomatch h
  | 2, _, _ => exact foundIn_of_increase h fun _ _ _ h => nomatch h
  | 3, _, _ =>
    refine foundIn_of_increase h fun _ _ _ h => ?_
    exact foundIn_of_increase h fun _ _ _ h => nomatch h
  | 4, _, _ =>
    refine foundIn_of_increase h fun _ _ _ h => ?_
    refine foundIn_of_increase h fun _ _ _ h => ?_
    exact foundIn_of_increase h fun _ _ _ h => nomatch h

theorem sequenceLength_le (b : UInt8) : sequenceLength b ≤ 4 := by
  unfold sequenceLength
  split
  · decide
  · split
    · decide
    · split
      · decide
      · split <;> decide

/-- The errors of `validate_next`. -/
theorem validateNext_error {b : UInt8} {rest : Bytes} {e : UtfError}
    (h : validateNext (b :: rest) = .error e) :
    sequenceLength b = 0 ∧ e = .invalidLead ∨ sequenceLength b ≠ 0 ∧ FoundIn rest e := by
  simp only [validateNext, List.isEmpty_cons, List.headD_cons, bind, Except.bind, pure,
    Except.pure, Bool.false_eq_true, ↓reduceIte] at h
  by_cases hlen : sequenceLength b = 0
  · have hget : getSequence (sequenceLength b) (b :: rest) = .error .invalidLead := by
      rw [hlen]
      rfl
    rw [hget] at h
    exact .inl ⟨hlen, (Except.error.inj h).symm⟩
  · refine .inr ⟨hlen, ?_⟩
    cases hget : getSequence (sequenceLength b) (b :: rest) with
    | error e' =>
      rw [hget] at h
      obtain rfl := Except.error.inj h
      exact getSequence_error hget hlen (sequenceLength_le b)
    | ok out =>
      -- the octets make a value, which the security checks have refused
      rw [hget] at h
      dsimp only at h
      split at h
      · cases hlong : isOverlongSequence out.1 (sequenceLength b) with
        | false => simp [hlong] at h
        | true =>
          obtain rfl : UtfError.overlongSequence = e := by
            simpa [hlong, throw, throwThe, MonadExceptOf.throw] using h
          exact ⟨by simp, by simp⟩
      · obtain rfl := Except.error.inj h
        exact ⟨by simp, by simp⟩

/-! ## `find_invalid` -/

/-- The loop of `find_invalid` goes over well-formed text, and no further. -/
theorem loop_findInvalid (cs : List Char) {rest : Bytes} (h : Utf8.Undecodable rest) {fuel : Nat}
    (hfuel : cs.length < fuel) :
    Run.loop findInvalidBody fuel (Utf8.encode cs ++ rest) = .returns rest := by
  induction cs generalizing fuel with
  | nil =>
    obtain ⟨n, rfl⟩ : ∃ n, fuel = n + 1 := ⟨fuel - 1, by simp at hfuel; omega⟩
    apply Run.loop_done
    obtain ⟨e, he⟩ := exists_validateNext_error h
    by_cases hrest : rest.isEmpty = true
    · simp [findInvalidBody, hrest]
    · simp [findInvalidBody, hrest, he]
  | cons c cs ih =>
    obtain ⟨n, rfl⟩ : ∃ n, fuel = n + 1 := ⟨fuel - 1, by simp at hfuel; omega⟩
    have hbody : findInvalidBody (Utf8.encode (c :: cs) ++ rest) =
        .returns (.yield (Utf8.encode cs ++ rest)) := by
      have hne : (String.utf8EncodeChar c ++ (Utf8.encode cs ++ rest)).isEmpty = false := by simp
      rw [Utf8.encode_cons, List.append_assoc, findInvalidBody, hne, validateNext_encode]
      rfl
    rw [Run.loop_yield n hbody]
    exact ih (by simpa using hfuel)

theorem findInvalid_eq (cs : List Char) {rest : Bytes} (h : Utf8.Undecodable rest) :
    findInvalid (Utf8.encode cs ++ rest) = .returns rest := by
  have hle := Utf8.length_le_length_encode cs
  exact loop_findInvalid cs h (by rw [List.length_append]; omega)

/-- `find_invalid` splits a text into its longest well-formed beginning and a rest. The overload
    for strings returns the offset of the rest if there is one, and `is_valid` tells whether the
    whole text is well-formed. -/
theorem findInvalid_spec (start : Bytes) : ∃ valid rest, start = valid ++ rest ∧
    Utf8.WellFormed valid ∧ (∀ pre, pre <+: start → Utf8.WellFormed pre → pre <+: valid) ∧
    findInvalid start = .returns rest ∧
    findInvalidOffset start = .returns (if rest = [] then none else some valid.length) ∧
    ∃ b, isValid start = .returns b ∧ (b = true ↔ Utf8.WellFormed start) := by
  obtain ⟨cs, rest, rfl, hrest⟩ := Utf8.exists_decomposition start
  refine ⟨Utf8.encode cs, rest, rfl, ⟨cs, rfl⟩, ?_, findInvalid_eq cs hrest, ?_, ?_⟩
  · rintro pre hpre ⟨ds, rfl⟩
    exact Utf8.encode_prefix_encode.mpr (Utf8.prefix_of_encode_prefix hrest hpre)
  · rw [findInvalidOffset, findInvalid_eq cs hrest]
    simp
  · refine ⟨rest.isEmpty, by rw [isValid, findInvalid_eq cs hrest]; rfl, ?_⟩
    rw [Utf8.wellFormed_encode_append_iff hrest, List.isEmpty_iff]

/-! ## `replace_invalid` -/

/-- What is left behind a malformed sequence with the lead octet `b`: the trail octets after it
    are dropped, unless `b` is no lead octet. -/
def resync (b : UInt8) (rest : Bytes) : Bytes :=
  if sequenceLength b = 0 then rest else rest.dropWhile isTrail

/-- The text that is written with the replacement `c`. -/
inductive Repaired (c : Char) : Bytes → List Char → Prop where
  | nil : Repaired c [] []
  | char (d : Char) {rest : Bytes} {cs : List Char} (h : Repaired c rest cs) :
      Repaired c (String.utf8EncodeChar d ++ rest) (d :: cs)
  | mark {b : UInt8} {rest : Bytes} {cs : List Char} (hbad : Utf8.Undecodable (b :: rest))
      (h : Repaired c (resync b rest) cs) : Repaired c (b :: rest) (c :: cs)

theorem length_resync_le (b : UInt8) (rest : Bytes) : (resync b rest).length ≤ rest.length := by
  unfold resync
  split
  · exact Nat.le_refl _
  · exact (List.dropWhile_suffix _).length_le

/-- Every text has a repaired one. The induction is on the number of octets. -/
theorem exists_repaired (c : Char) (start : Bytes) : ∃ cs, Repaired c start cs := by
  by_cases hbad : Utf8.Undecodable start
  · cases start with
    | nil => exact ⟨[], .nil⟩
    | cons b rest =>
      have hlt := length_resync_le b rest
      obtain ⟨cs, hcs⟩ := exists_repaired c (resync b rest)
      exact ⟨c :: cs, .mark hbad hcs⟩
  · simp only [Utf8.Undecodable, not_forall, not_not] at hbad
    obtain ⟨d, rest, hrest⟩ := hbad
    have hpos := Utf8.length_utf8EncodeChar_pos d
    have hlt : rest.length < start.length := by
      rw [hrest, List.length_append]
      omega
    obtain ⟨cs, hcs⟩ := exists_repaired c rest
    exact ⟨d :: cs, by rw [hrest]; exact .char d hcs⟩
termination_by start.length
decreasing_by
  · simp only [List.length_cons]
    omega
  · exact hlt

theorem Repaired.length_le {c : Char} {start : Bytes} {cs : List Char} (h : Repaired c start cs) :
    cs.length ≤ start.length := by
  induction h with
  | nil => exact Nat.le_refl _
  | char d _ ih =>
    have hpos := Utf8.length_utf8EncodeChar_pos d
    rw [List.length_append, List.length_cons]
    omega
  | @mark b rest _ _ _ ih =>
    have hle := length_resync_le b rest
    rw [List.length_cons, List.length_cons]
    omega

theorem Repaired.encode_append {c : Char} {rest : Bytes} {ds : List Char}
    (h : Repaired c rest ds) (cs : List Char) :
    Repaired c (Utf8.encode cs ++ rest) (cs ++ ds) := by
  induction cs with
  | nil => exact h
  | cons d cs ih =>
    rw [Utf8.encode_cons, List.append_assoc]
    exact .char d ih

/-- One iteration over an encoded character. -/
theorem replaceInvalidBody_encode (replacement : UInt32) (c : Char) (rest out : Bytes) :
    replaceInvalidBody replacement (String.utf8EncodeChar c ++ rest, out) =
      .returns (.yield (rest, out ++ String.utf8EncodeChar c)) := by
  have hne : (String.utf8EncodeChar c ++ rest).isEmpty = false := by simp
  simp only [replaceInvalidBody, hne, Bool.false_eq_true, ↓reduceIte, validateNext_encode,
    List.length_append, Nat.add_sub_cancel, List.take_left, Run.pure_eq]

/-- One iteration in front of a malformed sequence. -/
theorem replaceInvalidBody_malformed {b : UInt8} {rest : Bytes} (h : Utf8.Undecodable (b :: rest))
    (replacement : UInt32) (out : Bytes) :
    replaceInvalidBody replacement (b :: rest, out) = (do
      let mark ← Run.ofExcept (append replacement)
      return .yield (resync b rest, out ++ mark)) := by
  obtain ⟨e, he⟩ := exists_validateNext_error h
  simp only [replaceInvalidBody, List.isEmpty_cons, Bool.false_eq_true, ↓reduceIte, he]
  obtain ⟨hlen, rfl⟩ | ⟨hlen, hlead, htrails⟩ := validateNext_error he
  · simp only [resync, hlen, ↓reduceIte, List.tail_cons]
  · simp only [resync, hlen, ↓reduceIte]
    cases e with
    | invalidLead => exact absurd rfl hlead
    | notEnoughRoom =>
      rw [show rest.dropWhile isTrail = [] from List.dropWhile_eq_nil_iff.mpr (htrails rfl)]
    | incompleteSequence | overlongSequence | invalidCodePoint => rfl

/-- The loop goes over well-formed text and copies it. -/
theorem loop_replaceInvalid (r : UInt32) (cs : List Char) (rest out : Bytes) (fuel : Nat) :
    Run.loop (replaceInvalidBody r) (cs.length + fuel) (Utf8.encode cs ++ rest, out) =
      Run.loop (replaceInvalidBody r) fuel (rest, out ++ Utf8.encode cs) := by
  induction cs generalizing out with
  | nil => simp
  | cons c cs ih =>
    rw [List.length_cons, Nat.add_right_comm, Utf8.encode_cons, List.append_assoc,
      Run.loop_yield _ (replaceInvalidBody_encode r c _ out), ih, List.append_assoc]

theorem Repaired.loop {c : Char} {start : Bytes} {cs : List Char} (h : Repaired c start cs)
    (out : Bytes) {fuel : Nat} (hfuel : cs.length < fuel) :
    Run.loop (replaceInvalidBody c.val) fuel (start, out) =
      .returns ([], out ++ Utf8.encode cs) := by
  induction h generalizing out fuel with
  | nil =>
    obtain ⟨n, rfl⟩ : ∃ n, fuel = n + 1 := ⟨fuel - 1, by simp at hfuel; omega⟩
    rw [Run.loop_done n rfl, Utf8.encode_nil, List.append_nil]
  | char d _ ih =>
    obtain ⟨n, rfl⟩ : ∃ n, fuel = n + 1 := ⟨fuel - 1, by simp at hfuel; omega⟩
    rw [Run.loop_yield n (replaceInvalidBody_encode _ d _ _), ih _ (by simpa using hfuel),
      Utf8.encode_cons, List.append_assoc]
  | mark hbad _ ih =>
    obtain ⟨n, rfl⟩ : ∃ n, fuel = n + 1 := ⟨fuel - 1, by simp at hfuel; omega⟩
    have hbody := replaceInvalidBody_malformed hbad c.val out
    rw [append_val, Run.ofExcept_ok, Run.returns_bind] at hbody
    rw [Run.loop_yield n hbody, ih _ (by simpa using hfuel), Utf8.encode_cons, List.append_assoc]

/-- `replace_invalid` writes the repaired text. -/
theorem Repaired.replaceInvalid {c : Char} {start : Bytes} {cs : List Char}
    (h : Repaired c start cs) :
    Utf8Cpp.replaceInvalid start c.val = .returns (Utf8.encode cs) := by
  have hle := h.length_le
  rw [Utf8Cpp.replaceInvalid, h.loop [] (by omega)]
  rfl

/-- Without an argument for the replacement it never throws. -/
theorem replaceInvalidMarker_returns (start : Bytes) :
    ∃ cs, Repaired '\uFFFD' start cs ∧ replaceInvalidMarker start = .returns (Utf8.encode cs) := by
  obtain ⟨cs, hcs⟩ := exists_repaired '\uFFFD' start
  exact ⟨cs, hcs, hcs.replaceInvalid⟩

/-- `replace_invalid` from behind well-formed text on. -/
theorem replaceInvalid_eq (cs : List Char) (rest : Bytes) (r : UInt32) : ∃ fuel,
    replaceInvalid (Utf8.encode cs ++ rest) r = (do
      let (_, out) ← Run.loop (replaceInvalidBody r) (fuel + 1) (rest, Utf8.encode cs)
      return out) := by
  have hle := Utf8.length_le_length_encode cs
  refine ⟨(Utf8.encode cs ++ rest).length - cs.length, ?_⟩
  have hfuel : (Utf8.encode cs ++ rest).length + 1 =
      cs.length + ((Utf8.encode cs ++ rest).length - cs.length + 1) := by
    rw [List.length_append]
    omega
  rw [replaceInvalid, hfuel, loop_replaceInvalid, List.nil_append]

/-- On well-formed text the replacement is not used. -/
theorem replaceInvalid_encode (cs : List Char) (r : UInt32) :
    replaceInvalid (Utf8.encode cs) r = .returns (Utf8.encode cs) := by
  obtain ⟨fuel, h⟩ := replaceInvalid_eq cs [] r
  rw [List.append_nil] at h
  rw [h, Run.loop_done fuel rfl]
  rfl

/-- On malformed text `append` rejects a replacement that is no code point. -/
theorem replaceInvalid_malformed {start : Bytes} (h : ¬ Utf8.WellFormed start) {r : UInt32}
    (hr : isCodePointValid r = false) :
    replaceInvalid start r = .throws (.invalidCodePoint r) := by
  obtain ⟨cs, rest, rfl, hrest⟩ := Utf8.exists_decomposition start
  obtain ⟨fuel, heq⟩ := replaceInvalid_eq cs rest r
  cases rest with
  | nil => exact absurd ⟨cs, List.append_nil _⟩ h
  | cons b rest =>
    have hbody := replaceInvalidBody_malformed hrest r (Utf8.encode cs)
    rw [show append r = .error (.invalidCodePoint r) by simp [append, hr]] at hbody
    rw [heq, Run.loop_throws fuel hbody]
    rfl

/-! ### Around well-formed text -/

/-- The text does not begin with a trail octet. -/
def NoTrail (x : Bytes) : Prop := ∀ oc, x.head? = some oc → isTrail oc = false

theorem noTrail_encode {cs : List Char} (h : cs ≠ []) (rest : Bytes) :
    NoTrail (Utf8.encode cs ++ rest) := by
  obtain ⟨c, cs, rfl⟩ := List.exists_cons_of_ne_nil h
  obtain ⟨b, ts, hc, hb, -⟩ := exists_lead_trail c
  intro oc hoc
  rw [Utf8.encode_cons, hc] at hoc
  obtain rfl : b = oc := by simpa using hoc
  exact hb

/-- Text that does not begin with a trail octet does not complete a malformed sequence. -/
theorem undecodable_append {t x : Bytes} (ht : Utf8.Undecodable t) (hne : t ≠ [])
    (hx : NoTrail x) : Utf8.Undecodable (t ++ x) := by
  intro c r heq
  obtain ⟨u, hu, hr⟩ | ⟨u, hu, hr⟩ := List.append_eq_append_iff.mp heq
  · -- the sequence of `c` begins in `t` and goes on in `x`
    obtain ⟨b, ts, hc, -, hts⟩ := exists_lead_trail c
    cases u with
    | nil =>
      rw [List.append_nil] at hu
      exact ht c [] (by rw [hu, List.append_nil])
    | cons oc u =>
      have htrail : isTrail oc = true := by
        obtain ⟨b', t, rfl⟩ := List.exists_cons_of_ne_nil hne
        rw [hc, List.cons_append] at hu
        exact hts oc (by rw [(List.cons.inj hu).2]; simp)
      have hno := hx oc (by rw [hr]; rfl)
      rw [htrail] at hno
      exact nomatch hno
  · exact ht c u hu

theorem resync_append (b : UInt8) (rest : Bytes) {x : Bytes} (hx : NoTrail x) :
    resync b (rest ++ x) = resync b rest ++ x := by
  have hdrop : x.dropWhile isTrail = x := by
    cases x with
    | nil => rfl
    | cons oc x => rw [List.dropWhile_cons, hx oc rfl]; rfl
  unfold resync
  split
  · rfl
  · rw [List.dropWhile_append, hdrop]
    split
    · rename_i hnil
      rw [List.isEmpty_iff.mp hnil, List.nil_append]
    · rfl

/-- Repairing goes on independently behind text that does not begin with a trail octet. -/
theorem Repaired.append {c : Char} {a x : Bytes} {as xs : List Char} (h : Repaired c a as)
    (hx : NoTrail x) (h' : Repaired c x xs) : Repaired c (a ++ x) (as ++ xs) := by
  induction h with
  | nil => exact h'
  | char d _ ih =>
    rw [List.append_assoc]
    exact .char d ih
  | mark hbad _ ih =>
    have hbad' := undecodable_append hbad (List.cons_ne_nil _ _) hx
    rw [← resync_append _ _ hx] at ih
    exact .mark hbad' ih

/-- `replace_invalid` keeps a stretch of well-formed text, and makes of what is on each side of
    it what it would make of that side alone. -/
theorem replaceInvalid_local (a b : Bytes) {cs : List Char} (hcs : cs ≠ []) (c : Char) :
    ∃ as bs, replaceInvalid a c.val = .returns (Utf8.encode as) ∧
      replaceInvalid b c.val = .returns (Utf8.encode bs) ∧
      replaceInvalid (a ++ Utf8.encode cs ++ b) c.val =
        .returns (Utf8.encode as ++ Utf8.encode cs ++ Utf8.encode bs) := by
  obtain ⟨as, has⟩ := exists_repaired c a
  obtain ⟨bs, hbs⟩ := exists_repaired c b
  have htext : Repaired c (Utf8.encode cs ++ b) (cs ++ bs) := hbs.encode_append cs
  have hwhole := (has.append (noTrail_encode hcs b) htext).replaceInvalid
  refine ⟨as, bs, has.replaceInvalid, hbs.replaceInvalid, ?_⟩
  rw [List.append_assoc, hwhole, Utf8.encode_append, Utf8.encode_append, List.append_assoc]

/-- A lone trail octet, a letter and a lead octet without its trail octets. -/
theorem replaceInvalid_local_letter :
    replaceInvalid [0x80, 0x61, 0xe2, 0x82] 0x3f = .returns [0x3f, 0x61, 0x3f] := by
  obtain ⟨as, bs, has, hbs, h⟩ := replaceInvalid_local [0x80] [0xe2, 0x82]
    (show ['a'] ≠ [] from List.cons_ne_nil _ _) '?'
  have ha : replaceInvalid [0x80] 0x3f = .returns [0x3f] := by decide
  have hb : replaceInvalid [0xe2, 0x82] 0x3f = .returns [0x3f] := by decide
  have hencode : Utf8.encode ['a'] = [0x61] := by decide
  rw [← Run.returns.inj (ha.symm.trans has), ← Run.returns.inj (hb.symm.trans hbs), hencode] at h
  exact h

/-! ## Results and exceptions -/

/-- `replace_invalid` throws where it needs a replacement that is no code point. Otherwise it
    writes well-formed text, which is the text itself if that is well-formed, so that replacing
    once more, with any other replacement, changes nothing. -/
theorem replaceInvalid_spec (start : Bytes) (r : UInt32) :
    (¬ Utf8.WellFormed start ∧ isCodePointValid r = false) ∧
      replaceInvalid start r = .throws (.invalidCodePoint r) ∨
    (Utf8.WellFormed start ∨ isCodePointValid r = true) ∧
      ∃ out, replaceInvalid start r = .returns out ∧ Utf8.WellFormed out ∧
        (out = start ↔ Utf8.WellFormed start) ∧ ∀ r', replaceInvalid out r' = .returns out := by
  by_cases hwell : Utf8.WellFormed start
  · obtain ⟨cs, rfl⟩ := hwell
    exact .inr ⟨.inl ⟨cs, rfl⟩, _, replaceInvalid_encode cs r, ⟨cs, rfl⟩,
      ⟨fun _ => ⟨cs, rfl⟩, fun _ => rfl⟩, replaceInvalid_encode cs⟩
  · cases hvalid : isCodePointValid r with
    | false => exact .inl ⟨⟨hwell, rfl⟩, replaceInvalid_malformed hwell hvalid⟩
    | true =>
      obtain ⟨cs, hcs⟩ := exists_repaired ⟨r, (isCodePointValid_iff r).mp hvalid⟩ start
      refine .inr ⟨.inr rfl, _, hcs.replaceInvalid, ⟨cs, rfl⟩, ?_, replaceInvalid_encode cs⟩
      exact ⟨fun h => ⟨cs, h.symm⟩, fun h => absurd h hwell⟩

end CcJson.Utf8Cpp
