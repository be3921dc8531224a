import CcJson.Spec.Completion

/-!
# Replacing a value in a text

A part of an accepted text whose tokens are those of a value can be replaced by any other
value, written in any way, unless it is the key of a member, which can be replaced by
strings only. The text has to be read to its end: behind an unfinished token the values
may run into each other, as `[]1.` shows, where `2` cannot be written for `[]`.

## Key results

- `exists_pending`: what a beginning of a value leaves to be derived
- `IsValue.replace`, `IsValue.firstKind_of_key`: a value in place of another one
- `accepts_replace`: a value in place of another one in an accepted text
-/

namespace CcJson

open Munch

/-! ## What is left of a value -/

/-- What can be left of the productions behind a value. -/
inductive Follows : List Sym → Prop where
  | nil : Follows []
  | memberListTail {form : List Sym} (h : Follows form) :
      Follows (nt .memberListTail :: tk .tkCloseBrace :: form)
  | valueListTail {form : List Sym} (h : Follows form) :
      Follows (nt .valueListTail :: tk .tkCloseBracket :: form)

/-- What can be left of the productions when the beginning of a value has been derived. -/
inductive Pending : List Sym → Prop where
  | follows {form : List Sym} (h : Follows form) : Pending form
  | value {form : List Sym} (h : Follows form) : Pending (nt .value :: form)
  | objectBody {form : List Sym} (h : Follows form) : Pending (nt .objectBody :: form)
  | key {form : List Sym} (h : Follows form) :
      Pending (tk .tkString :: tk .tkColon :: nt .value :: form)
  | colon {form : List Sym} (h : Follows form) : Pending (tk .tkColon :: nt .value :: form)
  | arrayBody {form : List Sym} (h : Follows form) : Pending (nt .arrayBody :: form)

/-- Behind a value stands a comma or a bracket. -/
theorem Follows.kind {form : List Sym} (h : Follows form) {k : TokenType} {ts : List TokenType}
    (hk : Yields form (k :: ts)) : k = .tkCloseBrace ∨ k = .tkCloseBracket ∨ k = .tkComma := by
  cases h with
  | nil => simp at hk
  | memberListTail h =>
    rw [yields_memberListTail_cons] at hk
    cases k with
    | tkCloseBrace | tkComma => simp
    | _ => exact hk.elim
  | valueListTail h =>
    rw [yields_valueListTail_cons] at hk
    cases k with
    | tkCloseBracket | tkComma => simp
    | _ => exact hk.elim

/-- An array that does not end at once goes on with a value. -/
theorem yields_arrayBody_cons_of_ne {form : List Sym} {k : TokenType} {ts : List TokenType}
    (hk : k ≠ .tkCloseBracket) : Yields (nt .arrayBody :: form) (k :: ts) ↔
      Yields (nt .value :: nt .valueListTail :: tk .tkCloseBracket :: form) (k :: ts) := by
  rw [yields_arrayBody_cons]
  split
  · exact absurd rfl hk
  · rfl

/-- `form'` is left of `form` after the token `k`; a number is a value of its own. -/
structure Leaves (form : List Sym) (k : TokenType) (form' : List Sym) : Prop where
  pending : Pending form'
  follows : k = .tkNumber → Follows form'
  yields_iff : ∀ us, Yields form (k :: us) ↔ Yields form' us

/-- What is left of a value after its first token. -/
private theorem exists_leaves_value {form : List Sym} (h : Follows form) {k : TokenType}
    (hviable : ∃ us, Yields (nt .value :: form) (k :: us)) :
    ∃ form', Leaves (nt .value :: form) k form' := by
  obtain ⟨us, hus⟩ := hviable
  rw [yields_value_cons] at hus
  cases k with
  | tkOpenBrace => exact ⟨_, .objectBody h, nofun, fun _ => yields_value_cons⟩
  | tkOpenBracket => exact ⟨_, .arrayBody h, nofun, fun _ => yields_value_cons⟩
  | tkString | tkNumber | tkTrue | tkFalse | tkNull =>
    exact ⟨_, .follows h, fun _ => h, fun _ => yields_value_cons⟩
  | _ => exact hus.elim

/-- What is left of the productions behind a value after one more token. -/
private theorem Follows.exists_leaves {form : List Sym} (h : Follows form) {k : TokenType}
    (hviable : ∃ us, Yields form (k :: us)) : ∃ form', Leaves form k form' := by
  obtain ⟨us, hus⟩ := hviable
  cases h with
  | nil => simp at hus
  | memberListTail h =>
    rw [yields_memberListTail_cons] at hus
    cases k with
    | tkCloseBrace => exact ⟨_, .follows h, nofun, fun _ => yields_memberListTail_cons⟩
    | tkComma => exact ⟨_, .key (.memberListTail h), nofun, fun _ => yields_memberListTail_cons⟩
    | _ => exact hus.elim
  | valueListTail h =>
    rw [yields_valueListTail_cons] at hus
    cases k with
    | tkCloseBracket => exact ⟨_, .follows h, nofun, fun _ => yields_valueListTail_cons⟩
    | tkComma => exact ⟨_, .value (.valueListTail h), nofun, fun _ => yields_valueListTail_cons⟩
    | _ => exact hus.elim

/-- What is left after one more token. -/
theorem Pending.exists_leaves {form : List Sym} (h : Pending form) {k : TokenType}
    (hviable : ∃ us, Yields form (k :: us)) : ∃ form', Leaves form k form' := by
  -- the first symbol and the token determine the production
  cases h with
  | follows h => exact h.exists_leaves hviable
  | value h => exact exists_leaves_value h hviable
  | objectBody h =>
    obtain ⟨us, hus⟩ := hviable
    rw [yields_objectBody_cons] at hus
    cases k with
    | tkCloseBrace => exact ⟨_, .follows h, nofun, fun _ => yields_objectBody_cons⟩
    | tkString => exact ⟨_, .colon (.memberListTail h), nofun, fun _ => yields_objectBody_cons⟩
    | _ => exact hus.elim
  | key h =>
    obtain ⟨us, hus⟩ := hviable
    obtain ⟨rfl, -⟩ := yields_tk_cons.mp hus
    exact ⟨_, .colon h, nofun, fun us => by rw [yields_tk_cons, and_iff_right rfl]⟩
  | colon h =>
    obtain ⟨us, hus⟩ := hviable
    obtain ⟨rfl, -⟩ := yields_tk_cons.mp hus
    exact ⟨_, .value h, nofun, fun us => by rw [yields_tk_cons, and_iff_right rfl]⟩
  | arrayBody h =>
    by_cases hclose : k = .tkCloseBracket
    · subst hclose
      exact ⟨_, .follows h, nofun, fun _ => yields_arrayBody_cons⟩
    · simp only [yields_arrayBody_cons_of_ne hclose] at hviable
      obtain ⟨form', h'⟩ := exists_leaves_value (.valueListTail h) hviable
      exact ⟨form', h'.pending, h'.follows, fun us =>
        (yields_arrayBody_cons_of_ne hclose).trans (h'.yields_iff us)⟩

/-- What the beginning `ts` of something pending leaves. -/
theorem exists_pending (ts : List TokenType) {form : List Sym} (h : Pending form)
    (hviable : ∃ us, Yields form (ts ++ us)) :
    ∃ form', Pending form' ∧ ∀ us, Yields form (ts ++ us) ↔ Yields form' us := by
  induction ts generalizing form with
  | nil => exact ⟨form, h, fun _ => Iff.rfl⟩
  | cons k ts ih =>
    obtain ⟨us, hus⟩ := hviable
    obtain ⟨form₁, h₁⟩ := h.exists_leaves ⟨ts ++ us, hus⟩
    obtain ⟨form', h', hrest⟩ := ih h₁.pending ⟨us, (h₁.yields_iff _).mp hus⟩
    exact ⟨form', h', fun us => (h₁.yields_iff _).trans (hrest us)⟩

/-- A number is not followed by a string. -/
theorem not_isValue_number_string {as bs : List TokenType} :
    ¬ IsValue (as ++ .tkNumber :: .tkString :: bs) := by
  intro h
  have hviable := isValue_iff.mp h
  obtain ⟨form, hpending, hform⟩ := exists_pending as (.value .nil) ⟨_, hviable⟩
  have hnumber := (hform _).mp hviable
  obtain ⟨form', hleaves⟩ := hpending.exists_leaves ⟨_, hnumber⟩
  have hstring := (hleaves.follows rfl).kind ((hleaves.yields_iff _).mp hnumber)
  simp at hstring

/-! ## Another value -/

/-- The tokens of a value in front of others are what the first `<value>` derives. -/
theorem Yields.of_value {form : List Sym} {v : JsonValue} {ts : List TokenType}
    (h : Yields (nt .value :: form) (kinds v.lexemes ++ ts)) : Yields form ts := by
  obtain ⟨us, ts', heq, hus, hts'⟩ :=
    ContextFreeGrammar.yields_append.mp (show Yields ([nt .value] ++ form) _ from h)
  have hv : IsValue (kinds v.lexemes) := isValue_iff_tree.mpr ⟨v, rfl⟩
  have hu : IsValue us := isValue_iff.mpr hus
  -- neither of two values at the same place goes beyond the other
  obtain ⟨ws, hws, hts⟩ | ⟨ws, hws, hts⟩ := List.append_eq_append_iff.mp heq
  · rw [hws] at hu
    obtain rfl := hv.eq_nil hu
    rw [hts]
    exact hts'
  · rw [hws] at hv
    obtain rfl := hu.eq_nil hv
    rw [← List.nil_append ts, ← hts]
    exact hts'

theorem JsonValue.exists_kinds (v : JsonValue) : ∃ ks, kinds v.lexemes = v.firstKind :: ks := by
  have hhead := v.head_lexemes []
  rw [List.append_nil] at hhead
  cases hls : v.lexemes with
  | nil => simp [hls] at hhead
  | cons l ls =>
    rw [hls] at hhead
    exact ⟨kinds ls, by rw [kinds_cons, Option.some.inj hhead]⟩

/-- Only punctuation and strings begin what is pending otherwise. -/
theorem JsonValue.firstKind_ne (v : JsonValue) {k : TokenType}
    (hk : k = .tkCloseBrace ∨ k = .tkCloseBracket ∨ k = .tkComma ∨ k = .tkColon) :
    v.firstKind ≠ k := by
  rcases hk with rfl | rfl | rfl | rfl <;> cases v <;> nofun

/-- A value that is not a key does not stand where a key has to. -/
theorem not_yields_key {form : List Sym} {v : JsonValue} {ts : List TokenType}
    (hkey : v.firstKind = .tkString → ts.head? ≠ some .tkColon) :
    ¬ Yields (tk .tkString :: tk .tkColon :: form) (kinds v.lexemes ++ ts) := by
  intro h
  have hfirst : v.firstKind = .tkString := by
    obtain ⟨ks, hks⟩ := v.exists_kinds
    rw [hks, List.cons_append, yields_tk_cons] at h
    exact h.1
  cases v with
  | string s =>
    have hcolon : Yields (tk .tkColon :: form) ts := (yields_tk_cons.mp h).2
    cases ts with
    | nil => exact not_yields_tk_nil hcolon
    | cons k ts => exact hkey hfirst (congrArg some (yields_tk_cons.mp hcolon).1)
  | _ => exact nomatch hfirst

/-- A value in place of another one: only the key of a member is no value. -/
theorem Pending.replace {form : List Sym} (h : Pending form) {v : JsonValue}
    {ts : List TokenType} (hkey : v.firstKind = .tkString → ts.head? ≠ some .tkColon)
    (hv : Yields form (kinds v.lexemes ++ ts)) (v' : JsonValue) :
    Yields form (kinds v'.lexemes ++ ts) := by
  obtain ⟨k, ks, hk, hks⟩ : ∃ k ks, v.firstKind = k ∧ kinds v.lexemes = k :: ks := by
    obtain ⟨ks, hks⟩ := v.exists_kinds
    exact ⟨_, ks, rfl, hks⟩
  have hno : ∀ {k'}, k' = .tkCloseBrace ∨ k' = .tkCloseBracket ∨ k' = .tkComma ∨ k' = .tkColon →
      k ≠ k' := fun hk' => hk ▸ v.firstKind_ne hk'
  cases h with
  | follows h =>
    rw [hks, List.cons_append] at hv
    rcases h.kind hv with rfl | rfl | rfl <;> exact absurd rfl (hno (by simp))
  | value h => exact v'.yields (Yields.of_value hv)
  | objectBody h =>
    rw [hks, List.cons_append, yields_objectBody_cons] at hv
    split at hv
    · exact absurd rfl (hno (by simp))
    · -- the string would be a key
      have hstring := yields_tk_cons.mpr ⟨(rfl : TokenType.tkString = .tkString), hv⟩
      rw [← List.cons_append, ← hks] at hstring
      exact absurd hstring (not_yields_key hkey)
    · exact hv.elim
  | key h => exact absurd hv (not_yields_key hkey)
  | colon h =>
    rw [hks, List.cons_append, yields_tk_cons] at hv
    exact absurd hv.1 (hno (by simp))
  | arrayBody h =>
    have hne : k ≠ .tkCloseBracket := hno (by simp)
    rw [hks, List.cons_append, yields_arrayBody_cons_of_ne hne, ← List.cons_append, ← hks] at hv
    exact yields_arrayBody_of_value (v'.yields (Yields.of_value hv))

/-- Where a key can stand there is a string or the end of the object. -/
theorem Pending.kind_of_key {form : List Sym} (h : Pending form) {ts us : List TokenType}
    (hkey : Yields form (.tkString :: .tkColon :: ts)) {k : TokenType}
    (hk : Yields form (k :: us)) : k = .tkString ∨ k = .tkCloseBrace := by
  cases h with
  | follows h => simpa using h.kind hkey
  | value h => simpa using h.kind (yields_value_cons.mp hkey)
  | objectBody h =>
    rw [yields_objectBody_cons] at hk
    cases k with
    | tkCloseBrace | tkString => simp
    | _ => exact hk.elim
  | key h => exact .inl (yields_tk_cons.mp hk).1
  | colon h => exact nomatch (yields_tk_cons.mp hkey).1
  | arrayBody h =>
    rw [yields_arrayBody_cons_of_ne (by simp), yields_value_cons] at hkey
    simpa using (Follows.valueListTail h).kind hkey

/-- A string has one token. -/
theorem JsonValue.kinds_of_string {v : JsonValue} (h : v.firstKind = .tkString) :
    kinds v.lexemes = [.tkString] := by
  cases v with
  | string s => rfl
  | _ => exact nomatch h

/-- The string `v` is the key of a member: a colon follows it. -/
def IsKey (v : JsonValue) (ts : List TokenType) : Prop :=
  v.firstKind = .tkString ∧ ts.head? = some .tkColon

/-- A value may stand in place of another one in the tokens of a value, and a string in place of
    a key. -/
theorem IsValue.replace {as bs : List TokenType} {v v' : JsonValue}
    (h : IsValue (as ++ (kinds v.lexemes ++ bs)))
    (hkey : IsKey v bs → v'.firstKind = .tkString) :
    IsValue (as ++ (kinds v'.lexemes ++ bs)) := by
  by_cases hstring : v.firstKind = .tkString ∧ v'.firstKind = .tkString
  · rwa [v'.kinds_of_string hstring.2, ← v.kinds_of_string hstring.1]
  · have hvalue : v.firstKind = .tkString → bs.head? ≠ some .tkColon :=
      fun hfirst hcolon => hstring ⟨hfirst, hkey ⟨hfirst, hcolon⟩⟩
    obtain ⟨form, hpending, hform⟩ := exists_pending as (.value .nil) ⟨_, isValue_iff.mp h⟩
    rw [isValue_iff] at h ⊢
    exact (hform _).mpr (hpending.replace hvalue ((hform _).mp h) v')

/-- Nothing but a string may stand in place of a key. -/
theorem IsValue.firstKind_of_key {as bs : List TokenType} {v v' : JsonValue}
    (h : IsValue (as ++ (kinds v.lexemes ++ bs))) (hkey : IsKey v bs)
    (h' : IsValue (as ++ (kinds v'.lexemes ++ bs))) : v'.firstKind = .tkString := by
  obtain ⟨form, hpending, hform⟩ := exists_pending as (.value .nil) ⟨_, isValue_iff.mp h⟩
  obtain ⟨hfirst, hcolon⟩ := hkey
  obtain ⟨ts, rfl⟩ := List.head?_eq_some_iff.mp hcolon
  obtain ⟨ks, hks⟩ := v'.exists_kinds
  have hold := (hform _).mp (isValue_iff.mp h)
  have hnew := (hform _).mp (isValue_iff.mp h')
  rw [v.kinds_of_string hfirst] at hold
  rw [hks] at hnew
  exact (hpending.kind_of_key hold hnew).resolve_right (v'.firstKind_ne (.inl rfl))

/-- A key stands behind a bracket or a comma, so no numbers come to stand next to each other. -/
theorem isChain_of_key {ls ms : List Lexeme} {v : JsonValue}
    (h : IsValue (kinds (ls ++ (v.lexemes ++ ms)))) (hkey : IsKey v (kinds ms)) (v' : JsonValue) :
    (ls ++ (v'.lexemes ++ ms)).IsChain Apart := by
  obtain ⟨w, hw⟩ := isValue_iff_tree.mp h
  obtain ⟨hls, htail, -⟩ := List.isChain_append.mp (hw ▸ w.lexemes_isChain)
  obtain ⟨-, hms, -⟩ := List.isChain_append.mp htail
  refine List.isChain_append.mpr ⟨hls, v'.isChain hms ?_, ?_⟩
  · intro m hm hnumber
    have hcolon := hkey.2
    rw [kinds, List.head?_map, Option.mem_def.mp hm] at hcolon
    cases hnumber.symm.trans (Option.some.inj hcolon)
  · intro l hl m _ hnumber
    -- a number in front of the key
    obtain ⟨ls', rfl⟩ := List.getLast?_eq_some_iff.mp hl
    rw [kinds_append, kinds_append, kinds_append, v.kinds_of_string hkey.1, List.append_assoc] at h
    simp only [kinds_cons, hnumber] at h
    exact absurd h not_isValue_number_string

/-! ## In a text -/

/-- All tokens of a text are determined. -/
theorem Munches.eq_of_blanks {cs rest rest' : List Char} {ls ls' : List Lexeme}
    (h : Munches cs ls rest) (hrest : Blanks rest) (h' : Munches cs ls' rest')
    (hrest' : Blanks rest') : ls = ls' := by
  rcases h.linear h' with ⟨ms, rfl, hms⟩ | ⟨ms, rfl, hms⟩
  · rw [(hms.eq_nil_of_blanks hrest).1, List.append_nil]
  · rw [(hms.eq_nil_of_blanks hrest').1, List.append_nil]

/-- A text that is read to its end is accepted exactly if its tokens are a value. -/
theorem Munches.accepts_iff {loadType : FileLoadType} {cs rest : List Char} {ls : List Lexeme}
    (h : Munches cs ls rest) (hrest : Blanks rest) :
    Accepts loadType (Utf8.encode cs) ↔ IsValue (kinds ls) := by
  rw [accepts_encode_iff, isValue_iff_tree]
  constructor
  · intro haccepts
    obtain hjson | ⟨v, b, u, hmunches, hb, hu⟩ := haccepts
    · obtain ⟨v, rest', hmunches, hrest'⟩ := jsonText_iff.mp hjson
      exact ⟨v, hmunches.eq_of_blanks hrest' h hrest⟩
    · exact absurd ⟨_, b, u, hmunches, hb, hu⟩ (h.not_endsInToken hrest)
  · intro hvalue
    obtain ⟨v, rfl⟩ := hvalue
    exact .inl (jsonText_iff.mpr ⟨v, rest, h, hrest⟩)

/-- Where an accepted text without an unfinished token at its end has the tokens of a value,
    another value may be written instead, with any whitespace between the tokens: the text is
    accepted again, by either reader, except that the key of a member is no longer a string. -/
theorem accepts_replace {loadType : FileLoadType} {cs rest : List Char} {ls ms : List Lexeme}
    {v v' : JsonValue} (hreads : Munches cs (ls ++ (v.lexemes ++ ms)) rest) (hrest : Blanks rest)
    (haccepts : Accepts loadType (Utf8.encode cs)) {ds b : List Char}
    (hds : Writes (ls ++ (v'.lexemes ++ ms)) ds) (hb : Blanks b) (loadType' : FileLoadType) :
    Accepts loadType' (Utf8.encode (ds ++ b)) ↔
      (v.firstKind = .tkString → ms.head?.map Lexeme.kind = some .tkColon →
        v'.firstKind = .tkString) := by
  have hvalue := (hreads.accepts_iff hrest).mp haccepts
  have hsplit := hvalue
  rw [kinds_append, kinds_append] at hsplit
  rw [← List.head?_map]
  constructor
  · intro h hfirst hcolon
    have hmunches := hds.munches hb (isChain_of_key hvalue ⟨hfirst, hcolon⟩ v')
    have hreplaced := (hmunches.accepts_iff hb).mp h
    rw [kinds_append, kinds_append] at hreplaced
    exact hsplit.firstKind_of_key ⟨hfirst, hcolon⟩ hreplaced
  · intro hkey
    have hreplaced : IsValue (kinds (ls ++ (v'.lexemes ++ ms))) := by
      rw [kinds_append, kinds_append]
      exact hsplit.replace fun h => hkey h.1 h.2
    obtain ⟨w, hw⟩ := isValue_iff_tree.mp hreplaced
    exact accepts_encode_iff.mpr (.inl ⟨w, ds, b, rfl, hw ▸ hds, hb⟩)

/-- An array in place of the number in an object. -/
theorem accepts_replace_member :
    Accepts .memoryMapped (Utf8.encode (['{', '"', '"', ':', '[', ']', '}'] ++ [' '])) :=
  let key : Spelling .tkString := ⟨['"', '"'], .quote .quote⟩
  let v : JsonValue := .number ⟨['1'], tkNumber_one⟩
  let ls : List Lexeme := [.fixed .tkOpenBrace rfl, key.lexeme, .fixed .tkColon rfl]
  let ms : List Lexeme := [.fixed .tkCloseBrace rfl]
  have hreads : Munches (compact (ls ++ (v.lexemes ++ ms)) ++ []) (ls ++ (v.lexemes ++ ms)) [] :=
    (writes_compact _).munches blanks_nil (JsonValue.object [(key, v)]).lexemes_isChain
  have haccepts : Accepts .fullMemory
      (Utf8.encode (compact (ls ++ (v.lexemes ++ ms)) ++ [])) :=
    accepts_encode_iff.mpr (.inl ⟨.object [(key, v)], _, [], rfl, writes_compact _, blanks_nil⟩)
  have harray : Writes (ls ++ ((JsonValue.array []).lexemes ++ ms))
      ['{', '"', '"', ':', '[', ']', '}'] := writes_compact _
  (accepts_replace hreads blanks_nil haccepts harray (by decide) .memoryMapped).mpr nofun

end CcJson
