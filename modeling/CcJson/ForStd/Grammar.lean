import Mathlib.Computability.ContextFreeGrammar

/-!
# Leftmost derivations of words

`g.Yields form w` is the derivation of the word `w` from the sentential form `form`
that always rewrites the leftmost symbol. It derives the same words as `g.Derives`
(`yields_iff_derives`) and can be inverted by the first symbol of the form, which is
what a predictive parser does. A meaning of the symbols that respects the productions
is one of the derived words (`Yields.means`).
-/

namespace ContextFreeGrammar

variable {T : Type} {g : ContextFreeGrammar T}

/-- The word `w` is derived from a sentential form, its leftmost symbol first. -/
inductive Yields (g : ContextFreeGrammar T) : List (Symbol T g.NT) → List T → Prop where
  | nil : Yields g [] []
  | terminal (t : T) {form : List (Symbol T g.NT)} {w : List T} (h : Yields g form w) :
      Yields g (.terminal t :: form) (t :: w)
  | rule {r : ContextFreeRule T g.NT} {form : List (Symbol T g.NT)} {w : List T}
      (hr : r ∈ g.rules) (h : Yields g (r.output ++ form) w) :
      Yields g (.nonterminal r.input :: form) w

/-! ## Inversion by the first symbol -/

@[simp] theorem yields_nil {w : List T} : g.Yields [] w ↔ w = [] := by
  constructor
  · intro h
    cases h
    rfl
  · rintro rfl
    exact .nil

@[simp] theorem not_yields_terminal_nil {t : T} {form : List (Symbol T g.NT)} :
    ¬ g.Yields (.terminal t :: form) [] := by
  intro h
  cases h

@[simp] theorem yields_terminal_cons {t t' : T} {form : List (Symbol T g.NT)} {w : List T} :
    g.Yields (.terminal t :: form) (t' :: w) ↔ t' = t ∧ g.Yields form w := by
  constructor
  · intro h
    cases h with
    | terminal _ h => exact ⟨rfl, h⟩
  · intro h
    obtain ⟨rfl, h⟩ := h
    exact .terminal _ h

theorem yields_nonterminal {n : g.NT} {form : List (Symbol T g.NT)} {w : List T} :
    g.Yields (.nonterminal n :: form) w ↔
      ∃ r ∈ g.rules, r.input = n ∧ g.Yields (r.output ++ form) w := by
  constructor
  · intro h
    cases h with
    | rule hr h => exact ⟨_, hr, rfl, h⟩
  · intro h
    obtain ⟨r, hr, rfl, h⟩ := h
    exact .rule hr h

/-! ## Agreement with derivations -/

/-- A word derived from two forms in a row is a word of the one and a word of the other. -/
theorem yields_append {form form' : List (Symbol T g.NT)} {w : List T} :
    g.Yields (form ++ form') w ↔ ∃ u v, w = u ++ v ∧ g.Yields form u ∧ g.Yields form' v := by
  constructor
  · intro h
    -- Induction on the derivation, with the first form free: when it is used up, the
    -- rest of the derivation is one of the second form.
    generalize hform : form ++ form' = whole at h
    induction h generalizing form with
    | nil =>
      obtain ⟨rfl, rfl⟩ := List.append_eq_nil_iff.mp hform
      exact ⟨[], [], rfl, .nil, .nil⟩
    | @terminal t rest w h ih =>
      cases form with
      | nil =>
        rw [List.nil_append] at hform
        subst hform
        exact ⟨[], t :: w, rfl, .nil, .terminal t h⟩
      | cons x form =>
        obtain ⟨rfl, rfl⟩ := List.cons.inj hform
        obtain ⟨u, v, rfl, hu, hv⟩ := ih rfl
        exact ⟨t :: u, v, rfl, .terminal t hu, hv⟩
    | @rule r rest w hr h ih =>
      cases form with
      | nil =>
        rw [List.nil_append] at hform
        subst hform
        exact ⟨[], w, rfl, .nil, .rule hr h⟩
      | cons x form =>
        obtain ⟨rfl, rfl⟩ := List.cons.inj hform
        obtain ⟨u, v, rfl, hu, hv⟩ := ih (List.append_assoc _ _ _)
        exact ⟨u, v, rfl, .rule hr hu, hv⟩
  · intro h
    obtain ⟨u, v, rfl, hu, hv⟩ := h
    -- Conversely the second derivation is put at the end of the first one.
    induction hu with
    | nil => exact hv
    | terminal t _ ih => exact .terminal t ih
    | rule hr _ ih =>
      rw [List.append_assoc] at ih
      exact .rule hr ih

theorem yields_map_terminal (w : List T) : g.Yields (w.map .terminal) w := by
  induction w with
  | nil => exact .nil
  | cons t w ih => exact .terminal t ih

/-- Rewriting a nonterminal keeps what is derived afterwards. -/
theorem yields_of_produces {form form' : List (Symbol T g.NT)} {w : List T}
    (hstep : g.Produces form form') (h : g.Yields form' w) : g.Yields form w := by
  obtain ⟨r, hr, hrewrites⟩ := hstep
  -- The rewritten nonterminal stands between `pre` and `post`; its own part of the
  -- word comes after what `pre` derives.
  obtain ⟨pre, post, rfl, rfl⟩ := hrewrites.exists_parts
  rw [List.append_assoc, yields_append] at h ⊢
  obtain ⟨u, v, rfl, hu, hv⟩ := h
  exact ⟨u, v, rfl, hu, .rule hr hv⟩

/-- Leftmost derivations derive the same words as all derivations. -/
theorem yields_iff_derives {form : List (Symbol T g.NT)} {w : List T} :
    g.Yields form w ↔ g.Derives form (w.map .terminal) := by
  constructor
  · intro h
    induction h with
    | nil => exact .refl _
    | terminal t _ ih => exact ih.append_left [.terminal t]
    | @rule r form w hr _ ih =>
      have hhead : g.Produces (.nonterminal r.input :: form) (r.output ++ form) :=
        ⟨r, hr, .head form⟩
      exact hhead.trans_derives ih
  · intro h
    -- From the last form backwards, one rewriting step at a time.
    induction h using Relation.ReflTransGen.head_induction_on with
    | refl => exact yields_map_terminal w
    | head hstep _ ih => exact yields_of_produces hstep ih

/-- A terminal of a derived word comes from the form or from a production. -/
theorem Yields.mem_terminal {form : List (Symbol T g.NT)} {w : List T} {t : T}
    (h : g.Yields form w) (ht : t ∈ w) :
    .terminal t ∈ form ∨ ∃ r ∈ g.rules, .terminal t ∈ r.output := by
  induction h with
  | nil => exact nomatch ht
  | terminal t' _ ih =>
    rcases List.mem_cons.mp ht with rfl | ht
    · exact .inl List.mem_cons_self
    · exact (ih ht).imp_left (List.mem_cons_of_mem _)
  | @rule r form w hr _ ih =>
    rcases ih ht with hmem | hmem
    · rcases List.mem_append.mp hmem with hmem | hmem
      · exact .inr ⟨r, hr, hmem⟩
      · exact .inl (List.mem_cons_of_mem _ hmem)
    · exact .inr hmem

/-! ## Meanings -/

section Meanings

variable {α : Type}

/-- A sequence is cut into parts that the symbols of a form mean, one after the other. -/
def FormMeans (meaning : Symbol T g.NT → List α → Prop) :
    List (Symbol T g.NT) → List α → Prop
  | [], as => as = []
  | x :: form, as => ∃ us vs, as = us ++ vs ∧ meaning x us ∧ FormMeans meaning form vs

theorem formMeans_append {meaning : Symbol T g.NT → List α → Prop}
    {form form' : List (Symbol T g.NT)} {as : List α} (h : FormMeans meaning (form ++ form') as) :
    ∃ us vs, as = us ++ vs ∧ FormMeans meaning form us ∧ FormMeans meaning form' vs := by
  induction form generalizing as with
  | nil => exact ⟨[], as, rfl, rfl, h⟩
  | cons x form ih =>
    obtain ⟨us, vs, rfl, hx, hvs⟩ := h
    obtain ⟨us', vs', rfl, hform, hform'⟩ := ih hvs
    exact ⟨us ++ us', vs', (List.append_assoc _ _ _).symm, ⟨us, us', rfl, hx, hform⟩, hform'⟩

/-- When every production is true of what its symbols mean, a sequence with a derived
    word is cut into what the form means. -/
theorem Yields.means {meaning : Symbol T g.NT → List α → Prop} {f : α → T}
    (hterminal : ∀ a, meaning (.terminal (f a)) [a])
    (hrule : ∀ r ∈ g.rules, ∀ as, FormMeans meaning r.output as →
      meaning (.nonterminal r.input) as)
    {form : List (Symbol T g.NT)} {as : List α} (h : g.Yields form (as.map f)) :
    FormMeans meaning form as := by
  generalize hw : as.map f = w at h
  induction h generalizing as with
  | nil => exact List.map_eq_nil_iff.mp hw
  | terminal t _ ih =>
    obtain ⟨a, as', rfl, rfl, has⟩ := List.map_eq_cons_iff.mp hw
    exact ⟨[a], as', rfl, hterminal a, ih has⟩
  | @rule r form w hr _ ih =>
    -- The part of the output is what the nonterminal means; the rest is cut as before.
    obtain ⟨us, vs, rfl, hus, hvs⟩ := formMeans_append (ih hw)
    exact ⟨us, vs, rfl, hrule r hr us hus, hvs⟩

end Meanings

end ContextFreeGrammar
