import CcJson.Spec.Utf8Conversions

/-!
# Moving over code points

On a range with well-formed text the iterators of the vendored library are indices of
code points: `++` and `--` count up and down, `*` is the code point with the index, and
at both ends of the range an exception is thrown. `advance` adds to such an index when it is
given the limit in the direction of the move, and `distance` is inverse to it.

## Key results

- `Range.walk_spec`: any sequence of `++` and `--`, and what is then in front of the iterator
- `advance_spec`: `advance` in both directions
- `distance_iff`: what `distance` returns, for any octets
-/

namespace CcJson.Utf8Cpp

/-! ## Ranges -/

/-- A range with well-formed text, in a buffer with any octets around it. -/
structure Range where
  before : Bytes
  text : List Char
  after : Bytes

namespace Range

variable (R : Range)

def buffer : Bytes := R.before ++ (Utf8.encode R.text ++ R.after)

/-- The index in the range of the code point with the index `k`. -/
def offset (k : Nat) : Nat := (Utf8.encode (R.text.take k)).length

/-- The iterator to the code point with the index `k`, or to the end. -/
def iterator (k : Nat) : Iterator where
  it := R.before.length + R.offset k
  rangeStart := R.before.length
  rangeEnd := R.before.length + (Utf8.encode R.text).length

variable {R}

theorem encode_split (k : Nat) :
    Utf8.encode R.text = Utf8.encode (R.text.take k) ++ Utf8.encode (R.text.drop k) := by
  rw [← Utf8.encode_append, List.take_append_drop]

theorem offset_le (k : Nat) : R.offset k ≤ (Utf8.encode R.text).length := by
  rw [encode_split k, List.length_append]
  exact Nat.le_add_right _ _

theorem offset_succ {k : Nat} (hk : k < R.text.length) :
    R.offset (k + 1) = R.offset k + (String.utf8EncodeChar R.text[k]).length := by
  have htake : R.text.take (k + 1) = R.text.take k ++ [R.text[k]] := by simp
  rw [offset, htake, Utf8.encode_append, List.length_append, Utf8.encode_singleton]
  rfl

/-- Different code points have different offsets. -/
theorem offset_lt {j k : Nat} (hjk : j < k) (hk : k ≤ R.text.length) :
    R.offset j < R.offset k := by
  induction k with
  | zero => omega
  | succ k ih =>
    have hpos := Utf8.length_utf8EncodeChar_pos R.text[k]
    rw [offset_succ hk]
    by_cases heq : j = k
    · subst heq
      omega
    · have := ih (by omega) (by omega)
      omega

theorem offset_inj {j k : Nat} (hj : j ≤ R.text.length) (hk : k ≤ R.text.length) :
    R.offset j = R.offset k ↔ j = k := by
  constructor
  · intro h
    by_contra hne
    have hlt : j < k ∨ k < j := by omega
    obtain hlt | hlt := hlt
    · have := offset_lt hlt hk
      omega
    · have := offset_lt hlt hj
      omega
  · intro h
    rw [h]

theorem ahead_iterator (k : Nat) :
    (R.iterator k).ahead R.buffer = Utf8.encode (R.text.drop k) := by
  have htake : R.buffer.take (R.iterator k).rangeEnd = R.before ++ Utf8.encode R.text := by
    show (R.before ++ (Utf8.encode R.text ++ R.after)).take
      (R.before.length + (Utf8.encode R.text).length) = _
    rw [← List.append_assoc, ← List.length_append, List.take_left]
  rw [Iterator.ahead, htake, encode_split k, ← List.append_assoc]
  show List.drop (R.before.length + (Utf8.encode (R.text.take k)).length) _ = _
  rw [← List.length_append, List.drop_left]

theorem make_iterator (k : Nat) :
    Iterator.make (R.before.length + R.offset k) R.before.length
      (R.before.length + (Utf8.encode R.text).length) = .ok (R.iterator k) := by
  have hle := offset_le (R := R) k
  have hin : ¬ (R.before.length + R.offset k < R.before.length ∨
      R.before.length + (Utf8.encode R.text).length < R.before.length + R.offset k) := by omega
  simp only [Iterator.make, gt_iff_lt, Bool.or_eq_true, decide_eq_true_eq, hin, ↓reduceIte]
  rfl

theorem equals_iterator {j k : Nat} (hj : j ≤ R.text.length) (hk : k ≤ R.text.length) :
    (R.iterator j).equals (R.iterator k) = .ok (decide (j = k)) := by
  simp [Iterator.equals, iterator, offset_inj hj hk, beq_eq_decide]

/-! ## One step -/

theorem next_ahead {k : Nat} (hk : k < R.text.length) :
    next ((R.iterator k).ahead R.buffer) =
      .ok (R.text[k].val, Utf8.encode (R.text.drop (k + 1))) := by
  rw [ahead_iterator, List.drop_eq_getElem_cons hk, Utf8.encode_cons, next_encode]

theorem next_ahead_end : next ((R.iterator R.text.length).ahead R.buffer) =
    .error .notEnoughRoom := by
  rw [ahead_iterator, List.drop_length]
  rfl

theorem deref_iterator {k : Nat} (hk : k < R.text.length) :
    (R.iterator k).deref R.buffer = .ok R.text[k].val := by
  rw [Iterator.deref, next_ahead hk]
  rfl

theorem deref_end : (R.iterator R.text.length).deref R.buffer = .error .notEnoughRoom := by
  rw [Iterator.deref, next_ahead_end]
  rfl

theorem increment_iterator {k : Nat} (hk : k < R.text.length) :
    (R.iterator k).increment R.buffer = .ok (R.iterator (k + 1)) := by
  have hlength : ((R.iterator k).ahead R.buffer).length -
      (Utf8.encode (R.text.drop (k + 1))).length = (String.utf8EncodeChar R.text[k]).length := by
    rw [ahead_iterator, List.drop_eq_getElem_cons hk, Utf8.encode_cons, List.length_append,
      Nat.add_sub_cancel]
  have hit : (R.iterator k).it + (String.utf8EncodeChar R.text[k]).length =
      (R.iterator (k + 1)).it := by
    simp [iterator, offset_succ hk, Nat.add_assoc]
  simp only [Iterator.increment, next_ahead hk, bind, Except.bind, hlength, hit]
  rfl

theorem increment_end : (R.iterator R.text.length).increment R.buffer = .error .notEnoughRoom := by
  rw [Iterator.increment, next_ahead_end]
  rfl

/-- `prior` from one code point of the range to the one before it. -/
theorem prior_offset {k : Nat} (hk : k < R.text.length) :
    prior (Utf8.encode R.text ++ R.after) (R.offset (k + 1)) = .ok (R.text[k].val, R.offset k) := by
  have htext : Utf8.encode R.text ++ R.after = Utf8.encode (R.text.take k) ++
      String.utf8EncodeChar R.text[k] ++ (Utf8.encode (R.text.drop (k + 1)) ++ R.after) := by
    rw [encode_split k, List.drop_eq_getElem_cons hk, Utf8.encode_cons]
    simp only [List.append_assoc]
  rw [htext, offset_succ hk]
  exact prior_encode _ _ _

theorem decrement_iterator {k : Nat} (hk : k < R.text.length) :
    (R.iterator (k + 1)).decrement R.buffer = .ok (R.iterator k) := by
  have hprior : prior (R.buffer.drop (R.iterator (k + 1)).rangeStart)
      ((R.iterator (k + 1)).it - (R.iterator (k + 1)).rangeStart) =
        .ok (R.text[k].val, R.offset k) := by
    rw [← prior_offset hk]
    simp [buffer, iterator]
  rw [Iterator.decrement, hprior]
  rfl

theorem decrement_start : (R.iterator 0).decrement R.buffer = .error .notEnoughRoom := by
  have hzero : (R.iterator 0).it - (R.iterator 0).rangeStart = 0 := by
    simp [iterator, offset]
  rw [Iterator.decrement, hzero]
  rfl

end Range

/-! ## Walks -/

inductive Move where
  | increment
  | decrement
  deriving DecidableEq, Repr

def Iterator.move (buffer : Bytes) (i : Iterator) : Move → Except Exception Iterator
  | .increment => i.increment buffer
  | .decrement => i.decrement buffer

/-- A sequence of moves, up to the first exception. -/
def Iterator.walk (buffer : Bytes) (i : Iterator) (moves : List Move) :
    Except Exception Iterator :=
  moves.foldlM (Iterator.move buffer) i

/-- A move between the indices up to `n`. -/
def Move.target (n k : Nat) : Move → Option Nat
  | .increment => if k < n then some (k + 1) else none
  | .decrement => if k = 0 then none else some (k - 1)

theorem Move.target_le {n k k' : Nat} {m : Move} (hk : k ≤ n) (h : m.target n k = some k') :
    k' ≤ n := by
  cases m with
  | increment =>
    simp only [Move.target, Option.ite_none_right_eq_some, Option.some.injEq] at h
    omega
  | decrement =>
    simp only [Move.target, Option.ite_none_left_eq_some, Option.some.injEq] at h
    omega

theorem Move.foldlM_target_le {n k k' : Nat} {moves : List Move} (hk : k ≤ n)
    (h : moves.foldlM (Move.target n) k = some k') : k' ≤ n := by
  induction moves generalizing k with
  | nil =>
    obtain rfl := Option.some.inj h
    exact hk
  | cons m moves ih =>
    rw [List.foldlM_cons, Option.bind_eq_bind, Option.bind_eq_some_iff] at h
    obtain ⟨k₁, htarget, hmoves⟩ := h
    exact ih (Move.target_le hk htarget) hmoves

namespace Range

variable {R : Range}

/-- A move of an iterator is one of its index. -/
theorem move_iterator {k : Nat} (hk : k ≤ R.text.length) (m : Move) :
    (R.iterator k).move R.buffer m =
      match m.target R.text.length k with
      | some k' => .ok (R.iterator k')
      | none => .error .notEnoughRoom := by
  cases m with
  | increment =>
    by_cases hlt : k < R.text.length
    · simp only [Iterator.move, Move.target, hlt, ↓reduceIte]
      exact increment_iterator hlt
    · obtain rfl : k = R.text.length := by omega
      simp only [Iterator.move, Move.target, Nat.lt_irrefl, ↓reduceIte]
      exact increment_end
  | decrement =>
    cases k with
    | zero => exact decrement_start
    | succ k => exact decrement_iterator hk

/-- A sequence of moves of an iterator is one of its index. -/
theorem walk_iterator {k : Nat} (hk : k ≤ R.text.length) (moves : List Move) :
    (R.iterator k).walk R.buffer moves =
      match moves.foldlM (Move.target R.text.length) k with
      | some k' => .ok (R.iterator k')
      | none => .error .notEnoughRoom := by
  induction moves generalizing k with
  | nil => rfl
  | cons m moves ih =>
    rw [Iterator.walk, List.foldlM_cons, move_iterator hk, List.foldlM_cons]
    cases htarget : m.target R.text.length k with
    | none => rfl
    | some k' => exact ih (Move.target_le hk htarget)

/-- An iterator that is constructed at a code point, or at the end, of well-formed text and then
    moved in any way stands at the code point that the moves count to, compares equal to no
    iterator to another one, and delivers it. A move out of the range throws. -/
theorem walk_spec (R : Range) {k : Nat} (hk : k ≤ R.text.length) (moves : List Move) :
    ∃ i, Iterator.make (R.before.length + R.offset k) R.before.length
        (R.before.length + (Utf8.encode R.text).length) = .ok i ∧
      match moves.foldlM (Move.target R.text.length) k with
      | none => i.walk R.buffer moves = .error .notEnoughRoom
      | some k' => ∃ i', i.walk R.buffer moves = .ok i' ∧
          (∀ j, j ≤ R.text.length → (R.iterator j).equals i' = .ok (decide (j = k'))) ∧
          i'.deref R.buffer =
            if h : k' < R.text.length then .ok R.text[k'].val else .error .notEnoughRoom := by
  refine ⟨R.iterator k, make_iterator k, ?_⟩
  have hwalk := walk_iterator hk moves
  cases htarget : moves.foldlM (Move.target R.text.length) k with
  | none =>
    rw [htarget] at hwalk
    exact hwalk
  | some k' =>
    have hk' := Move.foldlM_target_le hk htarget
    rw [htarget] at hwalk
    refine ⟨R.iterator k', hwalk, fun j hj => equals_iterator hj hk', ?_⟩
    by_cases hlt : k' < R.text.length
    · rw [dif_pos hlt, deref_iterator hlt]
    · obtain rfl : k' = R.text.length := by omega
      rw [dif_neg hlt, deref_end]

end Range

/-- Three code points of one, two and three octets, gone over to the end and back by one. -/
theorem Range.walk_spec_back : ∃ i, Iterator.make 1 1 7 = .ok i ∧ ∃ i',
    i.walk [0x80, 0x61, 0xc3, 0xa4, 0xe2, 0x82, 0xac] [.increment, .increment, .increment,
      .decrement] = .ok i' ∧
    i'.deref [0x80, 0x61, 0xc3, 0xa4, 0xe2, 0x82, 0xac] = .ok 0x20ac := by
  obtain ⟨i, hi, i', hwalk, -, hderef⟩ := Range.walk_spec
    { before := [0x80], text := ['a', 'ä', '€'], after := [] } (Nat.zero_le _)
    [.increment, .increment, .increment, .decrement]
  exact ⟨i, hi, i', hwalk, hderef⟩

/-! ## `advance` -/

section Advance

variable {R : Range} {j k : Nat}

/-- Forward from a code point of the range, up to its end. -/
theorem nextAt_iterator (hk : k < R.text.length) :
    nextAt R.buffer (R.iterator k).it (R.iterator j).rangeEnd =
      .ok (R.text[k].val, (R.iterator (k + 1)).it) := by
  have hle : (R.iterator k).it ≤ (R.iterator j).rangeEnd :=
    Nat.add_le_add_left (R.offset_le k) _
  have hnext : next ((R.buffer.take (R.iterator j).rangeEnd).drop (R.iterator k).it) = _ :=
    R.next_ahead hk
  have hrest : (R.iterator j).rangeEnd - (Utf8.encode (R.text.drop (k + 1))).length =
      (R.iterator (k + 1)).it := by
    simp only [Range.iterator, Range.offset, Range.encode_split (R := R) (k + 1),
      List.length_append]
    omega
  simp only [nextAt, if_pos hle, hnext, hrest]

theorem nextAt_end : nextAt R.buffer (R.iterator R.text.length).it (R.iterator j).rangeEnd =
    .error (.throws .notEnoughRoom) := by
  have hle : (R.iterator R.text.length).it ≤ (R.iterator j).rangeEnd :=
    Nat.add_le_add_left (R.offset_le _) _
  have hnext : next ((R.buffer.take (R.iterator j).rangeEnd).drop
      (R.iterator R.text.length).it) = _ := R.next_ahead_end
  simp only [nextAt, if_pos hle, hnext]

/-- With the start ahead of it, going back is going back in what comes after the start. -/
theorem priorLeadAt_append (before buffer : Bytes) (it : Nat) :
    priorLeadAt (before ++ buffer) before.length (before.length + it + 1) =
      ((priorLead buffer it).map (before.length + ·)).mapError .throws := by
  have hget : ∀ i, (before ++ buffer).getD (before.length + i) 0 = buffer.getD i 0 := by
    intro i
    rw [List.getD_eq_getElem?_getD, List.getElem?_append_right (Nat.le_add_right _ _),
      Nat.add_sub_cancel_left, List.getD_eq_getElem?_getD]
  induction it with
  | zero =>
    have hfirst : (before ++ buffer).getD before.length 0 = buffer.getD 0 0 := hget 0
    rw [priorLeadAt, priorLead, hfirst, if_pos rfl]
    split <;> rfl
  | succ it ih =>
    have hne : ¬ before.length + (it + 1) = before.length := by omega
    rw [priorLeadAt, priorLead, hget, if_neg hne]
    split
    · exact ih
    · rfl

theorem priorAt_append (before buffer : Bytes) (it : Nat) :
    priorAt (before ++ buffer) (before.length + it) before.length =
      ((prior buffer it).map fun r => (r.1, before.length + r.2)).mapError .throws := by
  cases it with
  | zero =>
    rw [priorAt, if_pos (Nat.add_zero _), prior, if_pos rfl]
    rfl
  | succ it =>
    have hslice : ∀ lead, ((before ++ buffer).take (before.length + (it + 1))).drop
        (before.length + lead) = (buffer.take (it + 1)).drop lead := by
      intro lead
      rw [List.take_length_add_append, List.drop_length_add_append]
    rw [priorAt, if_neg (by omega), ← Nat.add_assoc, priorLeadAt_append, prior,
      if_neg (Nat.succ_ne_zero it), Nat.add_sub_cancel]
    cases hlead : priorLead buffer it with
    | error e => rfl
    | ok lead =>
      simp only [Except.map, Except.mapError, bind, Except.bind, pure, Except.pure, hslice,
        Nat.add_assoc]
      cases peekNext ((buffer.take (it + 1)).drop lead) <;> rfl

/-- Back from a code point of the range, or from its end, down to its start. -/
theorem priorAt_iterator (hk : k < R.text.length) :
    priorAt R.buffer (R.iterator (k + 1)).it (R.iterator j).rangeStart =
      .ok (R.text[k].val, (R.iterator k).it) := by
  have hprior := priorAt_append R.before (Utf8.encode R.text ++ R.after) (R.offset (k + 1))
  rw [R.prior_offset hk] at hprior
  exact hprior

theorem priorAt_start : priorAt R.buffer (R.iterator 0).it (R.iterator j).rangeStart =
    .error (.throws .notEnoughRoom) := by
  simp only [priorAt, Range.iterator, Range.offset, List.take_zero, Utf8.encode_nil,
    List.length_nil, Nat.add_zero, if_pos]
  rfl

theorem advanceForward_iterator (hk : k ≤ R.text.length) (n : Nat) :
    advanceForward R.buffer (R.iterator j).rangeEnd n (R.iterator k).it =
      if k + n ≤ R.text.length then .ok (R.iterator (k + n)).it
      else .error (.throws .notEnoughRoom) := by
  induction n generalizing k with
  | zero => rw [advanceForward, Nat.add_zero, if_pos hk]
  | succ n ih =>
    rw [advanceForward]
    by_cases hlt : k < R.text.length
    · rw [nextAt_iterator hlt, ← Nat.add_assoc, Nat.add_right_comm]
      exact ih hlt
    · obtain rfl : k = R.text.length := by omega
      rw [nextAt_end, if_neg (by omega)]
      rfl

theorem advanceBackward_iterator (hk : k ≤ R.text.length) (n : Nat) :
    advanceBackward R.buffer (R.iterator j).rangeStart n (R.iterator k).it =
      if n ≤ k then .ok (R.iterator (k - n)).it else .error (.throws .notEnoughRoom) := by
  induction n generalizing k with
  | zero => rw [advanceBackward, if_pos (Nat.zero_le k), Nat.sub_zero]
  | succ n ih =>
    rw [advanceBackward]
    cases k with
    | zero =>
      rw [priorAt_start, if_neg (by omega)]
      rfl
    | succ k =>
      rw [priorAt_iterator hk, Nat.add_sub_add_right]
      simp only [Nat.add_le_add_iff_right]
      exact ih (Nat.le_of_lt hk)

/-- On a range of well-formed text `advance` adds to the index of a code point, in either
    direction, when it is given the limit of the range in this direction as its `end`, and throws
    where this leaves the range. -/
theorem advance_spec (R : Range) (hk : k ≤ R.text.length) (n : Int) :
    advance R.buffer (R.iterator k).it n
        (if n < 0 then (R.iterator k).rangeStart else (R.iterator k).rangeEnd) =
      if 0 ≤ k + n ∧ k + n ≤ R.text.length then .ok (R.iterator (k + n).toNat).it
      else .error (.throws .notEnoughRoom) := by
  unfold advance
  by_cases hn : n < 0
  · rw [if_pos hn, if_pos hn, advanceBackward_iterator hk]
    by_cases hin : n.natAbs ≤ k
    · rw [if_pos hin, if_pos (by omega), show (k + n).toNat = k - n.natAbs from by omega]
    · rw [if_neg hin, if_neg (by omega)]
  · rw [if_neg hn, if_neg hn, advanceForward_iterator hk]
    by_cases hin : k + n.toNat ≤ R.text.length
    · rw [if_pos hin, if_pos (by omega), show (k + n).toNat = k + n.toNat from by omega]
    · rw [if_neg hin, if_neg (by omega)]

end Advance

/-- From the second of two code points back to the first, and out of the text, and forward to its
    end. -/
theorem advance_spec_back :
    advance (Utf8.encode ['x', 'ä', 'b']) 3 (-1) 1 = .ok 1 ∧
    advance (Utf8.encode ['x', 'ä', 'b']) 3 (-2) 1 = .error (.throws .notEnoughRoom) ∧
    advance (Utf8.encode ['x', 'ä', 'b']) 3 1 4 = .ok 4 :=
  let R : Range := { before := Utf8.encode ['x'], text := ['ä', 'b'], after := [] }
  ⟨advance_spec R (k := 1) (by decide) (-1), advance_spec R (k := 1) (by decide) (-2),
    advance_spec R (k := 1) (by decide) 1⟩

/-! ## `distance` -/

theorem nextAt_append (before first : Bytes) :
    nextAt (before ++ first) before.length (before ++ first).length =
      match next first with
      | .ok (cp, rest) => .ok (cp, (before ++ first).length - rest.length)
      | .error e => .error (.throws e) := by
  have hle : before.length ≤ (before ++ first).length := by simp
  cases hnext : next first with
  | error e => simp only [nextAt, if_pos hle, List.take_length, List.drop_left, hnext]
  | ok out => simp only [nextAt, if_pos hle, List.take_length, List.drop_left, hnext]

/-- `advance` in the forward direction, on any octets. -/
theorem advanceForward_eq_ok {n : Nat} {before first : Bytes} {it : Nat} :
    advanceForward (before ++ first) (before ++ first).length n before.length = .ok it ↔
      ∃ cs rest, first = Utf8.encode cs ++ rest ∧ n = cs.length ∧
        it = (before ++ Utf8.encode cs).length := by
  induction n generalizing before first with
  | zero =>
    simp only [advanceForward, Except.ok.injEq]
    constructor
    · intro h
      exact ⟨[], first, rfl, rfl, by simp [h]⟩
    · intro h
      obtain ⟨cs, rest, rfl, hcs, rfl⟩ := h
      rw [List.length_eq_zero_iff.mp hcs.symm]
      simp
  | succ n ih =>
    -- a code point that has been read is added to what is before
    have hoffset : ∀ (c : Char) (rest : Bytes),
        (before ++ (String.utf8EncodeChar c ++ rest)).length - rest.length =
          (before ++ String.utf8EncodeChar c).length := by
      intro c rest
      simp only [List.length_append]
      omega
    rw [advanceForward, nextAt_append]
    constructor
    · intro h
      cases hnext : next first with
      | error e =>
        rw [hnext] at h
        exact nomatch h
      | ok out =>
        obtain ⟨cp, rest⟩ := out
        rw [hnext] at h
        have hrest : advanceForward (before ++ first) (before ++ first).length n
            ((before ++ first).length - rest.length) = .ok it := h
        obtain ⟨c, -, rfl⟩ := next_eq_ok hnext
        rw [hoffset, ← List.append_assoc] at hrest
        obtain ⟨cs, rest', rfl, rfl, rfl⟩ := ih.mp hrest
        exact ⟨c :: cs, rest', by rw [Utf8.encode_cons, List.append_assoc], rfl,
          by rw [Utf8.encode_cons, List.append_assoc]⟩
    · intro h
      obtain ⟨cs, rest, rfl, hcs, rfl⟩ := h
      cases cs with
      | nil => exact nomatch hcs
      | cons c cs =>
        have hnext := next_encode c (Utf8.encode cs ++ rest)
        rw [Utf8.encode_cons, List.append_assoc, hnext]
        show advanceForward _ _ n (_ - _) = _
        rw [hoffset, ← List.append_assoc]
        exact ih.mpr ⟨cs, rest, rfl, Nat.succ.inj hcs, by rw [Utf8.encode_cons, List.append_assoc]⟩

private theorem distanceBody_eq :
    distanceBody = Code.body next (fun dist _ => (.ok (dist + 1) : Except Exception Nat)) := by
  funext s
  simp only [distanceBody, Code.body, Run.ofExcept_ok, Run.returns_bind]

theorem distance_eq_returns {first : Bytes} {n : Nat} :
    distance first = .returns n ↔ ∃ cs, first = Utf8.encode cs ∧ n = cs.length := by
  have hcount : ∀ cs : List Char, cs.foldl (fun dist _ => dist + 1) 0 = cs.length := by
    intro cs
    simp
  have hloop : ∀ s, Run.loop (Code.body next fun dist _ => .ok (dist + 1)) (first.length + 1)
      (first, 0) = .returns s ↔
        ∃ cs, first = utf8Code.text cs ∧ s = ([], cs.foldl (fun dist _ => dist + 1) 0) :=
    fun s => @Code.loop_returns_iff _ _ _ _ _ utf8Code next (fun dist _ => .ok (dist + 1))
      next_reads next_only (fun dist _ => dist + 1) (fun _ _ => rfl) first 0 s
  rw [distance, distanceBody_eq]
  constructor
  · intro h
    obtain ⟨s, hs, hn⟩ := Run.bind_eq_returns h
    obtain ⟨cs, hfirst, rfl⟩ := (hloop s).mp hs
    exact ⟨cs, hfirst, by rw [← Run.returns.inj hn, hcount]⟩
  · intro h
    obtain ⟨cs, hfirst, rfl⟩ := h
    rw [(hloop _).mpr ⟨cs, hfirst, rfl⟩, hcount]
    rfl

/-- In front of a malformed sequence `distance` throws. -/
theorem distance_throws {first : Bytes} (h : ¬ Utf8.WellFormed first) :
    ∃ e, distance first = .throws e := by
  obtain ⟨cs, rest, rfl, hstops⟩ := Code.exists_split next_only first
  have hrest : rest ≠ [] := by
    rintro rfl
    exact h ⟨cs, List.append_nil _⟩
  obtain ⟨e, he⟩ := hstops.resolve_left hrest
  have hle : cs.length ≤ (utf8Code.text cs).length := Code.length_le_length_text cs
  have hloop : Run.loop (Code.body next fun dist _ => .ok (dist + 1))
      ((utf8Code.text cs ++ rest).length + 1) (utf8Code.text cs ++ rest, 0) = .throws e :=
    @Code.loop_stops _ _ _ _ _ utf8Code next (fun dist _ => .ok (dist + 1)) next_reads
      (fun dist _ => dist + 1) (fun _ _ => rfl) cs 0 rest e hrest he _
      (by rw [List.length_append]; omega)
  refine ⟨e, ?_⟩
  rw [distance, distanceBody_eq, hloop]
  rfl

/-- `distance` is the number of steps that `advance` takes from the beginning to the end. It
    returns a number exactly on well-formed octets, and throws on all others. -/
theorem distance_iff (first : Bytes) :
    (∀ n : Nat, distance first = .returns n ↔
      advance first 0 n first.length = .ok first.length) ∧
    ((∃ n, distance first = .returns n) ↔ Utf8.WellFormed first) ∧
    ((∃ e, distance first = .throws e) ↔ ¬ Utf8.WellFormed first) := by
  have hreturns : (∃ n, distance first = .returns n) ↔ Utf8.WellFormed first := by
    simp only [distance_eq_returns]
    constructor
    · intro h
      obtain ⟨n, cs, rfl, -⟩ := h
      exact ⟨cs, rfl⟩
    · intro h
      obtain ⟨cs, rfl⟩ := h
      exact ⟨_, cs, rfl, rfl⟩
  refine ⟨?_, hreturns, ?_, distance_throws⟩
  · intro n
    have hnonneg : ¬ (n : Int) < 0 := by omega
    have hforward := @advanceForward_eq_ok n [] first first.length
    rw [List.nil_append] at hforward
    rw [distance_eq_returns, advance, if_neg hnonneg, Int.toNat_natCast]
    refine Iff.trans ?_ hforward.symm
    constructor
    · intro h
      obtain ⟨cs, rfl, rfl⟩ := h
      exact ⟨cs, [], (List.append_nil _).symm, rfl, rfl⟩
    · intro h
      obtain ⟨cs, rest, rfl, rfl, hlength⟩ := h
      -- nothing is left in front of the end
      have hrest : rest = [] := by
        rw [List.nil_append, List.length_append] at hlength
        apply List.length_eq_zero_iff.mp
        omega
      exact ⟨cs, by rw [hrest, List.append_nil], rfl⟩
  · intro h hwell
    obtain ⟨e, he⟩ := h
    obtain ⟨n, hn⟩ := hreturns.mpr hwell
    cases he.symm.trans hn

end CcJson.Utf8Cpp
