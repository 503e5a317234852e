import Mathlib.Data.List.Infix

/-!
# Replacing the occurrences of a pattern

What it means to replace the leftmost occurrence of a pattern in a text, or every one that is found
from left to right when the search goes on behind the one before. The relation says it by where the
occurrences begin; `replace` finds them in one pass over the text.

## Main results

- `replaced_iff`: the pass and the relation agree.
- `replace_single`, `replace_once`: a pattern of one element is replaced element by element.
- `length_replace`: how long the result is.
- `replace_append_every`: parts with no occurrence across their border are edited one by one.
-/

namespace Replace

variable {α : Type}

/-- No occurrence begins before the one between the two parts. -/
def Leftmost (pattern before after : List α) : Prop :=
  ∀ k < before.length, ¬pattern <+: (before ++ pattern ++ after).drop k

/-- The text with its leftmost occurrence replaced, or with `every` one. The empty pattern occurs
nowhere. -/
inductive Replaced (pattern replacement : List α) : (every : Bool) → List α → List α → Prop where
  | nowhere {every : Bool} {text : List α} (absent : pattern = [] ∨ ¬pattern <:+: text) :
      Replaced pattern replacement every text text
  | first {before after : List α} (some_ : pattern ≠ []) (leftmost : Leftmost pattern before after) :
      Replaced pattern replacement false (before ++ pattern ++ after)
        (before ++ replacement ++ after)
  | next {before after result : List α} (some_ : pattern ≠ [])
      (leftmost : Leftmost pattern before after)
      (rest : Replaced pattern replacement true after result) :
      Replaced pattern replacement true (before ++ pattern ++ after)
        (before ++ replacement ++ result)

variable [DecidableEq α]

/-- The pass over a text, which first drops what is left of an occurrence. -/
def scan (pattern replacement : List α) (every : Bool) : (skip : Nat) → List α → List α
  | _, [] => []
  | skip + 1, _ :: text => scan pattern replacement every skip text
  | 0, c :: text =>
    if pattern <+: c :: text then
      if every then replacement ++ scan pattern replacement every (pattern.length - 1) text
      else replacement ++ (c :: text).drop pattern.length
    else c :: scan pattern replacement every 0 text

def replace (pattern replacement : List α) (every : Bool) (text : List α) : List α :=
  if pattern = [] then text else scan pattern replacement every 0 text

/-- How many occurrences the same pass replaces. -/
def countFrom (pattern : List α) (every : Bool) : (skip : Nat) → List α → Nat
  | _, [] => 0
  | skip + 1, _ :: text => countFrom pattern every skip text
  | 0, c :: text =>
    if pattern <+: c :: text then
      if every then countFrom pattern every (pattern.length - 1) text + 1 else 1
    else countFrom pattern every 0 text

def count (pattern : List α) (every : Bool) (text : List α) : Nat :=
  if pattern = [] then 0 else countFrom pattern every 0 text

variable {pattern replacement before after text : List α} {every : Bool}

theorem scan_skip (skip : Nat) (text : List α) :
    scan pattern replacement every skip text = scan pattern replacement every 0 (text.drop skip) := by
  induction skip generalizing text with
  | zero => rfl
  | succ skip ih =>
    cases text with
    | nil => rfl
    | cons c text => exact ih text

/-! ### What the pass does at a place -/

@[simp] theorem replace_nil : replace pattern replacement every [] = [] := by
  rw [replace]
  split <;> rfl

@[simp] theorem replace_empty : replace [] replacement every text = text := if_pos rfl

theorem replace_cons {c : α} (other : ¬pattern <+: c :: text) :
    replace pattern replacement every (c :: text) = c :: replace pattern replacement every text := by
  have some_ : pattern ≠ [] := by
    rintro rfl
    exact other List.nil_prefix
  rw [replace, if_neg some_, scan, if_neg other, replace, if_neg some_]

theorem replace_first (some_ : pattern ≠ []) :
    replace pattern replacement false (pattern ++ after) = replacement ++ after := by
  obtain ⟨c, rest, rfl⟩ := List.exists_cons_of_ne_nil some_
  have here : c :: rest <+: c :: (rest ++ after) := List.prefix_append (c :: rest) after
  rw [replace, if_neg some_, List.cons_append, scan, if_pos here, if_neg Bool.false_ne_true,
    ← List.cons_append, List.drop_left]

theorem replace_next (some_ : pattern ≠ []) :
    replace pattern replacement true (pattern ++ after) =
      replacement ++ replace pattern replacement true after := by
  obtain ⟨c, rest, rfl⟩ := List.exists_cons_of_ne_nil some_
  have here : c :: rest <+: c :: (rest ++ after) := List.prefix_append (c :: rest) after
  rw [replace, if_neg some_, List.cons_append, scan, if_pos here, if_pos rfl, scan_skip, replace,
    if_neg some_]
  -- What is left of the occurrence is dropped
  rw [List.length_cons, Nat.add_sub_cancel, List.drop_left]

/-! ### The occurrences -/

omit [DecidableEq α] in
theorem Leftmost.tail {c : α} (h : Leftmost pattern (c :: before) after) :
    Leftmost pattern before after := fun k hk => h (k + 1) (Nat.succ_lt_succ hk)

/-- What stands before the leftmost occurrence is passed over. -/
theorem replace_leftmost (leftmost : Leftmost pattern before after) :
    replace pattern replacement every (before ++ pattern ++ after) =
      before ++ replace pattern replacement every (pattern ++ after) := by
  induction before with
  | nil => rfl
  | cons c before ih =>
    have other : ¬pattern <+: c :: (before ++ pattern ++ after) := leftmost 0 (Nat.succ_pos _)
    rw [List.cons_append, List.cons_append, replace_cons other, ih leftmost.tail, List.cons_append]

theorem replace_absent (absent : ¬pattern <:+: text) :
    replace pattern replacement every text = text := by
  induction text with
  | nil => exact replace_nil
  | cons c text ih =>
    rw [List.infix_cons_iff, not_or] at absent
    rw [replace_cons absent.1, ih absent.2]

/-- A text with an occurrence has a leftmost one. -/
theorem exists_leftmost (occurs : pattern <:+: text) :
    ∃ before after, text = before ++ pattern ++ after ∧ Leftmost pattern before after := by
  induction text with
  | nil =>
    rw [List.infix_nil] at occurs
    exact ⟨[], [], by simp [occurs], nofun⟩
  | cons c text ih =>
    by_cases here : pattern <+: c :: text
    · obtain ⟨after, same⟩ := here
      exact ⟨[], after, same.symm, nofun⟩
    · obtain ⟨before, after, rfl, leftmost⟩ := ih ((List.infix_cons_iff.mp occurs).resolve_left here)
      refine ⟨c :: before, after, rfl, fun k hk => ?_⟩
      cases k with
      | zero => exact here
      | succ k => exact leftmost k (Nat.lt_of_succ_lt_succ hk)

theorem replaced_replace (pattern replacement : List α) (every : Bool) (text : List α) :
    Replaced pattern replacement every text (replace pattern replacement every text) := by
  by_cases none : pattern = []
  · subst none
    rw [replace_empty]
    exact .nowhere (.inl rfl)
  -- The text behind an occurrence is shorter
  induction length : text.length using Nat.strong_induction_on generalizing text with
  | h n ih =>
    by_cases occurs : pattern <:+: text
    · obtain ⟨before, after, rfl, leftmost⟩ := exists_leftmost occurs
      rw [replace_leftmost leftmost]
      cases every with
      | false =>
        rw [replace_first none, ← List.append_assoc]
        exact .first none leftmost
      | true =>
        have some_ : 0 < pattern.length := List.length_pos_iff.mpr none
        rw [replace_next none, ← List.append_assoc]
        refine .next none leftmost (ih after.length ?_ after rfl)
        simp only [List.length_append] at length
        omega
    · rw [replace_absent occurs]
      exact .nowhere (.inr occurs)

/-- The relation determines the result, and the pass computes it. -/
theorem replaced_iff {result : List α} :
    Replaced pattern replacement every text result ↔
      result = replace pattern replacement every text := by
  constructor
  · intro h
    induction h with
    | nowhere absent =>
      rcases absent with rfl | absent
      · rw [replace_empty]
      · rw [replace_absent absent]
    | first some_ leftmost =>
      rw [replace_leftmost leftmost, replace_first some_, List.append_assoc]
    | next some_ leftmost rest ih =>
      rw [replace_leftmost leftmost, replace_next some_, ih, List.append_assoc]
  · rintro rfl
    exact replaced_replace pattern replacement every text

/-! ### Special patterns -/

omit [DecidableEq α] in
theorem Replaced.same {result : List α} (h : Replaced pattern replacement every text result)
    (equal : replacement = pattern) : result = text := by
  subst equal
  induction h with
  | nowhere absent => rfl
  | first some_ leftmost => rfl
  | next some_ leftmost rest ih => rw [ih]

theorem replace_same (pattern : List α) (every : Bool) (text : List α) :
    replace pattern pattern every text = text := (replaced_replace ..).same rfl

/-- The pattern itself. -/
theorem replace_self (some_ : pattern ≠ []) : replace pattern replacement every pattern = replacement := by
  cases every with
  | false => simpa using @replace_first α _ pattern replacement [] some_
  | true => simpa using @replace_next α _ pattern replacement [] some_

theorem replace_single (c : α) (replacement text : List α) :
    replace [c] replacement true text =
      text.flatMap fun x => if x = c then replacement else [x] := by
  induction text with
  | nil => exact replace_nil
  | cons x text ih =>
    rw [List.flatMap_cons, ← ih]
    by_cases here : x = c
    · subst here
      rw [if_pos rfl]
      exact replace_next (List.cons_ne_nil x [])
    · rw [if_neg here, replace_cons fun h => here (List.cons_prefix_cons.mp h).1.symm]
      rfl

theorem replace_once {c : α} {replacement text : List α} (once : text.count c ≤ 1) :
    replace [c] replacement false text =
      text.flatMap fun x => if x = c then replacement else [x] := by
  induction text with
  | nil => exact replace_nil
  | cons x text ih =>
    rw [List.flatMap_cons]
    by_cases here : x = c
    · subst here
      have later : x ∉ text := by
        rw [List.count_cons_self] at once
        exact List.count_eq_zero.mp (Nat.le_zero.mp (Nat.le_of_succ_le_succ once))
      have rest : (text.flatMap fun y => if y = x then replacement else [y]) = text := by
        rw [List.flatMap_congr fun y hy => if_neg (ne_of_mem_of_not_mem hy later)]
        exact List.flatMap_singleton' text
      rw [if_pos rfl, rest]
      exact replace_first (List.cons_ne_nil x [])
    · rw [List.count_cons_of_ne here] at once
      rw [if_neg here, replace_cons fun h => here (List.cons_prefix_cons.mp h).1.symm, ih once]
      rfl

/-! ### The length of the result -/

theorem length_scan (some_ : pattern ≠ []) (skip : Nat) (text : List α) :
    (scan pattern replacement every skip text).length +
        countFrom pattern every skip text * pattern.length =
      (text.drop skip).length + countFrom pattern every skip text * replacement.length := by
  induction text generalizing skip with
  | nil => cases skip <;> simp [scan, countFrom]
  | cons c text ih =>
    cases skip with
    | succ skip => exact ih skip
    | zero =>
      rw [scan, countFrom]
      by_cases here : pattern <+: c :: text
      · have size := List.length_pos_iff.mpr some_
        have fits := here.length_le
        rw [List.length_cons] at fits
        rw [if_pos here, if_pos here]
        cases every with
        | true =>
          have later := ih (pattern.length - 1)
          rw [List.length_drop] at later
          simp only [if_true, List.length_append, List.drop_zero, List.length_cons, Nat.add_mul,
            Nat.one_mul]
          omega
        | false =>
          simp only [Bool.false_eq_true, if_false, List.length_append, List.drop_zero,
            List.length_drop, List.length_cons, Nat.one_mul]
          omega
      · have later := ih 0
        rw [List.drop_zero] at later
        rw [if_neg here, if_neg here, List.drop_zero, List.length_cons, List.length_cons]
        omega

/-- Every occurrence replaced gives its place to a replacement. -/
theorem length_replace (pattern replacement : List α) (every : Bool) (text : List α) :
    (replace pattern replacement every text).length + count pattern every text * pattern.length =
      text.length + count pattern every text * replacement.length := by
  rw [replace, count]
  split
  · simp
  next some_ => exact length_scan some_ 0 text

theorem length_replace_once (some_ : pattern ≠ []) (occurs : pattern <:+: text) :
    (replace pattern replacement false text).length + pattern.length =
      text.length + replacement.length := by
  obtain ⟨before, after, rfl, leftmost⟩ := exists_leftmost occurs
  rw [replace_leftmost leftmost, replace_first some_]
  simp only [List.length_append]
  omega

/-! ### Cuts -/

/-- No occurrence of the pattern lies across the cut between the two parts. -/
def NotAcross (pattern part rest : List α) : Prop :=
  ∀ front back, pattern = front ++ back → front ≠ [] → back ≠ [] → front <:+ part → ¬back <+: rest

omit [DecidableEq α] in
theorem NotAcross.suffix {pattern part part' rest : List α} (h : NotAcross pattern part rest)
    (inside : part' <:+ part) : NotAcross pattern part' rest :=
  fun front back whole some_ some' ends => h front back whole some_ some' (ends.trans inside)

omit [DecidableEq α] in
/-- What begins in front of such a cut ends there, too. -/
theorem NotAcross.prefix_left {pattern part rest : List α} (h : NotAcross pattern part rest)
    (some_ : part ≠ []) (begins : pattern <+: part ++ rest) : pattern <+: part := by
  obtain ⟨later, same⟩ := begins
  rcases List.append_eq_append_iff.mp same with ⟨after, rfl, -⟩ | ⟨back, whole, rfl⟩
  · exact List.prefix_append pattern after
  · by_cases none_ : back = []
    · rw [whole, none_, List.append_nil]
    · have crossed := h part back whole some_ none_ (List.suffix_refl part)
      exact absurd (List.prefix_append back later) crossed

omit [DecidableEq α] in
theorem NotAcross.leftmost {pattern before after rest : List α}
    (h : NotAcross pattern (before ++ pattern ++ after) rest) (first : Leftmost pattern before after) :
    Leftmost pattern before (after ++ rest) := by
  intro k hk begins
  rw [← List.append_assoc, List.drop_append_of_le_length (by simp; omega)] at begins
  refine first k hk ((h.suffix (List.drop_suffix k _)).prefix_left ?_ begins)
  rw [Ne, List.drop_eq_nil_iff]
  simp
  omega

variable {part rest : List α}

theorem replace_append_absent (cut : NotAcross pattern part rest) (absent : ¬pattern <:+: part) :
    replace pattern replacement every (part ++ rest) =
      part ++ replace pattern replacement every rest := by
  induction part with
  | nil => rfl
  | cons c part ih =>
    rw [List.infix_cons_iff, not_or] at absent
    have other : ¬pattern <+: c :: (part ++ rest) :=
      fun begins => absent.1 (cut.prefix_left (List.cons_ne_nil c part) begins)
    rw [List.cons_append, replace_cons other, ih (cut.suffix (List.suffix_cons c part)) absent.2,
      List.cons_append]

theorem replace_append_once (some_ : pattern ≠ []) (cut : NotAcross pattern part rest)
    (occurs : pattern <:+: part) :
    replace pattern replacement false (part ++ rest) =
      replace pattern replacement false part ++ rest := by
  obtain ⟨before, after, rfl, leftmost⟩ := exists_leftmost occurs
  rw [List.append_assoc (before ++ pattern), replace_leftmost (cut.leftmost leftmost),
    replace_leftmost leftmost, replace_first some_, replace_first some_]
  simp

theorem replace_append_every (cut : NotAcross pattern part rest) :
    replace pattern replacement true (part ++ rest) =
      replace pattern replacement true part ++ replace pattern replacement true rest := by
  by_cases none_ : pattern = []
  · simp [none_]
  induction length : part.length using Nat.strong_induction_on generalizing part with
  | h n ih =>
    by_cases occurs : pattern <:+: part
    · obtain ⟨before, after, rfl, leftmost⟩ := exists_leftmost occurs
      have some_ := List.length_pos_iff.mpr none_
      have shorter : after.length < n := by simp at length; omega
      have later := ih after.length shorter (cut.suffix (List.suffix_append _ after)) rfl
      rw [List.append_assoc (before ++ pattern), replace_leftmost (cut.leftmost leftmost),
        replace_leftmost leftmost, replace_next none_, replace_next none_, later]
      simp
    · rw [replace_append_absent cut occurs, replace_absent occurs]

/-- A pattern that occurs leaves a trace, unless it is replaced by itself. -/
theorem replace_ne (some_ : pattern ≠ []) (other : replacement ≠ pattern) (occurs : pattern <:+: text) :
    replace pattern replacement every text ≠ text := by
  obtain ⟨before, after, rfl, leftmost⟩ := exists_leftmost occurs
  rw [replace_leftmost leftmost, List.append_assoc]
  intro same
  have same := List.append_cancel_left same
  cases every with
  | false =>
    rw [replace_first some_] at same
    exact other (List.append_cancel_right same)
  | true =>
    rw [replace_next some_] at same
    have lengths := congrArg List.length same
    have later := length_replace pattern replacement true after
    rw [List.length_append, List.length_append] at lengths
    -- The rest cannot make up for a difference in length, since it changes the same way
    have equal : replacement.length = pattern.length := by
      rcases Nat.lt_trichotomy replacement.length pattern.length with less | equal | more
      · have := Nat.mul_le_mul_left (count pattern true after) less.le
        omega
      · exact equal
      · have := Nat.mul_le_mul_left (count pattern true after) more.le
        omega
    exact other (List.append_inj_left same equal)

omit [DecidableEq α] in
theorem length_flatMap_mono {parts : List (List α)} {f g : List α → List α}
    (le : ∀ part, (f part).length ≤ (g part).length) :
    (parts.flatMap f).length ≤ (parts.flatMap g).length := by
  induction parts with
  | nil => exact Nat.le_refl _
  | cons part parts ih =>
    rw [List.flatMap_cons, List.flatMap_cons, List.length_append, List.length_append]
    exact Nat.add_le_add (le part) ih

/-- A replacement changes the lengths of all parts the same way, so no part makes up for another. -/
theorem replace_parts_same {parts : List (List α)}
    (same : parts.flatMap (replace pattern replacement every) = parts.flatten) :
    ∀ part ∈ parts, replace pattern replacement every part = part := by
  have lengths := fun part => length_replace pattern replacement every part
  have oneWay : (∀ part, (replace pattern replacement every part).length ≤ (id part).length) ∨
      ∀ part, (id part).length ≤ (replace pattern replacement every part).length := by
    rcases Nat.le_total replacement.length pattern.length with less | more
    · refine .inl fun part => ?_
      have := Nat.mul_le_mul_left (count pattern every part) less
      have := lengths part
      simp only [id_eq]
      omega
    · refine .inr fun part => ?_
      have := Nat.mul_le_mul_left (count pattern every part) more
      have := lengths part
      simp only [id_eq]
      omega
  rw [← List.flatMap_id] at same
  induction parts with
  | nil => simp
  | cons part parts ih =>
    rw [List.flatMap_cons, List.flatMap_cons] at same
    have sums := congrArg List.length same
    rw [List.length_append, List.length_append] at sums
    have equal : (replace pattern replacement every part).length = (id part).length := by
      rcases oneWay with less | more
      · have first := less part
        have later := @length_flatMap_mono _ parts _ _ less
        omega
      · have first := more part
        have later := @length_flatMap_mono _ parts _ _ more
        omega
    obtain ⟨first, later⟩ := List.append_inj same equal
    exact List.forall_mem_cons.mpr ⟨first, ih later⟩

end Replace
