import Smultron.Userspace.Shell

/-!
# The stages of a compound command

The first loop of `dispatch_compound_tokens` cuts the tokens at the pipes. It accepts exactly the
commands of one to four stages of which none is empty, and hands on the ranges of those stages.
-/

namespace Smultron.Shell

open Checked Checked.Outcome List

/-- The tokens between the pipes. -/
def stageGroups (tokens : List Token) : List (List Token) := tokens.splitOnP (·.kind == .pipe)

/-- A stage is missing, or there is one too many. -/
def BadStages (groups : List (List Token)) : Prop := maxPipeStages < groups.length ∨ [] ∈ groups

/-- The tokens a range stands for. -/
def tokensAt (tokens : List Token) (range : Nat × Nat) : Outcome Bytes (List Token) :=
  slice tokens range.1 range.2

/-- The first of the ranges that are left, with its tokens, and the ranges behind it. -/
theorem slices_cons {tokens : List Token} {range : Nat × Nat} {ranges : List (Nat × Nat)}
    {groups : List (List Token)}
    (slices : (range :: ranges).map (tokensAt tokens) = groups.map .ok) :
    ∃ group groups', groups = group :: groups' ∧ tokensAt tokens range = .ok group ∧
      ranges.map (tokensAt tokens) = groups'.map .ok ∧ ranges.isEmpty = groups'.isEmpty := by
  obtain ⟨group, groups', rfl, at_, rest⟩ := List.map_eq_cons_iff.mp slices.symm
  have alone : ranges.isEmpty = groups'.isEmpty := by
    rw [← List.isEmpty_map, ← rest, List.isEmpty_map]
  exact ⟨group, groups', rfl, at_.symm, rest.symm, alone⟩

theorem closeStage_cases (stages : List (Nat × Nat)) (start i : Nat) :
    (∃ e, closeStage stages start i = .err e ∧ (maxPipeStages ≤ stages.length ∨ start = i)) ∨
      (stages.length < maxPipeStages ∧ start ≠ i ∧
        closeStage stages start i = .ok (stages ++ [(start, i)])) := by
  unfold closeStage errIf
  by_cases many : maxPipeStages ≤ stages.length
  · exact .inl ⟨_, by rw [if_pos many, err_bind], .inl many⟩
  · by_cases empty : start = i
    · exact .inl ⟨_, by rw [if_neg many, if_pos empty, ok_bind, err_bind], .inr empty⟩
    · have room := Nat.not_le.mp many
      exact .inr ⟨room, empty, by rw [if_neg many, if_neg empty, ok_bind, ok_bind, push_of_lt room]⟩

/-- The range of the current stage, whose tokens `cur` (the last one first) stand behind `pre`. -/
theorem tokensAt_range (pre cur rest : List Token) :
    tokensAt (pre ++ cur.reverse ++ rest) (pre.length, pre.length + cur.length) =
      .ok cur.reverse := by
  have stop : pre.length + cur.length = (pre ++ cur.reverse).length := by simp
  have inside : pre.length + cur.length ≤ (pre ++ cur.reverse ++ rest).length := by simp
  rw [tokensAt, slice_of_le (by omega) inside, stop, List.take_left, List.drop_left]

theorem range_empty (pre cur : List Token) :
    pre.length = pre.length + cur.length ↔ [] = cur.reverse := by
  rw [eq_comm (a := []), List.reverse_eq_nil_iff, ← List.length_eq_zero_iff]
  omega

/-- The loop from a token on: it stops with an error, or the ranges it adds are those of the stages
that are left. -/
theorem splitFrom_cases (rest pre cur : List Token) (stages : List (Nat × Nat))
    (few : stages.length ≤ maxPipeStages) :
    let groups := List.splitOnPPrepend (·.kind == .pipe) rest cur
    (∃ e, splitFrom rest (pre.length + cur.length) pre.length stages = .err e ∧
      (maxPipeStages < stages.length + groups.length ∨ [] ∈ groups)) ∨
    ∃ new, splitFrom rest (pre.length + cur.length) pre.length stages = .ok (stages ++ new) ∧
      stages.length + new.length ≤ maxPipeStages ∧ [] ∉ groups ∧
      new.map (tokensAt (pre ++ cur.reverse ++ rest)) = groups.map .ok := by
  -- `pre` ends where the current stage starts, and `cur` holds the tokens of that stage.
  induction rest generalizing pre cur stages with
  | nil =>
    rw [List.splitOnPPrepend_nil, splitFrom]
    rcases closeStage_cases stages pre.length (pre.length + cur.length) with
      ⟨e, failed, why⟩ | ⟨room, some, closed⟩
    · refine .inl ⟨e, failed, why.imp Nat.lt_succ_of_le fun none => ?_⟩
      exact List.mem_singleton.mpr ((range_empty pre cur).mp none)
    · refine .inr ⟨_, closed, room, ?_, ?_⟩
      · rwa [List.mem_singleton, ← range_empty pre cur]
      · rw [List.map_singleton, List.map_singleton, tokensAt_range]
  | cons t rest ih =>
    by_cases isPipe : t.kind = .pipe
    · have groups : List.splitOnPPrepend (·.kind == .pipe) (t :: rest) cur =
          cur.reverse :: List.splitOnPPrepend (·.kind == .pipe) rest [] :=
        List.splitOnPPrepend_cons_pos (by simpa using isPipe)
      rw [groups, splitFrom, if_pos isPipe]
      rcases closeStage_cases stages pre.length (pre.length + cur.length) with
        ⟨e, failed, why⟩ | ⟨room, some, closed⟩
      · rw [failed, err_bind]
        refine .inl ⟨e, rfl, why.imp (fun many => ?_) fun none => ?_⟩
        · rw [List.length_cons]
          omega
        · rw [(range_empty pre cur).mp none]
          exact List.mem_cons_self
      · -- The stage is closed, and the next one starts behind the pipe
        rw [closed, ok_bind]
        have behind : (pre ++ cur.reverse ++ [t]).length = pre.length + cur.length + 1 := by
          simp [Nat.add_assoc]
        have whole : pre ++ cur.reverse ++ [t] ++ List.reverse [] ++ rest =
            pre ++ cur.reverse ++ t :: rest := by simp
        have next := ih (pre ++ cur.reverse ++ [t]) []
          (stages ++ [(pre.length, pre.length + cur.length)])
          (by rw [List.length_append]; exact room)
        rw [behind, whole, List.length_append, List.length_singleton, List.length_nil, Nat.add_zero]
          at next
        rcases next with ⟨e, failed, why⟩ | ⟨new, ended, few', none, slices⟩
        · refine .inl ⟨e, failed, why.imp (fun many => ?_) (List.mem_cons_of_mem _)⟩
          rw [List.length_cons]
          omega
        · refine .inr ⟨(pre.length, pre.length + cur.length) :: new, ?_, ?_, ?_, ?_⟩
          · rw [ended, List.append_assoc, List.singleton_append]
          · rw [List.length_cons]
            omega
          · rw [List.mem_cons, ← range_empty pre cur]
            exact not_or.mpr ⟨some, none⟩
          · rw [List.map_cons, List.map_cons, tokensAt_range, slices]
    · -- The stage goes on
      have groups : List.splitOnPPrepend (·.kind == .pipe) (t :: rest) cur =
          List.splitOnPPrepend (·.kind == .pipe) rest (t :: cur) :=
        List.splitOnPPrepend_cons_neg (by simpa using isPipe)
      rw [groups, splitFrom, if_neg isPipe]
      simpa [← Nat.add_assoc] using ih pre (t :: cur) stages few

/-- The splitter rejects a command with a bad number of stages or an empty one, and hands on the
ranges of all stages otherwise. -/
theorem splitStages_cases (tokens : List Token) :
    (∃ e, splitStages tokens = .err e ∧ BadStages (stageGroups tokens)) ∨
    ∃ ranges, splitStages tokens = .ok ranges ∧ ¬BadStages (stageGroups tokens) ∧
      ranges.map (tokensAt tokens) = (stageGroups tokens).map .ok := by
  have found := splitFrom_cases tokens [] [] [] (Nat.zero_le _)
  rw [List.splitOnPPrepend_nil_right] at found
  rcases found with ⟨e, failed, why⟩ | ⟨ranges, ended, few, none, slices⟩
  · refine .inl ⟨e, failed, why.imp (fun many => ?_) id⟩
    rwa [List.length_nil, Nat.zero_add] at many
  · have all : ranges.map (tokensAt tokens) = (stageGroups tokens).map .ok := slices
    refine .inr ⟨ranges, ended, ?_, all⟩
    -- There are as many ranges as stages, so the bound holds for these
    have count : ranges.length = (stageGroups tokens).length := by
      rw [← List.length_map (tokensAt tokens), all, List.length_map]
    rw [List.length_nil, Nat.zero_add, count] at few
    exact not_or.mpr ⟨Nat.not_lt.mpr few, none⟩

/-- The tokens of a stage are rejected by `parse_stage`, or name a builtin. -/
def StageRejected (parsed : Bytes) (first last : Bool) (group : List Token) : Prop :=
  (∃ e, parseStage parsed first last group = .err e) ∨
    ∃ stage, parseStage parsed first last group = .ok stage ∧ isBuiltin stage.cmd = true

theorem checkStage_eq {tokens group : List Token} {parsed : Bytes} {first last : Bool}
    {range : Nat × Nat} (at_ : tokensAt tokens range = .ok group) :
    checkStage tokens parsed first last range =
      (do let stage ← parseStage parsed first last group
          errIf (isBuiltin stage.cmd = true) builtinError
          return stage) := by
  have cut : slice tokens range.1 range.2 = (.ok group : Outcome Bytes _) := at_
  rw [checkStage, cut, ok_bind]

theorem checkStage_err_iff {tokens group : List Token} {parsed : Bytes} {first last : Bool}
    {range : Nat × Nat} (at_ : tokensAt tokens range = .ok group) :
    (∃ e, checkStage tokens parsed first last range = .err e) ↔
      StageRejected parsed first last group := by
  rw [checkStage_eq at_, StageRejected]
  cases parseStage parsed first last group with
  | panic => simp
  | err e => simp
  | ok stage => cases builtin : isBuiltin stage.cmd <;> simp [errIf, builtin]

theorem checkStage_ok_iff {tokens group : List Token} {parsed : Bytes} {first last : Bool}
    {range : Nat × Nat} (at_ : tokensAt tokens range = .ok group) {stage : StageParse} :
    checkStage tokens parsed first last range = .ok stage ↔
      parseStage parsed first last group = .ok stage ∧ isBuiltin stage.cmd = false := by
  -- What is left of the check once the slice is known
  rw [checkStage_eq at_]
  cases parseStage parsed first last group with
  | panic => simp
  | err e => simp
  | ok stage' =>
    cases builtin : isBuiltin stage'.cmd
    · simp only [errIf, builtin, Bool.false_eq_true, if_false, ok_bind, pure_eq, Outcome.ok.injEq]
      constructor
      · rintro rfl
        exact ⟨rfl, builtin⟩
      · exact fun h => h.1
    · simp only [errIf, ok_bind, builtin, if_true, err_bind, reduceCtorEq, Outcome.ok.injEq,
        false_iff]
      rintro ⟨rfl, notBuiltin⟩
      rw [builtin] at notBuiltin
      cases notBuiltin

end Smultron.Shell
