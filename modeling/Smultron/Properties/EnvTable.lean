import Smultron.Lib.Terminated
import Smultron.Properties.ShellBounds
import Smultron.Userspace.Apps

/-!
# The variables as a table, and the text a child gets of them

`set_env` scans the sixteen entries once and remembers the first free one on the way. Read through
`Env.slots`, where an entry without a key is free, it is one upsert of a table of slots. What
`build_env_str` writes is one line for every variable, and a program that takes the text apart at
line ends and equals signs finds the variables again as far as there was room for them.
-/

namespace Smultron.Shell

open Checked Checked.Outcome SlotTable Terminated Utf8

/-! ### One entry -/

@[simp] theorem EnvVar.length_keyBytes (v : EnvVar) : v.keyBytes.length = v.keyLen := by
  rw [keyBytes, Buffer.length_front, Nat.min_eq_left v.key_fits]

@[simp] theorem EnvVar.length_valBytes (v : EnvVar) : v.valBytes.length = v.valLen := by
  rw [valBytes, Buffer.length_front, Nat.min_eq_left v.val_fits]

/-- The slot of the table an entry is: free, or a key with its value. -/
def EnvVar.slot (v : EnvVar) : Option (Bytes × Bytes) :=
  if v.keyLen = 0 then none else some (v.keyBytes, v.valBytes)

def Env.slots (env : Env) : Slots Bytes Bytes := env.vars.map EnvVar.slot

/-- The variables with their values, in table order. -/
def Env.pairs (env : Env) : List (Bytes × Bytes) := env.slots.filterMap id

theorem EnvVar.holds_iff (key : Bytes) (v : EnvVar) : v.holds key = true ↔ v.keyBytes = key := by
  simp only [holds, Bool.and_eq_true, beq_iff_eq]
  constructor
  · exact And.right
  · intro same
    exact ⟨by rw [← same, length_keyBytes], same⟩

theorem EnvVar.slot_eq_none {v : EnvVar} : v.slot = none ↔ v.keyLen = 0 := by
  rw [slot]
  split <;> simp_all

theorem EnvVar.holds_nil (v : EnvVar) : v.holds [] = (v.keyLen == 0) := by
  rw [Bool.eq_iff_iff, holds_iff, beq_iff_eq, ← List.length_eq_zero_iff, length_keyBytes]

theorem EnvVar.holds_slot {key : Bytes} (nonempty : key ≠ []) (v : EnvVar) :
    v.holds key = decide (v.slot.map Prod.fst = some key) := by
  rw [Bool.eq_iff_iff, holds_iff, decide_eq_true_eq, slot]
  split
  next free =>
    -- A free entry holds the empty key only
    have empty : v.keyBytes = [] := List.eq_nil_of_length_eq_zero (by rw [length_keyBytes, free])
    simp [empty, Ne.symm nonempty]
  · simp

theorem EnvVar.slot_setVal {key val : Bytes} (nonempty : key ≠ []) (fits : val.length ≤ maxVal)
    {v : EnvVar} (h : v.holds key = true) : (v.setVal val fits).slot = some (key, val) := by
  obtain rfl := (holds_iff key v).mp h
  have taken : v.keyLen ≠ 0 := by
    intro free
    exact nonempty (List.eq_nil_of_length_eq_zero (by rw [length_keyBytes, free]))
  have stored : (v.setVal val fits).valBytes = val := v.val.front_blit_zero val (by simpa) rfl
  have kept : (v.setVal val fits).keyLen = v.keyLen := rfl
  rw [slot, kept, if_neg taken, stored]
  rfl

/-- With the empty key, a free entry stays free. -/
theorem EnvVar.slot_setVal_nil {val : Bytes} (fits : val.length ≤ maxVal) {v : EnvVar}
    (h : v.holds [] = true) : (v.setVal val fits).slot = v.slot := by
  have empty := (holds_iff [] v).mp h
  have free : v.keyLen = 0 := by rw [← length_keyBytes, empty, List.length_nil]
  rw [slot_eq_none.mpr free, slot_eq_none.mpr (show (v.setVal val fits).keyLen = 0 from free)]

theorem EnvVar.slot_create {key val : Bytes} (nonempty : key ≠ []) (keyFits : key.length ≤ maxKey)
    (valFits : val.length ≤ maxVal) (v : EnvVar) :
    (v.create key keyFits val valFits).slot = some (key, val) := by
  have taken : (v.create key keyFits val valFits).keyLen ≠ 0 :=
    fun free => nonempty (List.eq_nil_of_length_eq_zero free)
  have name : (v.create key keyFits val valFits).keyBytes = key :=
    v.key.front_blit_zero key (by simpa) rfl
  have stored : (v.create key keyFits val valFits).valBytes = val :=
    v.val.front_blit_zero val (by simpa) rfl
  rw [slot, if_neg taken, name, stored]

/-! ### The table -/

theorem slots_updateFirst (env : Env) (p : EnvVar → Bool) (f : EnvVar → EnvVar) :
    (env.updateFirst p f).map Env.slots =
      (SlotTable.updateFirst p f env.vars).map (List.map EnvVar.slot) := by
  rw [Env.updateFirst]
  split <;> rename_i h <;> simp [h, Env.slots]

theorem updateFirst_none {env : Env} {p : EnvVar → Bool} {f : EnvVar → EnvVar} :
    env.updateFirst p f = none ↔ ∀ v ∈ env.vars, p v = false := by
  rw [← SlotTable.updateFirst_eq_none (f := f), ← Option.map_eq_none_iff (f := Env.slots),
    slots_updateFirst, Option.map_eq_none_iff]

theorem slots_overwrite (env : Env) {key val : Bytes} (nonempty : key ≠ [])
    (fits : val.length ≤ maxVal) :
    (env.updateFirst (·.holds key) (·.setVal val fits)).map Env.slots =
      overwrite key val env.slots := by
  rw [slots_updateFirst]
  exact updateFirst_map EnvVar.slot (EnvVar.holds_slot nonempty)
    (fun v h => EnvVar.slot_setVal nonempty fits h) env.vars

theorem slots_fill (env : Env) {key val : Bytes} (nonempty : key ≠ [])
    (keyFits : key.length ≤ maxKey) (valFits : val.length ≤ maxVal) :
    (env.updateFirst (·.keyLen == 0) (·.create key keyFits val valFits)).map Env.slots =
      fill key val env.slots := by
  rw [slots_updateFirst]
  refine updateFirst_map EnvVar.slot ?_ (fun v _ => EnvVar.slot_create nonempty keyFits valFits v)
    env.vars
  intro v
  rw [Bool.eq_iff_iff, beq_iff_eq, Option.isNone_iff_eq_none, EnvVar.slot_eq_none]

/-- The value stored with the empty key does not show. -/
theorem slots_setVal_nil (env : Env) {val : Bytes} (fits : val.length ≤ maxVal) {env' : Env}
    (h : env.updateFirst (·.holds []) (·.setVal val fits) = some env') : env'.slots = env.slots := by
  have found := slots_updateFirst env (·.holds []) (·.setVal val fits)
  rw [h, Option.map_some] at found
  obtain ⟨vars, updated, same⟩ := Option.map_eq_some_iff.mp found.symm
  obtain ⟨front, v, back, whole, -, hv, rfl⟩ := updateFirst_eq_some.mp updated
  rw [← same, Env.slots, whole]
  simp [EnvVar.slot_setVal_nil fits hv]

/-- What `set_env` leaves: nothing new under the empty key, else one upsert. -/
theorem storeEnv_slots {env env' : Env} {key val : Bytes} (h : storeEnv env key val = .ok env') :
    (key = [] ∧ env'.slots = env.slots) ∨
      (key ≠ [] ∧ upsert key val env.slots = some env'.slots) := by
  rw [storeEnv] at h
  split at h
  · cases h
  next short =>
    obtain ⟨keyFits, valFits⟩ := not_or.mp short
    have keyFits' := Nat.not_lt.mp keyFits
    have valFits' := Nat.not_lt.mp valFits
    by_cases empty : key = []
    · subst empty
      left
      refine ⟨rfl, ?_⟩
      split at h
      next stored =>
        obtain rfl := Except.ok.inj h
        exact slots_setVal_nil env valFits' stored
      next missing =>
        -- Where no entry holds the empty key, there is no free entry either
        have full : env.updateFirst (·.keyLen == 0) (·.create [] keyFits' val valFits') = none := by
          apply updateFirst_none.mpr
          intro v hv
          rw [← EnvVar.holds_nil]
          exact updateFirst_none.mp missing v hv
        rw [full] at h
        cases h
    · right
      refine ⟨empty, ?_⟩
      -- Any other key is overwritten where it stands, or takes the first free entry
      rw [upsert, ← slots_overwrite env empty valFits', ← slots_fill env empty keyFits' valFits']
      split at h
      next stored =>
        obtain rfl := Except.ok.inj h
        rw [stored]
        rfl
      next missing =>
        rw [missing]
        split at h
        next created =>
          obtain rfl := Except.ok.inj h
          rw [created]
          rfl
        · cases h

theorem getEnv_eq_lookup (env : Env) {key : Bytes} (nonempty : key ≠ []) :
    getEnv env key = lookup key env.slots := by
  rw [getEnv, Env.slots]
  induction env.vars with
  | nil => rfl
  | cons v vars ih =>
    rw [List.find?_cons, List.map_cons]
    cases h : v.holds key with
    | true =>
      obtain rfl := (EnvVar.holds_iff key v).mp h
      -- An entry in use: its key is not empty
      have taken : v.keyLen ≠ 0 := by
        intro free
        exact nonempty (List.eq_nil_of_length_eq_zero (by rw [EnvVar.length_keyBytes, free]))
      simp [EnvVar.slot, taken, lookup]
    | false =>
      have other : v.keyBytes ≠ key := by
        rw [Ne, ← EnvVar.holds_iff, h]
        simp
      dsimp only
      rw [ih, EnvVar.slot]
      by_cases free : v.keyLen = 0
      · rw [if_pos free, lookup]
      · rw [if_neg free, lookup, if_neg other]

/-! ### The text of the environment -/

/-- `KEY=VALUE` -/
def envLine (p : Bytes × Bytes) : Bytes := p.1 ++ 61 :: p.2

/-- The bytes this takes with the end of the line. -/
def pairSize (p : Bytes × Bytes) : Nat := p.1.length + p.2.length + 2

/-- The variables for which there is room in the text. -/
def Env.sent (env : Env) : List (Bytes × Bytes) := fitting pairSize maxEnvLen 0 env.pairs

theorem buildEnvFrom_eq (vars : List EnvVar) {buf : Bytes} (room : buf.length ≤ maxEnvLen) :
    buildEnvFrom vars buf = .ok (buf ++ layout 10
      ((fitting pairSize maxEnvLen buf.length ((vars.map EnvVar.slot).filterMap id)).map
        envLine)) := by
  induction vars generalizing buf with
  | nil => simp [buildEnvFrom, fitting]
  | cons v vars ih =>
    have word : maxEnvLen + (maxKey + 1 + (maxVal + 1)) < wordBound := by decide
    have key := v.key_fits
    have val := v.val_fits
    rw [buildEnvFrom, List.map_cons]
    by_cases free : v.keyLen = 0
    · -- A free entry has no line
      rw [if_pos free, ih room, EnvVar.slot_eq_none.mpr free, List.filterMap_cons_none rfl]
    · have taken : v.slot = some (v.keyBytes, v.valBytes) := if_neg free
      have size : pairSize (v.keyBytes, v.valBytes) = v.keyLen + 1 + (v.valLen + 1) := by
        simp [pairSize]
        omega
      rw [if_neg free, add_of_lt (by omega), ok_bind, add_of_lt (by omega), ok_bind, taken,
        List.filterMap_cons_some (f := id) rfl, fitting, size]
      split
      · simp
      next fits =>
        have fits' := Nat.not_lt.mp fits
        rw [append_of_le (by simp; omega), ok_bind, push_of_lt (by simp; omega), ok_bind,
          append_of_le (by simp; omega), ok_bind, push_of_lt (by simp; omega), ok_bind, ih]
        · -- The line stands behind the text so far
          have length : (buf ++ v.keyBytes ++ [61] ++ v.valBytes ++ [10]).length =
              buf.length + (v.keyLen + 1 + (v.valLen + 1)) := by
            simp
            omega
          rw [length, List.map_cons, layout_cons]
          simp [envLine]
        · simp
          omega

theorem buildEnvStr_eq (env : Env) :
    buildEnvStr env = .ok (layout 10 (env.sent.map envLine)) :=
  buildEnvFrom_eq env.vars (Nat.zero_le _)

/-- What a program finds that splits the text at line ends and each line at its first `=`. -/
def decodeEnv (envStr : Bytes) : List (Bytes × Bytes) :=
  (envStr.splitOn 10).filterMap (splitOnce 61)

/-- Nothing in a key or a value can be taken for a separator. -/
def Separable (p : Bytes × Bytes) : Prop := 10 ∉ p.1 ∧ 61 ∉ p.1 ∧ 10 ∉ p.2

theorem envLine_unbroken {p : Bytes × Bytes} (h : Separable p) : 10 ∉ envLine p := by
  obtain ⟨key, -, val⟩ := h
  rw [envLine, List.mem_append, List.mem_cons]
  rintro (inKey | same | inVal)
  · exact key inKey
  · cases same
  · exact val inVal

theorem splitOn_env {ps : List (Bytes × Bytes)} (h : ∀ p ∈ ps, Separable p) :
    (layout 10 (ps.map envLine)).splitOn 10 = ps.map envLine ++ [[]] := by
  apply splitOn_layout
  intro line hl
  obtain ⟨p, hp, rfl⟩ := List.mem_map.mp hl
  exact envLine_unbroken (h p hp)

theorem decodeEnv_layout {ps : List (Bytes × Bytes)} (h : ∀ p ∈ ps, Separable p) :
    decodeEnv (layout 10 (ps.map envLine)) = ps := by
  rw [decodeEnv, splitOn_env h, List.filterMap_append]
  have last : [([] : Bytes)].filterMap (splitOnce 61) = [] := rfl
  rw [last, List.append_nil]
  induction ps with
  | nil => rfl
  | cons p ps ih =>
    rw [List.forall_mem_cons] at h
    have found : splitOnce 61 (envLine p) = some p := splitOnce_append h.1.2.1 p.2
    rw [List.map_cons, List.filterMap_cons_some found, ih h.2]

/-- A program that looks for its directory finds the variable that comes first. -/
theorem startCwd_layout {cwd : Bytes} {ps : List (Bytes × Bytes)}
    (h : ∀ p ∈ (cwdKey, cwd) :: ps, Separable p) :
    startCwd (layout 10 (((cwdKey, cwd) :: ps).map envLine)) = cwd := by
  have found : splitOnce 61 (envLine (cwdKey, cwd)) = some (cwdKey, cwd) :=
    splitOnce_append (List.forall_mem_cons.mp h).1.2.1 cwd
  rw [startCwd, splitOn_env h, List.map_cons, List.cons_append, findCwd, found]
  rfl

end Smultron.Shell
