import Smultron.Properties.CutLines
import Smultron.Properties.EnvMap

/-!
# What a line expands to

The expansion of a line as a relation: a `$` and the name behind it, as long as it can be, become
the value of the variable, and everything else is copied. A value is copied as it is, so a `$` in it
names nothing. Every line has one expansion, and `expand_line` writes as much of it as the buffer
takes, with the values that the calls of `set_env` left.
-/

namespace Smultron.Shell

open SlotTable Utf8

variable {vars : Bytes → Option Bytes} {line text : Bytes}

/-- The line does not start with a byte of a name. -/
def NoName (line : Bytes) : Prop := ∀ b ∈ line.head?, isNameByte b = false

/-- The expansion of a line when the variables have these values. -/
inductive Expands (vars : Bytes → Option Bytes) : Bytes → Bytes → Prop where
  | nil : Expands vars [] []
  | value {name line text : Bytes} (some_ : name ≠ []) (bytes : ∀ b ∈ name, isNameByte b = true)
      (longest : NoName line) (rest : Expands vars line text) :
      Expands vars (36 :: (name ++ line)) ((vars name).getD [] ++ text)
  | dollar {line text : Bytes} (bare : NoName line) (rest : Expands vars line text) :
      Expands vars (36 :: line) (36 :: text)
  | byte {b : UInt8} {line text : Bytes} (other : b ≠ 36) (rest : Expands vars line text) :
      Expands vars (b :: line) (b :: text)

/-! ### The one expansion -/

theorem takeWhile_name {name : Bytes} (bytes : ∀ b ∈ name, isNameByte b = true)
    (longest : NoName line) : (name ++ line).takeWhile isNameByte = name := by
  rw [List.takeWhile_append_of_pos bytes]
  cases line with
  | nil => simp
  | cons b line => simp [longest b rfl]

theorem noName_drop (line : Bytes) : NoName (line.drop (line.takeWhile isNameByte).length) := by
  induction line with
  | nil => nofun
  | cons b line ih =>
    by_cases name : isNameByte b = true
    · simpa [List.takeWhile_cons, name] using ih
    · simp [name, NoName]

/-- The substitution is the expansion, and there is no other. -/
theorem expands_iff {env : Env} (values : ∀ name, name ≠ [] → getEnv env name = vars name) :
    Expands vars line text ↔ text = substitution env line := by
  constructor
  · intro h
    induction h with
    | nil => rw [substitution]
    | @value name line text some_ bytes longest rest ih =>
      rw [substitution, takeWhile_name bytes longest, if_pos ⟨rfl, some_⟩, values name some_,
        List.drop_left, ih]
    | @dollar line text bare rest ih =>
      have none_ : line.takeWhile isNameByte = [] := @takeWhile_name line [] (by simp) bare
      rw [substitution, none_, if_neg (by simp), ih]
    | byte other rest ih => rw [substitution, if_neg (fun h => other h.1), ih]
  · rintro rfl
    induction line using substitution.induct with
    | case1 =>
      rw [substitution]
      exact .nil
    | case2 b rest name named ih =>
      obtain ⟨rfl, some_⟩ := named
      rw [substitution, if_pos ⟨rfl, some_⟩, values name some_]
      have whole : name ++ rest.drop name.length = rest :=
        List.prefix_iff_eq_append.mp (List.takeWhile_prefix _)
      have expanded := Expands.value some_ (fun b => List.mem_takeWhile_imp) (noName_drop rest) ih
      rwa [whole] at expanded
    | case3 b rest name unnamed ih =>
      rw [substitution, if_neg unnamed]
      by_cases dollar : b = 36
      · have none_ : name = [] := by_contra fun some_ => unnamed ⟨dollar, some_⟩
        have bare := noName_drop rest
        rw [show rest.takeWhile isNameByte = [] from none_] at bare
        rw [dollar]
        exact .dollar bare ih
      · exact .byte dollar ih

/-- The expansion of a text is a text when all values are. What has been copied already may end
inside a character, so it is part of the induction. -/
theorem Expands.valid (h : Expands vars line text)
    (values : ∀ name val, vars name = some val → Valid val) {front : Bytes}
    (whole : Valid (front ++ line)) : Valid (front ++ text) := by
  induction h generalizing front with
  | nil => exact whole
  | @value name line text some_ bytes longest rest ih =>
    obtain ⟨before, behind⟩ := whole.split _ (by decide)
    have ascii : Valid name := valid_ascii fun b hb => (nameByte_facts b (bytes b hb)).1
    have val : Valid ((vars name).getD []) := by
      cases stored : vars name with
      | none => exact valid_nil
      | some val => exact values name val stored
    exact before.append (val.append (@ih [] (behind.of_append ascii)))
  | @dollar line text bare rest ih =>
    obtain ⟨before, behind⟩ := whole.split _ (by decide)
    have single : Valid [36] := valid_ascii (by simp)
    exact before.append (single.append (@ih [] behind))
  | @byte b line text other rest ih =>
    rw [← List.singleton_append, ← List.append_assoc] at whole ⊢
    exact ih whole

/-! ### The values -/

theorem lastAccepted_mem {key val : Bytes} {log : List ((Bytes × Bytes) × Bool)}
    (found : lastAccepted key log = some val) : ∃ c ∈ log, c.1.2 = val := by
  induction log with
  | nil => cases found
  | cons c log ih =>
    obtain ⟨⟨key', val'⟩, accepted⟩ := c
    rw [lastAccepted, Option.or_eq_some_iff] at found
    rcases found with later | ⟨-, this⟩
    · obtain ⟨c, member, same⟩ := ih later
      exact ⟨c, List.mem_cons_of_mem _ member, same⟩
    · split at this
      · exact ⟨_, List.mem_cons_self, Option.some.inj this⟩
      · cases this

theorem storeAll_log (env : Env) (calls : List (Bytes × Bytes)) :
    (storeAll env calls).1.map Prod.fst = calls := by
  induction calls generalizing env with
  | nil => rfl
  | cons c calls ih => rw [storeAll_cons, List.map_cons, ih]

/-- After any calls of `set_env`, `expand_line` writes the front of the one expansion of the line,
in which each variable has the value of its last accepted call. It writes a text when the whole
expansion fits. -/
theorem expandLine_front (calls : List (Bytes × Bytes)) (log : List ((Bytes × Bytes) × Bool))
    (env : Env) (history : storeAll Env.empty calls = (log, env))
    (texts : ∀ c ∈ calls, Valid c.1 ∧ Valid c.2) (line : Bytes) (isText : Valid line) (cap : Nat) :
    ∃ total, (∀ text, Expands (lastAccepted · log) line text ↔ text = total) ∧
      (expandLine env line cap).length ≤ cap ∧
      expandLine env line cap = total.take cap ∧
      (total.length ≤ cap → Valid (expandLine env line cap)) := by
  have values : ∀ name, name ≠ [] → getEnv env name = lastAccepted name log := fun name some_ => by
    simpa [history] using getEnv_storeAll calls some_
  have written := expandLine_eq env line cap
  refine ⟨substitution env line, fun text => expands_iff values, ?_, written, fun fits => ?_⟩
  · rw [written]
    exact List.length_take_le cap _
  · rw [written, List.take_of_length_le fits]
    have stored : ∀ name val, lastAccepted name log = some val → Valid val := by
      intro name val found
      obtain ⟨c, logged, rfl⟩ := lastAccepted_mem found
      have called : c.1 ∈ calls := by
        rw [← storeAll_log Env.empty calls, history]
        exact List.mem_map_of_mem logged
      exact (texts c.1 called).2
    exact ((expands_iff values).mpr rfl).valid stored (show Valid ([] ++ line) from isText)

/-- Two names side by side, a `$` without a name, and a value with a `$` in it. -/
theorem expandLine_front_nested :
    let history := storeAll Env.empty [(str "A", str "$B"), (str "B", str "x")]
    ∃ total, Expands (lastAccepted · history.1) (str "$A$B $ $") total ∧
      expandLine history.2 (str "$A$B $ $") 4 = total.take 4 ∧ total.take 4 = str "$Bx " := by
  intro history
  obtain ⟨total, expands, -, written, -⟩ := expandLine_front _ history.1 history.2 rfl
    (by decide +kernel) (str "$A$B $ $") (by decide +kernel) 4
  have four : expandLine history.2 (str "$A$B $ $") 4 = str "$Bx " := by decide +kernel
  exact ⟨total, (expands total).mpr rfl, written, written ▸ four⟩

end Smultron.Shell
