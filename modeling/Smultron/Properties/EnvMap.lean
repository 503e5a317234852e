import Mathlib.Data.Set.Card
import Smultron.Properties.EnvTransport

/-!
# The environment as a bounded map

A table entry with the length 0 is free, so a call with the empty key finds one and may write its
value there. Read as a map from keys that are not empty, the table is changed by no such call: what
`set_env` does to it is a write of a table of sixteen slots, refused where the key or the value is
too long. A history of calls from the empty table is therefore a history of writes.

## Main result

- `env_refines_map`: after every history, each key has the value of its last accepted call, and
  which calls are accepted next is decided by the lengths and by the number of keys.
-/

namespace Smultron.Shell

open SlotTable

/-- One `set_env`: whether the call is accepted, and the table it leaves. -/
def store (env : Env) (key val : Bytes) : Bool × Env :=
  match storeEnv env key val with
  | .ok env' => (true, env')
  | .error _ => (false, env)

/-- The calls of a history, each with the answer it got, and the table after them. -/
def storeAll (env : Env) : List (Bytes × Bytes) → List ((Bytes × Bytes) × Bool) × Env
  | [] => ([], env)
  | (key, val) :: calls =>
    let (accepted, env') := store env key val
    let (log, last) := storeAll env' calls
    (((key, val), accepted) :: log, last)

/-- The keys that have a value. -/
def storedKeys (env : Env) : Set Bytes := {key | key ≠ [] ∧ getEnv env key ≠ none}

/-- The lengths `set_env` asks for. -/
def shortEnough (key val : Bytes) : Bool := key.length ≤ maxKey ∧ val.length ≤ maxVal

/-! ### One call -/

theorem shortEnough_iff {key val : Bytes} :
    shortEnough key val = true ↔ key.length ≤ maxKey ∧ val.length ≤ maxVal := by
  simp [shortEnough]

/-- Whatever the message is answered with, the call leaves the table it has built. -/
theorem setEnv_leaves {env env' : Env} {key val : Bytes} {legal : Syscall → Reply → Prop}
    {calls : List (Syscall × Reply)} (e : (setEnv env key val).Exec legal calls (.ok env')) :
    env' = (store env key val).2 := by
  rw [setEnv] at e
  rw [store]
  cases stored : storeEnv env key val with
  | ok env'' =>
    rw [stored] at e
    simpa using (Proc.exec_pure.mp e).2
  | error msg =>
    rw [stored] at e
    rcases Proc.exec_bind.mp e with ⟨-, impossible⟩ | ⟨first, rest, a, -, -, kept⟩
    · simp at impossible
    · simpa using (Proc.exec_pure.mp kept).2

/-- With a key, the call is a write of the slots. -/
theorem store_write (env : Env) {key : Bytes} (val : Bytes) (nonempty : key ≠ []) :
    (store env key val).1 = (write shortEnough env.slots key val).1 ∧
      (store env key val).2.slots = (write shortEnough env.slots key val).2 := by
  rw [store, storeEnv]
  by_cases long : maxKey < key.length ∨ maxVal < val.length
  · -- Nothing is written under a key or of a value that is too long
    have no : shortEnough key val = false := by
      rw [Bool.eq_false_iff, Ne, shortEnough_iff]
      omega
    rw [dif_pos long, write, no]
    simp
  · have short : shortEnough key val = true := shortEnough_iff.mpr (by omega)
    rw [dif_neg long, write, if_pos short, upsert,
      ← slots_overwrite env nonempty (by omega), ← slots_fill env nonempty (by omega) (by omega)]
    cases env.updateFirst (·.holds key) (·.setVal val (by omega)) with
    | some env' => simp
    | none =>
      cases env.updateFirst (·.keyLen == 0) (·.create key (by omega) val (by omega)) with
      | some env' => simp
      | none => simp

/-- Without a key, no slot changes. -/
theorem store_nil (env : Env) (val : Bytes) : (store env [] val).2.slots = env.slots := by
  rw [store]
  cases stored : storeEnv env [] val with
  | error msg => rfl
  | ok env' =>
    rcases storeEnv_slots stored with ⟨-, same⟩ | ⟨named, -⟩
    · exact same
    · exact absurd rfl named

/-! ### A history of calls -/

theorem storeAll_cons (env : Env) (c : Bytes × Bytes) (calls : List (Bytes × Bytes)) :
    storeAll env (c :: calls) =
      ((c, (store env c.1 c.2).1) :: (storeAll (store env c.1 c.2).2 calls).1,
        (storeAll (store env c.1 c.2).2 calls).2) := rfl

/-- The calls with a key are writes, and the others do nothing to the slots. -/
theorem storeAll_writes (env : Env) (calls : List (Bytes × Bytes)) :
    (writeAll shortEnough env.slots (calls.filter fun c => c.1 ≠ [])).1 =
        (storeAll env calls).1.filter (fun c => c.1.1 ≠ []) ∧
      (writeAll shortEnough env.slots (calls.filter fun c => c.1 ≠ [])).2 =
        (storeAll env calls).2.slots := by
  induction calls generalizing env with
  | nil => simp [storeAll, writeAll]
  | cons c calls ih =>
    obtain ⟨key, val⟩ := c
    have rest := ih (store env key val).2
    by_cases named : key = []
    · subst key
      rw [store_nil] at rest
      simpa [storeAll] using rest
    · obtain ⟨accepted, left⟩ := store_write env val named
      rw [List.filter_cons_of_pos (by simpa using named), writeAll_cons, ← accepted, ← left,
        storeAll_cons, List.filter_cons_of_pos (by simpa using named)]
      exact ⟨congrArg _ rest.1, rest.2⟩

theorem lastAccepted_filter {key : Bytes} (nonempty : key ≠ [])
    (log : List ((Bytes × Bytes) × Bool)) :
    lastAccepted key (log.filter fun c => c.1.1 ≠ []) = lastAccepted key log := by
  induction log with
  | nil => rfl
  | cons c log ih =>
    obtain ⟨⟨key', val⟩, accepted⟩ := c
    by_cases named : key' = []
    · -- A call without a key is not one for this key
      subst key'
      simpa [lastAccepted, Ne.symm nonempty] using ih
    · rw [List.filter_cons_of_pos (by simpa using named), lastAccepted, lastAccepted, ih]

@[simp] theorem slots_empty : Env.empty.slots = List.replicate maxEnvVars none := by
  simp [Env.slots, Env.empty, EnvVar.slot, EnvVar.empty]

/-- Every key has the value of its last accepted call. -/
theorem getEnv_storeAll (calls : List (Bytes × Bytes)) {key : Bytes} (nonempty : key ≠ []) :
    getEnv (storeAll Env.empty calls).2 key = lastAccepted key (storeAll Env.empty calls).1 := by
  have written := storeAll_writes Env.empty calls
  have none_ : lookup key Env.empty.slots = none := by
    rw [slots_empty, lookup_eq_none]
    simp [keys]
  rw [getEnv_eq_lookup _ nonempty, ← written.2, lookup_writeAll, written.1,
    lastAccepted_filter nonempty, none_, Option.or_none]

/-- No two slots hold one key. -/
theorem storeAll_nodup (calls : List (Bytes × Bytes)) :
    (keys (storeAll Env.empty calls).2.slots).Nodup := by
  rw [← (storeAll_writes Env.empty calls).2]
  apply writeAll_invariant (I := fun t => (keys t).Nodup) fun _ _ _ => nodup_write
  simp [keys]

/-- The number of keys is the number of slots that are taken. -/
theorem ncard_storedKeys {env : Env} (distinct : (keys env.slots).Nodup)
    (named : [] ∉ keys env.slots) : (storedKeys env).ncard = (keys env.slots).length := by
  have eq : storedKeys env = ↑(keys env.slots).toFinset := by
    ext key
    simp only [storedKeys, Set.mem_ofPred_eq, List.coe_toFinset]
    constructor
    · rintro ⟨nonempty, found⟩
      rwa [getEnv_eq_lookup env nonempty, lookup_ne_none] at found
    · intro held
      have nonempty : key ≠ [] := fun eq => named (eq ▸ held)
      rw [getEnv_eq_lookup env nonempty, lookup_ne_none]
      exact ⟨nonempty, held⟩
  rw [eq, Set.ncard_coe_finset, List.toFinset_card_of_nodup distinct]

theorem nil_not_mem_keys (env : Env) : [] ∉ keys env.slots := by
  simp only [keys, Env.slots, List.mem_filterMap, List.mem_map]
  rintro ⟨-, ⟨v, -, rfl⟩, held⟩
  by_cases free : v.keyLen = 0
  · simp [EnvVar.slot, free] at held
  · -- A key that is held has the length of its entry
    simp only [EnvVar.slot, free, if_false, Option.map_some, Option.some.injEq] at held
    have length := v.length_keyBytes
    rw [held] at length
    exact free length.symm

/-- After any history of calls from the empty table, every key has the value of its last accepted
call. A call with a key is then accepted exactly when key and value are short enough and the key is
there or there is room for it; a refused call, and one without a key, changes no value. This is said
of `store`, whose table is the one every execution of `set_env` leaves. -/
theorem env_refines_map (calls : List (Bytes × Bytes)) (log : List ((Bytes × Bytes) × Bool))
    (env : Env) (history : storeAll Env.empty calls = (log, env)) :
    (∀ key val legal made env', (setEnv env key val).Exec legal made (.ok env') →
        env' = (store env key val).2) ∧
      (∀ key, key ≠ [] → getEnv env key = lastAccepted key log) ∧
      (∀ key, key ≠ [] → (getEnv env key = none ↔ ∀ c ∈ log, ¬(c.2 = true ∧ c.1.1 = key))) ∧
      (∀ key val, key ≠ [] →
        ((store env key val).1 = true ↔
          key.length ≤ maxKey ∧ val.length ≤ maxVal ∧
            (getEnv env key ≠ none ∨ (storedKeys env).ncard < maxEnvVars))) ∧
      ∀ key val, (store env key val).1 = false ∨ key = [] →
        ∀ key', key' ≠ [] → getEnv (store env key val).2 key' = getEnv env key' := by
  have value : ∀ key, key ≠ [] → getEnv env key = lastAccepted key log := by
    intro key nonempty
    simpa [history] using getEnv_storeAll calls nonempty
  have distinct : (keys env.slots).Nodup := by
    simpa [history] using storeAll_nodup calls
  refine ⟨fun _ _ _ _ _ => setEnv_leaves, value, ?_, ?_, ?_⟩
  · intro key nonempty
    rw [value key nonempty, lastAccepted_eq_none]
  · intro key val nonempty
    have length : env.slots.length = maxEnvVars := (List.length_map _).trans env.length_eq
    have bound := length_keys_le env.slots
    have full : (keys env.slots).length ≠ env.slots.length ↔ (keys env.slots).length < maxEnvVars := by
      omega
    rw [(store_write env val nonempty).1, write_accepted_iff, shortEnough_iff, full, and_assoc,
      getEnv_eq_lookup env nonempty, lookup_ne_none, ncard_storedKeys distinct (nil_not_mem_keys env)]
  · rintro key val unchanged key' nonempty
    have same : (store env key val).2.slots = env.slots := by
      by_cases named : key = []
      · rw [named, store_nil]
      · have refused : (store env key val).1 = false := unchanged.resolve_right named
        obtain ⟨accepted, left⟩ := store_write env val named
        rw [left]
        exact write_refused (accepted.symm.trans refused)
    rw [getEnv_eq_lookup _ nonempty, getEnv_eq_lookup _ nonempty, same]

/-- Two values for one key, a value without a key, and a key of 33 bytes. -/
theorem env_refines_map_overwritten :
    let calls := [(str "A", str "1"), ([], str "x"), (str "A", str "2"), (List.replicate 33 66, [])]
    getEnv (storeAll Env.empty calls).2 (str "A") =
        lastAccepted (str "A") (storeAll Env.empty calls).1 ∧
      lastAccepted (str "A") (storeAll Env.empty calls).1 = some (str "2") := by
  intro calls
  have refines := env_refines_map calls (storeAll Env.empty calls).1 (storeAll Env.empty calls).2
    Prod.mk.eta.symm
  exact ⟨refines.2.1 (str "A") (by decide +kernel), by decide +kernel⟩

end Smultron.Shell
