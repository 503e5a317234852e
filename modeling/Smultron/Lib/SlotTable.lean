import Mathlib.Data.Finset.Card
import Mathlib.Data.Finset.SDiff

/-!
# Tables of slots

A fixed number of slots, each free or holding a key with its value. A write overwrites the first
slot that holds the key and otherwise takes the first free one, so it fails exactly on a new key
in a full table. Read as a map, such a table is a partial map of bounded size.

## Main results

- `updateFirst_map`: the scan commutes with a view of the entries.
- `lookup_write`, `write_accepted_iff`: one write, as an update of the map.
- `lookup_writeAll`: after any sequence of writes a key maps to its last accepted value.
- `writeAll_of_room`: where there is room for all of the keys, every write is accepted.
-/

namespace SlotTable

variable {E F K V : Type}

/-! ### Scanning for the first entry -/

/-- Update the first entry that satisfies `p`; `none` when there is none. -/
def updateFirst (p : E → Bool) (f : E → E) : List E → Option (List E)
  | [] => none
  | e :: es => if p e then some (f e :: es) else (updateFirst p f es).map (e :: ·)

theorem updateFirst_eq_some {p : E → Bool} {f : E → E} {es es' : List E} :
    updateFirst p f es = some es' ↔
      ∃ l e r, es = l ++ e :: r ∧ (∀ x ∈ l, p x = false) ∧ p e = true ∧ es' = l ++ f e :: r := by
  induction es generalizing es' with
  | nil => simp [updateFirst]
  | cons x xs ih =>
    by_cases hx : p x = true
    · -- The first entry is found
      simp only [updateFirst, hx, if_true, Option.some.injEq]
      constructor
      · rintro rfl
        exact ⟨[], x, xs, rfl, by simp, hx, rfl⟩
      · rintro ⟨l, e, r, eq, before, he, rfl⟩
        cases l with
        | nil => cases eq; rfl
        | cons y l =>
          cases eq
          -- An entry in front of it would not satisfy the condition
          exact absurd (before x List.mem_cons_self) (by simp [hx])
    · -- The scan goes on behind it
      simp only [updateFirst, hx, Bool.false_eq_true, if_false, Option.map_eq_some_iff, ih]
      constructor
      · rintro ⟨_, ⟨l, e, r, rfl, before, he, rfl⟩, rfl⟩
        refine ⟨x :: l, e, r, rfl, ?_, he, rfl⟩
        simpa [hx] using before
      · rintro ⟨l, e, r, eq, before, he, rfl⟩
        cases l with
        | nil => cases eq; exact absurd he hx
        | cons y l =>
          cases eq
          exact ⟨_, ⟨l, e, r, rfl, fun z hz => before z (List.mem_cons_of_mem _ hz), he, rfl⟩, rfl⟩

theorem updateFirst_eq_none {p : E → Bool} {f : E → E} {es : List E} :
    updateFirst p f es = none ↔ ∀ e ∈ es, p e = false := by
  induction es with
  | nil => simp [updateFirst]
  | cons x xs ih => by_cases hx : p x = true <;> simp [updateFirst, hx, ih]

theorem length_updateFirst {p : E → Bool} {f : E → E} {es es' : List E}
    (h : updateFirst p f es = some es') : es'.length = es.length := by
  obtain ⟨l, e, r, rfl, -, -, rfl⟩ := updateFirst_eq_some.mp h
  simp

/-- A scan of entries is the scan of what they stand for. -/
theorem updateFirst_map {p : E → Bool} {f : E → E} {q : F → Bool} {g : F → F} (view : E → F)
    (found : ∀ e, p e = q (view e)) (changed : ∀ e, p e = true → view (f e) = g (view e))
    (es : List E) :
    (updateFirst p f es).map (List.map view) = updateFirst q g (es.map view) := by
  induction es with
  | nil => rfl
  | cons x xs ih =>
    simp only [List.map_cons, updateFirst, ← found]
    by_cases hx : p x = true
    · simp [hx, changed x hx]
    · simp only [hx, Bool.false_eq_true, if_false, ← ih, Option.map_map]
      rfl

/-! ### Slots -/

/-- A slot: free, or a key with its value. -/
abbrev Slots (K V : Type) := List (Option (K × V))

def keys (t : Slots K V) : List K := t.filterMap (Option.map Prod.fst)

@[simp] theorem keys_append (t u : Slots K V) : keys (t ++ u) = keys t ++ keys u := by
  simp [keys]

@[simp] theorem keys_none (t : Slots K V) : keys (none :: t) = keys t := rfl

@[simp] theorem keys_some (k : K) (v : V) (t : Slots K V) : keys (some (k, v) :: t) = k :: keys t :=
  rfl

theorem length_keys_le (t : Slots K V) : (keys t).length ≤ t.length := List.length_filterMap_le ..

/-- Every slot is taken exactly when there are as many keys as slots. -/
theorem full_iff {t : Slots K V} : (∀ s ∈ t, s.isNone = false) ↔ (keys t).length = t.length := by
  induction t with
  | nil => simp [keys]
  | cons s t ih =>
    rcases s with _ | ⟨k, v⟩
    · -- A free slot leaves fewer keys than slots
      have := length_keys_le t
      simp only [List.mem_cons, forall_eq_or_imp, Option.isNone_none, keys_none, List.length_cons]
      constructor
      · rintro ⟨h, -⟩
        cases h
      · intro h
        omega
    · simpa using ih

/-- Put `k` with `v` in the first free slot. -/
def fill (k : K) (v : V) : Slots K V → Option (Slots K V) :=
  updateFirst Option.isNone fun _ => some (k, v)

theorem fill_eq_none {k : K} {v : V} {t : Slots K V} :
    fill k v t = none ↔ (keys t).length = t.length := by
  rw [fill, updateFirst_eq_none, full_iff]

variable [DecidableEq K]

def lookup (k : K) : Slots K V → Option V
  | [] => none
  | none :: t => lookup k t
  | some (k', v) :: t => if k' = k then some v else lookup k t

/-- Put `v` in the first slot of `k`. -/
def overwrite (k : K) (v : V) : Slots K V → Option (Slots K V) :=
  updateFirst (fun s => s.map Prod.fst = some k) fun _ => some (k, v)

def upsert (k : K) (v : V) (t : Slots K V) : Option (Slots K V) :=
  (overwrite k v t).or (fill k v t)

theorem lookup_eq_none {k : K} {t : Slots K V} : lookup k t = none ↔ k ∉ keys t := by
  induction t with
  | nil => simp [lookup, keys]
  | cons s t ih =>
    rcases s with _ | ⟨k', v⟩
    · simpa [lookup] using ih
    · by_cases h : k' = k
      · simp [lookup, h]
      · simp [lookup, h, ih, Ne.symm h]

theorem lookup_ne_none {k : K} {t : Slots K V} : lookup k t ≠ none ↔ k ∈ keys t := by
  rw [Ne, lookup_eq_none, not_not]

theorem lookup_append (k : K) (t u : Slots K V) :
    lookup k (t ++ u) = (lookup k t).or (lookup k u) := by
  induction t with
  | nil => rfl
  | cons s t ih =>
    rcases s with _ | ⟨k', v⟩
    · simpa [lookup] using ih
    · by_cases h : k' = k <;> simp [lookup, h, ih]

theorem overwrite_eq_none {k : K} {v : V} {t : Slots K V} :
    overwrite k v t = none ↔ k ∉ keys t := by
  simp only [overwrite, updateFirst_eq_none, keys, List.mem_filterMap, decide_eq_false_iff_not]
  constructor
  · rintro h ⟨s, hs, eq⟩
    exact h s hs eq
  · exact fun h s hs eq => h ⟨s, hs, eq⟩

theorem upsert_eq_none {k : K} {v : V} {t : Slots K V} :
    upsert k v t = none ↔ k ∉ keys t ∧ (keys t).length = t.length := by
  rw [upsert, Option.or_eq_none_iff, overwrite_eq_none, fill_eq_none]

/-- What a successful write does to the slots. -/
theorem upsert_cases {k : K} {v : V} {t t' : Slots K V} (h : upsert k v t = some t') :
    ∃ l s r, t = l ++ s :: r ∧ t' = l ++ some (k, v) :: r ∧ k ∉ keys l ∧
      ((∃ old, s = some (k, old)) ∨ (s = none ∧ k ∉ keys r)) := by
  rw [upsert, Option.or_eq_some_iff] at h
  rcases h with h | ⟨new, h⟩
  · -- A slot holds the key, and none before it does
    obtain ⟨l, s, r, rfl, before, hs, rfl⟩ := updateFirst_eq_some.mp h
    have absent : overwrite k v l = none := updateFirst_eq_none.mpr before
    refine ⟨l, s, r, rfl, rfl, overwrite_eq_none.mp absent, Or.inl ?_⟩
    rcases s with _ | ⟨k', old⟩
    · simp at hs
    · obtain rfl : k' = k := by simpa using hs
      exact ⟨old, rfl⟩
  · -- No slot holds the key, and the first free one takes it
    obtain ⟨l, s, r, rfl, before, hs, rfl⟩ := updateFirst_eq_some.mp h
    obtain rfl : s = none := by simpa using hs
    have absent := overwrite_eq_none.mp new
    simp only [keys_append, keys_none, List.mem_append, not_or] at absent
    exact ⟨l, none, r, rfl, rfl, absent.1, Or.inr ⟨rfl, absent.2⟩⟩

theorem mem_keys_upsert {k : K} {v : V} {t t' : Slots K V} (h : upsert k v t = some t') (k' : K) :
    k' ∈ keys t' ↔ k' = k ∨ k' ∈ keys t := by
  obtain ⟨l, s, r, rfl, rfl, -, ⟨old, rfl⟩ | ⟨rfl, -⟩⟩ := upsert_cases h
  · simp only [keys_append, keys_some, List.mem_append, List.mem_cons]
    tauto
  · simp only [keys_append, keys_some, keys_none, List.mem_append, List.mem_cons]
    tauto

theorem nodup_upsert {k : K} {v : V} {t t' : Slots K V} (h : upsert k v t = some t')
    (distinct : (keys t).Nodup) : (keys t').Nodup := by
  obtain ⟨l, s, r, rfl, rfl, hl, ⟨old, rfl⟩ | ⟨rfl, hr⟩⟩ := upsert_cases h
  · simpa using distinct
  · simp only [keys_append, keys_none] at distinct
    rw [keys_append, keys_some, List.nodup_middle, List.nodup_cons, List.mem_append, not_or]
    exact ⟨⟨hl, hr⟩, distinct⟩

theorem lookup_upsert {k : K} {v : V} {t t' : Slots K V} (h : upsert k v t = some t') (k' : K) :
    lookup k' t' = if k' = k then some v else lookup k' t := by
  obtain ⟨l, s, r, rfl, rfl, hl, hs⟩ := upsert_cases h
  rw [lookup_append, lookup_append]
  by_cases eq : k' = k
  · subst k'
    simp [lookup, lookup_eq_none.mpr hl]
  · -- The slot that changes does not hold another key
    have skip : lookup k' (s :: r) = lookup k' r := by
      rcases hs with ⟨old, rfl⟩ | ⟨rfl, -⟩
      · simp [lookup, Ne.symm eq]
      · rfl
    simp [lookup, eq, Ne.symm eq, skip]

/-! ### Histories of writes -/

/-- One write: refused outside `allowed`, else stored if there is room. -/
def write (allowed : K → V → Bool) (t : Slots K V) (k : K) (v : V) : Bool × Slots K V :=
  if allowed k v then
    match upsert k v t with
    | some t' => (true, t')
    | none => (false, t)
  else (false, t)

/-- The writes of a history, each with the answer it got, and the slots after them. -/
def writeAll (allowed : K → V → Bool) (t : Slots K V) : List (K × V) → List ((K × V) × Bool) × Slots K V
  | [] => ([], t)
  | (k, v) :: ws =>
    let (accepted, t') := write allowed t k v
    let (log, last) := writeAll allowed t' ws
    (((k, v), accepted) :: log, last)

/-- The value of the last accepted write to `k`. -/
def lastAccepted (k : K) : List ((K × V) × Bool) → Option V
  | [] => none
  | ((k', v), accepted) :: log =>
    (lastAccepted k log).or (if accepted ∧ k' = k then some v else none)

variable {allowed : K → V → Bool} {t : Slots K V} {k : K} {v : V}

theorem write_accepted_iff :
    (write allowed t k v).1 = true ↔ allowed k v = true ∧ (k ∈ keys t ∨ (keys t).length ≠ t.length) := by
  rw [write]
  split
  next ok =>
    cases h : upsert k v t with
    | none => simpa [ok] using upsert_eq_none.mp h
    | some t' =>
      have room : ¬(k ∉ keys t ∧ (keys t).length = t.length) := by
        rw [← upsert_eq_none (v := v), h]
        simp
      simp only [true_iff, ok, true_and]
      tauto
  next no => simp [no]

theorem write_refused (h : (write allowed t k v).1 = false) : (write allowed t k v).2 = t := by
  rw [write] at h ⊢
  split at h <;> rename_i ok
  · rw [if_pos ok]
    split at h
    · simp at h
    · rfl
  · rw [if_neg ok]

theorem write_accepted (h : (write allowed t k v).1 = true) :
    upsert k v t = some (write allowed t k v).2 := by
  rw [write] at h ⊢
  split at h <;> rename_i ok
  · rw [if_pos ok]
    split at h <;> rename_i hu
    · exact hu
    · simp at h
  · simp at h

theorem lookup_write (k' : K) :
    lookup k' (write allowed t k v).2 =
      if (write allowed t k v).1 = true ∧ k' = k then some v else lookup k' t := by
  by_cases h : (write allowed t k v).1 = true
  · simp only [h, true_and]
    exact lookup_upsert (write_accepted h) k'
  · rw [write_refused (by simpa using h)]
    simp [h]

theorem nodup_write (distinct : (keys t).Nodup) : (keys (write allowed t k v).2).Nodup := by
  by_cases h : (write allowed t k v).1 = true
  · exact nodup_upsert (write_accepted h) distinct
  · rw [write_refused (by simpa using h)]
    exact distinct

theorem mem_keys_write {k' : K} (h : k' ∈ keys (write allowed t k v).2) :
    k' ∈ keys t ∨ (k' = k ∧ allowed k v = true) := by
  by_cases accepted : (write allowed t k v).1 = true
  · rcases (mem_keys_upsert (write_accepted accepted) k').mp h with rfl | old
    · exact Or.inr ⟨rfl, (write_accepted_iff.mp accepted).1⟩
    · exact Or.inl old
  · rw [write_refused (by simpa using accepted)] at h
    exact Or.inl h

theorem writeAll_cons (w : K × V) (ws : List (K × V)) :
    writeAll allowed t (w :: ws) =
      ((w, (write allowed t w.1 w.2).1) :: (writeAll allowed (write allowed t w.1 w.2).2 ws).1,
        (writeAll allowed (write allowed t w.1 w.2).2 ws).2) := rfl

/-- An invariant of the slots that every write keeps holds after any history. -/
theorem writeAll_invariant {I : Slots K V → Prop}
    (step : ∀ t k v, I t → I (write allowed t k v).2) (ws : List (K × V)) {t : Slots K V}
    (start : I t) : I (writeAll allowed t ws).2 := by
  induction ws generalizing t with
  | nil => exact start
  | cons w ws ih => exact ih (step t w.1 w.2 start)

/-- Every key was there before or has been written. -/
theorem mem_keys_writeAll {k' : K} (ws : List (K × V)) {t : Slots K V}
    (h : k' ∈ keys (writeAll allowed t ws).2) : k' ∈ keys t ∨ ∃ w ∈ ws, w.1 = k' := by
  induction ws generalizing t with
  | nil => exact Or.inl h
  | cons w ws ih =>
    rcases ih h with before | ⟨w', hw', rfl⟩
    · rcases mem_keys_write before with old | ⟨rfl, -⟩
      · exact Or.inl old
      · exact Or.inr ⟨w, List.mem_cons_self, rfl⟩
    · exact Or.inr ⟨w', List.mem_cons_of_mem _ hw', rfl⟩

/-- The slots hold the last accepted value of every key. -/
theorem lookup_writeAll (ws : List (K × V)) (t : Slots K V) (k : K) :
    lookup k (writeAll allowed t ws).2 = (lastAccepted k (writeAll allowed t ws).1).or (lookup k t) := by
  induction ws generalizing t with
  | nil => rfl
  | cons w ws ih =>
    obtain ⟨k', v⟩ := w
    -- A later accepted write hides this one; otherwise this one decides.
    simp only [writeAll, lastAccepted, ih, lookup_write, Option.or_assoc]
    congr 1
    by_cases h : (write allowed t k' v).1 = true ∧ k = k'
    · rw [if_pos h, if_pos ⟨h.1, h.2.symm⟩, Option.some_or]
    · rw [if_neg h, if_neg fun hc => h ⟨hc.1, hc.2.symm⟩, Option.none_or]

theorem lastAccepted_eq_none {log : List ((K × V) × Bool)} {k : K} :
    lastAccepted k log = none ↔ ∀ e ∈ log, ¬(e.2 = true ∧ e.1.1 = k) := by
  induction log with
  | nil => simp [lastAccepted]
  | cons e log ih =>
    obtain ⟨⟨k', v⟩, accepted⟩ := e
    simp only [lastAccepted, Option.or_eq_none_iff, ih, List.mem_cons, forall_eq_or_imp]
    rw [and_comm]
    apply and_congr_left
    intro _
    split <;> simp_all

theorem lastAccepted_map {W : Type} (f : V → W) (log : List ((K × V) × Bool)) (k : K) :
    lastAccepted k (log.map fun e => ((e.1.1, f e.1.2), e.2)) = (lastAccepted k log).map f := by
  induction log with
  | nil => rfl
  | cons e log ih =>
    obtain ⟨⟨k', v⟩, accepted⟩ := e
    simp only [List.map_cons, lastAccepted, ih]
    cases lastAccepted k log <;> simp only [Option.map_none, Option.map_some, Option.none_or,
      Option.some_or]
    split <;> rfl

/-! ### Room for some keys -/

/-- The keys among `ks` that are not stored fit into the free slots. -/
def Room (t : Slots K V) (ks : List K) : Prop :=
  (ks.toFinset \ (keys t).toFinset).card + (keys t).length ≤ t.length

instance (t : Slots K V) (ks : List K) : Decidable (Room t ks) := inferInstanceAs (Decidable (_ ≤ _))

theorem length_keys_upsert {k : K} {v : V} {t t' : Slots K V} (h : upsert k v t = some t') :
    (keys t').length = if k ∈ keys t then (keys t).length else (keys t).length + 1 := by
  obtain ⟨l, s, r, rfl, rfl, hl, ⟨old, rfl⟩ | ⟨rfl, hr⟩⟩ := upsert_cases h
  · simp
  · have new : k ∉ keys (l ++ none :: r) := by simp [hl, hr]
    rw [if_neg new]
    simp only [keys_append, keys_some, keys_none, List.length_append, List.length_cons]
    omega

theorem length_upsert {k : K} {v : V} {t t' : Slots K V} (h : upsert k v t = some t') :
    t'.length = t.length := by
  obtain ⟨l, s, r, rfl, rfl, -⟩ := upsert_cases h
  simp

/-- A key for which there is room is taken, and the room for the others stays. -/
theorem write_of_room {ks : List K} (ok : allowed k v = true) (room : Room t (k :: ks)) :
    (write allowed t k v).1 = true ∧ Room (write allowed t k v).2 ks := by
  rw [Room, List.toFinset_cons] at room
  have accepted : (write allowed t k v).1 = true := by
    refine write_accepted_iff.mpr ⟨ok, ?_⟩
    by_cases stored : k ∈ keys t
    · exact .inl stored
    · -- The new key is one of those that fit
      have new : k ∈ insert k ks.toFinset \ (keys t).toFinset := by simp [stored]
      have some_ := Finset.card_pos.mpr ⟨k, new⟩
      exact .inr (by omega)
  have upserted := write_accepted accepted
  refine ⟨accepted, ?_⟩
  have members : (keys (write allowed t k v).2).toFinset = insert k (keys t).toFinset := by
    ext k'
    simp [mem_keys_upsert upserted]
  rw [Room, members, length_upsert upserted, length_keys_upsert upserted]
  split
  next stored =>
    have same : insert k (keys t).toFinset = (keys t).toFinset :=
      Finset.insert_eq_self.mpr (by simpa using stored)
    have fewer := Finset.card_le_card (Finset.sdiff_subset_sdiff
      (Finset.subset_insert k ks.toFinset) (Finset.Subset.refl (keys t).toFinset))
    rw [same]
    omega
  next new =>
    have absent : k ∉ (keys t).toFinset := by simpa using new
    have counted : ks.toFinset \ insert k (keys t).toFinset =
        (insert k ks.toFinset \ (keys t).toFinset).erase k := by
      ext k'
      simp only [Finset.mem_sdiff, Finset.mem_insert, Finset.mem_erase]
      tauto
    have one : k ∈ insert k ks.toFinset \ (keys t).toFinset := by simp [new]
    rw [counted, Finset.card_erase_of_mem one]
    have some_ := Finset.card_pos.mpr ⟨k, one⟩
    omega

/-- One value written to several keys for which there is room: every write is accepted, the keys have
the value, and the others have what they had. -/
theorem writeAll_of_room {ks : List K} (ok : ∀ k ∈ ks, allowed k v = true) (room : Room t ks) :
    (∀ e ∈ (writeAll allowed t (ks.map (·, v))).1, e.2 = true) ∧
      (∀ k ∈ ks, lookup k (writeAll allowed t (ks.map (·, v))).2 = some v) ∧
      ∀ k, k ∉ ks → lookup k (writeAll allowed t (ks.map (·, v))).2 = lookup k t := by
  induction ks generalizing t with
  | nil => simp [writeAll]
  | cons k ks ih =>
    obtain ⟨accepted, rest⟩ := write_of_room (ok k List.mem_cons_self) room
    obtain ⟨taken, values, others⟩ := ih (fun k' hk' => ok k' (List.mem_cons_of_mem _ hk')) rest
    rw [List.map_cons, writeAll_cons]
    refine ⟨List.forall_mem_cons.mpr ⟨accepted, taken⟩, fun k' hk' => ?_, fun k' hk' => ?_⟩
    · by_cases later : k' ∈ ks
      · exact values k' later
      · -- Not written again, so it has the value of this write
        obtain rfl : k' = k := (List.mem_cons.mp hk').resolve_right later
        rw [others k' later, lookup_write, if_pos ⟨accepted, rfl⟩]
    · rw [List.mem_cons, not_or] at hk'
      rw [others k' hk'.2, lookup_write, if_neg fun h => hk'.1 h.2]

end SlotTable
