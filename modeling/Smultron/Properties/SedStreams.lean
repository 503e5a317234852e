import Smultron.Properties.Redirection
import Smultron.Properties.SedFiles

/-!
# sed without a file

The input comes in pieces, one for each read, and every piece is edited for itself. What is written
depends on where the stream is cut, except for the scripts for which a cut makes no difference.
-/

namespace Smultron.Sed

open Checked Checked.Outcome Proc Process Replace

variable {script : Script} {done : List (Syscall × Reply)} {s out : Bytes} {pieces : List Bytes}

/-- A read of the input gets at most the bytes there is room for, and their number. -/
def Delivers (c : Syscall) (r : Reply) : Prop :=
  ∀ size, c = .read 0 (some size) → r.ret = r.data.length ∧ r.data.length ≤ size

/-- `out` can be what sed has written for the stream `s`. A console never ends, so this is also said
of a loop that has not come to an end. -/
def Streams (script : Script) (s out : Bytes) : Prop :=
  ∃ rounds calls o, (runOnStdin rounds script).Exec Delivers calls o ∧ delivered calls = s ∧
    written calls = out

/-- The stream in pieces, one for each read. -/
structure Split (s : Bytes) (pieces : List Bytes) : Prop where
  whole : pieces.flatten = s
  some_ : ∀ piece ∈ pieces, piece ≠ []
  fits : ∀ piece ∈ pieces, piece.length ≤ maxIoBuf

theorem split_nil : Split [] [] := ⟨rfl, nofun, nofun⟩

theorem Split.cons {piece : Bytes} (h : Split s pieces) (some_ : piece ≠ [])
    (fits : piece.length ≤ maxIoBuf) : Split (piece ++ s) (piece :: pieces) :=
  ⟨congrArg (piece ++ ·) h.whole, List.forall_mem_cons.mpr ⟨some_, h.some_⟩,
    List.forall_mem_cons.mpr ⟨fits, h.fits⟩⟩

theorem Split.append {s' : Bytes} {pieces' : List Bytes} (h : Split s pieces) (h' : Split s' pieces') :
    Split (s ++ s') (pieces ++ pieces') where
  whole := by rw [List.flatten_append, h.whole, h'.whole]
  some_ := List.forall_mem_append.mpr ⟨h.some_, h'.some_⟩
  fits := List.forall_mem_append.mpr ⟨h.fits, h'.fits⟩

theorem split_one {piece : Bytes} (some_ : piece ≠ []) (fits : piece.length ≤ maxIoBuf) :
    Split piece [piece] :=
  ⟨List.append_nil piece, by simpa using some_, by simpa using fits⟩

/-- A piece for each byte. -/
def singles (s : Bytes) : List Bytes := s.map fun b => [b]

theorem split_singles (s : Bytes) : Split s (singles s) := by
  induction s with
  | nil => exact split_nil
  | cons b s ih => exact ih.cons (List.cons_ne_nil b []) (by decide : 1 ≤ maxIoBuf)

/-! ### The reads of the kernel -/

theorem length_readLoop (left : Nat) (io : IoState) (console : Console) :
    (readLoop left io console).1.length ≤ left := by
  induction left generalizing io console with
  | zero => exact Nat.le_refl _
  | succ left ih =>
    rw [readLoop]
    split
    · exact Nat.succ_le_succ (ih _ _)
    · exact Nat.zero_le _
    · dsimp only
      split
      · exact Nat.succ_le_succ (Nat.zero_le _)
      · exact Nat.succ_le_succ (ih _ _)

theorem delivers_dispatch {sys : System} {runner : Runner} {c : Syscall} {k k' : Kernel} {r : Reply}
    (answered : dispatch sys runner c k = some (r, k')) : Delivers c r := by
  rintro size rfl
  have answer : (sysRead k 0 (some size)).1 = r := congrArg Prod.fst (Option.some.inj answered)
  subst answer
  refine ⟨sysRead_ret k size, ?_⟩
  simp only [sysRead, ne_eq, not_true_eq_false, if_false]
  split
  · exact Nat.zero_le _
  · exact length_readLoop ..

/-- What sed writes in a run on the kernel. -/
theorem streams_of_run {sys : System} {runner : Runner} {rounds : Nat} {k : Kernel}
    {ran : Program.Ran Syscall Reply Kernel (Outcome Empty (Reading Unit))}
    (ended : (runOnStdin rounds script).run (dispatch sys runner) k = some ran) :
    Streams script (delivered ran.calls) (written ran.calls) :=
  ⟨rounds, ran.calls, ran.result, (@Program.exec_of_run _ _ _ _ (dispatch sys runner) Delivers
    (fun _ => True) (fun _ _ _ _ answered _ => ⟨delivers_dispatch answered, trivial⟩) _ k ran trivial
    ended).1, rfl, rfl⟩

/-! ### The rounds of the loop -/

/-- Whatever the loop reads, it writes what it makes of each piece. -/
theorem editInput_traces {rounds : Nat} {inBuf : Bytes} (size : inBuf.length = maxIoBuf) :
    Traces Delivers done (fun d _ => ∃ s pieces, Split s pieces ∧
        delivered d = delivered done ++ s ∧ written d = written done ++ pieces.flatMap (edit script))
      (editInput script rounds inBuf) := by
  induction rounds generalizing inBuf done with
  | zero => exact Traces.pure ⟨[], [], split_nil, by simp, by simp⟩
  | succ rounds ih =>
    rw [editInput]
    refine Traces.bind (Traces.request_bind fun r admitted => Traces.pure ⟨nofun, ?_⟩)
    rintro _ ⟨⟩
    obtain ⟨ret, few⟩ := admitted _ rfl
    rw [size] at few
    have never : maxIoBuf < u64Max := by decide
    have read : delivered (done ++ [(.read 0 (some inBuf.length), r)]) = delivered done ++ r.data := by
      rw [delivered_append, delivered_singleton]
      rfl
    have silent : written (done ++ [(.read 0 (some inBuf.length), r)]) = written done := by
      rw [written_append, written_singleton]
      exact List.append_nil _
    dsimp only
    rw [if_neg (by omega)]
    by_cases ended : r.ret = 0
    · have none : r.data = [] := List.length_eq_zero_iff.mp (ret ▸ ended)
      rw [if_pos ended]
      exact Traces.pure ⟨[], [], split_nil, by rw [read, none], by rw [silent]; simp⟩
    · have whole : (Libos.overwrite inBuf r.data).length = maxIoBuf :=
        (Shell.length_overwrite (by omega)).trans size
      have fits : r.data.length ≤ (Libos.overwrite inBuf r.data).length := by omega
      rw [if_neg ended, ret, slice_of_le (Nat.zero_le _) fits, lift_ok, Proc.pure_bind,
        List.drop_zero, take_overwrite]
      refine Traces.bind (Traces.request_bind fun w _ => Traces.pure ⟨nofun, fun _ _ => ?_⟩)
      -- The piece that was read comes before those of the later rounds
      refine (ih whole).mono fun d _ _ later => ?_
      obtain ⟨s, pieces, split, input, output⟩ := later
      have first : r.data ≠ [] := fun none => ended (by rw [ret, none]; rfl)
      refine ⟨r.data ++ s, r.data :: pieces, split.cons first few, ?_, ?_⟩
      · rw [input, delivered_append, read, delivered_singleton, ← List.append_assoc]
        exact congrArg (· ++ s) (List.append_nil _)
      · rw [output, written_append, silent, written_singleton, List.flatMap_cons,
          ← List.append_assoc]
        rfl

theorem exec_read {buf data : Bytes} (room : data.length ≤ buf.length) :
    (Libos.read 0 buf).Exec Delivers [(.read 0 (some buf.length), ⟨data.length, data, none⟩)]
      (.ok (data.length, Libos.overwrite buf data)) := by
  refine exec_bind.mpr (.inr ⟨_, [], _, rfl, exec_request.mpr ⟨_, rfl, ?_, rfl⟩,
    exec_pure.mpr ⟨rfl, rfl⟩⟩)
  rintro _ ⟨⟩
  exact ⟨rfl, room⟩

theorem exec_write (buf : Bytes) : (Libos.write 1 buf).Exec Delivers
    [(.write 1 (some buf), .value buf.length)] (.ok buf.length) :=
  exec_bind.mpr (.inr ⟨_, [], _, rfl, exec_request.mpr ⟨_, rfl, nofun, rfl⟩,
    exec_pure.mpr ⟨rfl, rfl⟩⟩)

/-- The calls of a loop that reads these pieces and then the end of its input. -/
def streamCalls (script : Script) (size : Nat) : List Bytes → List (Syscall × Reply)
  | [] => [(.read 0 (some size), ⟨0, [], none⟩)]
  | piece :: pieces =>
    (.read 0 (some size), ⟨piece.length, piece, none⟩) ::
      (.write 1 (some (edit script piece)), .value (edit script piece).length) ::
      streamCalls script size pieces

/-- Every list of pieces can be what the reads get. -/
theorem editInput_exec {inBuf : Bytes} (size : inBuf.length = maxIoBuf) (split : Split s pieces) :
    (editInput script (pieces.length + 1) inBuf).Exec Delivers
      (streamCalls script maxIoBuf pieces) (.ok (.ended ())) := by
  obtain ⟨-, some_, fits⟩ := split
  induction pieces generalizing inBuf with
  | nil =>
    have read := @exec_read inBuf [] (Nat.zero_le _)
    have never : ¬([] : Bytes).length = u64Max := by decide
    rw [size] at read
    refine exec_bind.mpr (.inr ⟨_, [], _, rfl, read, ?_⟩)
    dsimp only
    rw [if_neg never, if_pos List.length_nil]
    exact exec_pure.mpr ⟨rfl, rfl⟩
  | cons piece pieces ih =>
    obtain ⟨first, some_⟩ := List.forall_mem_cons.mp some_
    obtain ⟨few, fits⟩ := List.forall_mem_cons.mp fits
    have whole : (Libos.overwrite inBuf piece).length = maxIoBuf :=
      (Shell.length_overwrite (by omega)).trans size
    have never : maxIoBuf < u64Max := by decide
    have more : piece.length ≠ 0 := fun none => first (List.length_eq_zero_iff.mp none)
    have read := @exec_read inBuf piece (by omega)
    rw [size] at read
    refine exec_bind.mpr (.inr ⟨_, _, _, rfl, read, ?_⟩)
    dsimp only
    rw [if_neg (by omega), if_neg more, slice_of_le (Nat.zero_le _) (by omega), lift_ok,
      Proc.pure_bind, List.drop_zero, take_overwrite]
    exact exec_bind.mpr (.inr ⟨_, _, _, rfl, exec_write _, ih whole some_ fits⟩)

theorem streamCalls_bytes (script : Script) (size : Nat) (pieces : List Bytes) :
    delivered (streamCalls script size pieces) = pieces.flatten ∧
      written (streamCalls script size pieces) = pieces.flatMap (edit script) := by
  induction pieces with
  | nil => exact ⟨rfl, rfl⟩
  | cons piece pieces ih =>
    exact ⟨congrArg (piece ++ ·) ih.1, congrArg (edit script piece ++ ·) ih.2⟩

theorem streams_iff : Streams script s out ↔
    ∃ pieces, Split s pieces ∧ out = pieces.flatMap (edit script) := by
  constructor
  · rintro ⟨rounds, calls, o, e, rfl, rfl⟩
    obtain ⟨s, pieces, split, input, output⟩ :=
      @editInput_traces script [] rounds _ List.length_replicate calls o e
    rw [List.nil_append] at input output
    exact ⟨pieces, input ▸ split, output⟩
  · rintro ⟨pieces, split, rfl⟩
    obtain ⟨input, output⟩ := streamCalls_bytes script maxIoBuf pieces
    exact ⟨pieces.length + 1, _, _, editInput_exec List.length_replicate split,
      input.trans split.whole, output⟩

/-! ### Scripts that a cut does not matter to -/

/-- A script that changes nothing in the stream, or that looks for one byte. Without the flag it has
to be a byte of which no two are less than a buffer apart, since one is replaced in each piece. -/
def CutFree (script : Script) (s : Bytes) : Prop :=
  script.pattern.val = [] ∨ script.replacement.val = script.pattern.val ∨
    ¬script.pattern.val <:+: s ∨
    ∃ b, script.pattern.val = [b] ∧ (script.isGlobal = true ∨
      ∀ window, window <:+: s → window.length ≤ maxIoBuf → window.count b ≤ 1)

theorem edit_eq (script : Script) (input : Bytes) : edit script input =
    (replace script.pattern.val script.replacement.val script.isGlobal input).take maxIoBuf :=
  substitute_eq ..

theorem Split.inside {piece : Bytes} (h : Split s pieces) (mem : piece ∈ pieces) : piece <:+: s :=
  h.whole ▸ List.infix_of_mem_flatten mem

/-- When the pieces change like the bytes in them, the output is that of the whole stream. -/
theorem flatMap_edit {F : UInt8 → Bytes} (split : Split s pieces)
    (each : ∀ piece ∈ pieces,
      replace script.pattern.val script.replacement.val script.isGlobal piece = piece.flatMap F)
    (fits : ∀ piece ∈ pieces, (piece.flatMap F).length ≤ maxIoBuf) :
    pieces.flatMap (edit script) = s.flatMap F := by
  rw [← split.whole, ← List.flatMap_id, List.flatMap_assoc]
  refine List.flatMap_congr fun piece mem => ?_
  rw [edit_eq, each piece mem]
  exact List.take_of_length_le (fits piece mem)

theorem unchanged_flatMap_edit (split : Split s pieces) (each : ∀ piece ∈ pieces,
    replace script.pattern.val script.replacement.val script.isGlobal piece = piece) :
    pieces.flatMap (edit script) = s.flatMap fun b => [b] := by
  refine flatMap_edit split (fun piece mem => ?_) fun piece mem => ?_
  · rw [each piece mem, List.flatMap_singleton']
  · rw [List.flatMap_singleton']
    exact split.fits piece mem

/-- A piece in which one occurrence is replaced is no longer than the stream with one replaced, where
that fits. -/
theorem length_replace_piece {pattern replacement piece : Bytes} (some_ : pattern ≠ [])
    (inside : piece <:+: s) (few : piece.length ≤ maxIoBuf)
    (fits : (replace pattern replacement false s).length ≤ maxIoBuf) :
    (replace pattern replacement false piece).length ≤ maxIoBuf := by
  by_cases occurs : pattern <:+: piece
  · have here := @length_replace_once _ _ pattern replacement _ some_ occurs
    have there := @length_replace_once _ _ pattern replacement _ some_ (occurs.trans inside)
    have shorter := inside.length_le
    omega
  · rwa [replace_absent occurs]

/-- The output for a stream that may be cut anywhere. -/
theorem exists_output (free : CutFree script s)
    (fits : (replace script.pattern.val script.replacement.val script.isGlobal s).length ≤ maxIoBuf) :
    ∃ F : UInt8 → Bytes, ∀ pieces, Split s pieces → pieces.flatMap (edit script) = s.flatMap F := by
  rcases free with none | same | absent | ⟨b, single, cuts⟩
  · exact ⟨_, fun pieces split => unchanged_flatMap_edit split fun _ _ => by rw [none, replace_empty]⟩
  · exact ⟨_, fun pieces split => unchanged_flatMap_edit split fun _ _ => by rw [same, replace_same]⟩
  · exact ⟨_, fun pieces split => unchanged_flatMap_edit split fun piece mem =>
      replace_absent fun occurs => absent (occurs.trans (split.inside mem))⟩
  · refine ⟨fun x => if x = b then script.replacement.val else [x], fun pieces split => ?_⟩
    rw [single] at fits
    cases isGlobal : script.isGlobal with
    | true =>
      rw [isGlobal, replace_single] at fits
      refine flatMap_edit split (fun piece _ => ?_) fun piece mem => ?_
      · rw [single, isGlobal, replace_single]
      · exact ((split.inside mem).flatMap _).length_le.trans fits
    | false =>
      have once (piece : Bytes) (mem : piece ∈ pieces) : piece.count b ≤ 1 :=
        (cuts.resolve_left (by simp [isGlobal])) piece (split.inside mem) (split.fits piece mem)
      rw [isGlobal] at fits
      refine flatMap_edit split (fun piece mem => ?_) fun piece mem => ?_
      · rw [single, isGlobal, replace_once (once piece mem)]
      · rw [← replace_once (once piece mem)]
        exact length_replace_piece (List.cons_ne_nil b []) (split.inside mem) (split.fits piece mem) fits

/-! ### Scripts that a cut matters to -/

/-- Two ways to cut a part of the stream are ways to cut the stream. -/
theorem edits_agree {part : Bytes} {ps qs : List Bytes} (inside : part <:+: s)
    (unique : ∀ pieces pieces', Split s pieces → Split s pieces' →
      pieces.flatMap (edit script) = pieces'.flatMap (edit script))
    (hp : Split part ps) (hq : Split part qs) :
    ps.flatMap (edit script) = qs.flatMap (edit script) := by
  obtain ⟨before, after, rfl⟩ := inside
  have whole {cut : List Bytes} (h : Split part cut) :
      Split (before ++ part ++ after) (singles before ++ cut ++ singles after) :=
    ((split_singles before).append h).append (split_singles after)
  have same := unique _ _ (whole hp) (whole hq)
  rw [List.flatMap_append, List.flatMap_append, List.flatMap_append, List.flatMap_append] at same
  exact List.append_cancel_left (List.append_cancel_right same)

/-- A pattern of several bytes is cut apart by pieces of one byte. -/
theorem replacement_of_agree {c c' : UInt8} {rest : Bytes} (pattern : script.pattern.val = c :: c' :: rest)
    (occurs : script.pattern.val <:+: s)
    (unique : ∀ pieces pieces', Split s pieces → Split s pieces' →
      pieces.flatMap (edit script) = pieces'.flatMap (edit script)) :
    script.replacement.val = script.pattern.val := by
  have some_ : script.pattern.val ≠ [] := by simp [pattern]
  have short := script.pattern.property
  have short' := script.replacement.property
  have most : maxPattern ≤ maxIoBuf := by decide
  have most' : maxReplacement ≤ maxIoBuf := by decide
  have same := edits_agree occurs unique (split_singles _) (split_one some_ (short.trans most))
  have apart (piece : Bytes) (mem : piece ∈ singles script.pattern.val) :
      replace script.pattern.val script.replacement.val script.isGlobal piece = piece := by
    obtain ⟨b, -, rfl⟩ := List.mem_map.mp mem
    refine replace_absent fun within => ?_
    have longer := within.length_le
    simp [pattern] at longer
  rw [unchanged_flatMap_edit (split_singles _) apart, List.flatMap_singleton', List.flatMap_singleton,
    edit_eq, replace_self some_, List.take_of_length_le (short'.trans most')] at same
  exact same.symm

/-- From one occurrence of a byte to another. -/
theorem exists_gap {b : UInt8} {window : Bytes} (twice : 1 < window.count b) :
    ∃ gap, b :: (gap ++ [b]) <:+: window := by
  obtain ⟨before, rest, rfl, absent⟩ :=
    List.eq_append_cons_of_mem (List.count_pos_iff.mp (Nat.lt_of_succ_lt twice))
  rw [List.count_append, List.count_eq_zero.mpr absent, List.count_cons_self] at twice
  obtain ⟨gap, after, rfl⟩ := List.append_of_mem (List.count_pos_iff.mp (by omega : 0 < rest.count b))
  exact ⟨gap, before, after, by simp⟩

/-- Two occurrences of a byte in one piece, of which one is replaced, and in two. -/
theorem single_of_agree {b : UInt8} {gap : Bytes} (pattern : script.pattern.val = [b])
    (first : script.isGlobal = false) (inside : b :: (gap ++ [b]) <:+: s)
    (near : (b :: (gap ++ [b])).length ≤ maxIoBuf)
    (unique : ∀ pieces pieces', Split s pieces → Split s pieces' →
      pieces.flatMap (edit script) = pieces'.flatMap (edit script)) :
    script.replacement.val = script.pattern.val := by
  have some_ : [b] ≠ [] := List.cons_ne_nil b []
  have short : (b :: gap).length ≤ maxIoBuf := by simp at near ⊢; omega
  have last : Split [b] [[b]] := split_one some_ (by decide : 1 ≤ maxIoBuf)
  have two : Split (b :: (gap ++ [b])) [b :: gap, [b]] := last.cons (List.cons_ne_nil b gap) short
  have same := edits_agree inside unique two (split_one (List.cons_ne_nil b _) near)
  have most : maxReplacement ≤ maxIoBuf := by decide
  have fits := script.replacement.property
  have edited (text : Bytes) :
      edit script (b :: text) = (script.replacement.val ++ text).take maxIoBuf := by
    rw [edit_eq, pattern, first]
    exact congrArg (List.take maxIoBuf) (replace_first some_)
  rw [List.flatMap_cons, List.flatMap_singleton, List.flatMap_singleton, edited, edited, edited,
    List.append_nil, List.take_of_length_le (fits.trans most)] at same
  rw [pattern]
  have sizes := congrArg List.length same
  simp only [List.length_append, List.length_take, List.length_cons, List.length_nil] at sizes near
  -- Nothing was cut off, so only the last byte differs
  rw [List.take_of_length_le (by rw [List.length_append]; omega),
    List.take_of_length_le (by simp only [List.length_append, List.length_singleton]; omega),
    List.append_assoc] at same
  exact List.append_cancel_left (List.append_cancel_left same)

/-- Where the stream is cut makes no difference to what is written if and only if the script and the
stream are such that it cannot. -/
theorem cuts_irrelevant_iff (script : Script) (s result : Bytes)
    (replaced : Replaced script.pattern.val script.replacement.val script.isGlobal s result)
    (fits : result.length ≤ 4096) : (∃! out, Streams script s out) ↔ CutFree script s := by
  obtain rfl := replaced_iff.mp replaced
  constructor
  · rintro ⟨out, -, only⟩
    have unique (pieces pieces' : List Bytes) (h : Split s pieces) (h' : Split s pieces') :
        pieces.flatMap (edit script) = pieces'.flatMap (edit script) :=
      (only _ (streams_iff.mpr ⟨_, h, rfl⟩)).trans (only _ (streams_iff.mpr ⟨_, h', rfl⟩)).symm
    by_cases occurs : script.pattern.val <:+: s
    · cases pattern : script.pattern.val with
      | nil => exact .inl pattern
      | cons b rest =>
        cases rest with
        | cons c rest => exact .inr (.inl (replacement_of_agree pattern occurs unique))
        | nil =>
          by_cases same : script.replacement.val = script.pattern.val
          · exact .inr (.inl same)
          · refine .inr (.inr (.inr ⟨b, pattern, ?_⟩))
            cases isGlobal : script.isGlobal with
            | true => exact .inl rfl
            | false =>
              refine .inr fun window inside few => Nat.le_of_not_lt fun twice => same ?_
              obtain ⟨gap, between⟩ := exists_gap twice
              exact single_of_agree pattern isGlobal (between.trans inside)
                (between.length_le.trans few) unique
    · exact .inr (.inr (.inl occurs))
  · intro free
    obtain ⟨F, output⟩ := exists_output free fits
    refine ⟨s.flatMap F, streams_iff.mpr ⟨_, split_singles s, (output _ (split_singles s)).symm⟩, ?_⟩
    intro out streams
    obtain ⟨pieces, split, rfl⟩ := streams_iff.mp streams
    exact output pieces split

theorem cuts_irrelevant_iff_hello : ∃! out, Streams zeroForO (str "hello") out := by
  refine (cuts_irrelevant_iff zeroForO (str "hello") (str "hell0") (replaced_iff.mpr (by decide +kernel))
    (by decide)).mpr (.inr (.inr (.inr ⟨111, by decide, .inr fun window inside _ => ?_⟩)))
  have whole : (str "hello").count 111 = 1 := by decide +kernel
  exact whole ▸ inside.sublist.count_le 111

def bForA : Script := ⟨manyForA.pattern, ⟨str "b", by decide⟩, false⟩

/-- sed on a kernel that has no program images. -/
def sedRun (rounds : Nat) (k : Kernel) :=
  (runOnStdin rounds bForA).run (dispatch bareSystem (runImage bareSystem 0)) k

/-- A console at which lines with an `a` are typed. -/
def typedLines : Kernel := Kernel.boot fun i => if i % 2 = 0 then 97 else 10

/-- Of two lines that come from a file the first `a` is replaced, and of the same lines typed at the
console both are. -/
theorem cut_changes_output : parseScript (str "s/a/b/") = some bForA ∧
    Replaced bForA.pattern.val bForA.replacement.val bForA.isGlobal (str "a\na\n") (str "b\na\n") ∧
    (∃ ran, sedRun 3 (pipedKernel (str "a\na\n")) = some ran ∧ ran.result = .ok (.ended ()) ∧
      delivered ran.calls = str "a\na\n" ∧ written ran.calls = str "b\na\n") ∧
    (∃ ran, sedRun 2 typedLines = some ran ∧
      delivered ran.calls = str "a\na\n" ∧ written ran.calls = str "b\nb\n") ∧
    ¬∃! out, Streams bForA (str "a\na\n") out := by
  obtain ⟨piped, hpiped⟩ := Option.isSome_iff_exists.mp
    (by decide +kernel : (sedRun 3 (pipedKernel (str "a\na\n"))).isSome = true)
  obtain ⟨typed, htyped⟩ := Option.isSome_iff_exists.mp
    (by decide +kernel : (sedRun 2 typedLines).isSome = true)
  have fromFile : (sedRun 3 (pipedKernel (str "a\na\n"))).map (fun ran =>
      (ran.result, delivered ran.calls, written ran.calls)) =
        some (.ok (.ended ()), str "a\na\n", str "b\na\n") := by decide +kernel
  have fromConsole : (sedRun 2 typedLines).map (fun ran =>
      (delivered ran.calls, written ran.calls)) = some (str "a\na\n", str "b\nb\n") := by
    decide +kernel
  rw [hpiped, Option.map_some, Option.some.injEq, Prod.mk.injEq, Prod.mk.injEq] at fromFile
  rw [htyped, Option.map_some, Option.some.injEq, Prod.mk.injEq] at fromConsole
  refine ⟨by decide +kernel, replaced_iff.mpr (by decide +kernel), ⟨piped, hpiped, fromFile⟩,
    ⟨typed, htyped, fromConsole⟩, ?_⟩
  rintro ⟨out, -, only⟩
  have first := streams_of_run hpiped
  have second := streams_of_run htyped
  rw [fromFile.2.1, fromFile.2.2] at first
  rw [fromConsole.1, fromConsole.2] at second
  exact absurd ((only _ first).trans (only _ second).symm) (by decide)

end Smultron.Sed
