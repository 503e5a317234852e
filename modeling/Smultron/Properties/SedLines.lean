import Smultron.Properties.SedRedirection
import Smultron.Properties.SedStreams

/-!
# The same lines, typed and redirected

A read at the console ends with the line, and a read of redirected input gets as much as there is. So
sed edits typed lines one by one, and the same lines in a file all at once. It writes the same exactly
when the pattern lies in one line and, without the flag, in no second one.

## Main result

- `typed_like_redirected_iff`: when the two runs write the same.
-/

namespace Smultron.Sed

open Checked Checked.Outcome Proc Process Replace

variable {script : Script} {line : Bytes} {lines : List Bytes}

/-- Bytes up to a line end, with the line end. -/
def Line (line : Bytes) : Prop :=
  ∃ text b, line = text ++ [b] ∧ (b = 10 ∨ b = 13) ∧ ∀ c ∈ text, ¬(c = 10 ∨ c = 13)

/-- The pattern does not go on behind a line end. -/
def InLine (pattern : Bytes) : Prop := ∀ c ∈ pattern.dropLast, ¬(c = 10 ∨ c = 13)

/-- A script that does the same to each of the lines as to all of them. -/
def LineFree (script : Script) (lines : List Bytes) : Prop :=
  script.pattern.val = [] ∨ script.replacement.val = script.pattern.val ∨
    ¬script.pattern.val <:+: lines.flatten ∨
    (InLine script.pattern.val ∧ (script.isGlobal = true ∨
      lines.Pairwise fun l l' => ¬(script.pattern.val <:+: l ∧ script.pattern.val <:+: l')))

/-! ### Lines of a text -/

variable {pattern replacement : Bytes}

theorem Line.notAcross (h : Line line) (inLine : InLine pattern) (rest : Bytes) :
    NotAcross pattern line rest := by
  rintro front back rfl some_ some' ends -
  obtain ⟨text, b, rfl, isEnd, -⟩ := h
  -- What lies in front of the cut ends with the line
  have last : b ∈ front := by
    have same := ends.getLast some_
    rw [List.getLast_append_singleton] at same
    exact same ▸ List.getLast_mem some_
  refine inLine b ?_ isEnd
  rw [List.dropLast_append_of_ne_nil some']
  exact List.mem_append_left _ last

/-- A pattern that goes on behind a line end lies in no line. -/
theorem inLine_of_inside (h : Line line) (occurs : pattern <:+: line) : InLine pattern := by
  obtain ⟨text, b, rfl, -, plain⟩ := h
  obtain ⟨before, after, same⟩ := occurs
  intro c mem
  refine plain c ?_
  have some_ : pattern ≠ [] := by
    rintro rfl
    simp at mem
  have inside := congrArg List.dropLast same
  rw [List.dropLast_concat, ← List.dropLast_append_getLast some_, List.append_assoc, List.append_assoc,
    List.dropLast_append_of_ne_nil (by simp), List.dropLast_append_of_ne_nil (by simp)] at inside
  rw [← inside]
  exact List.mem_append_right _ (List.mem_append_left _ mem)

theorem replace_lines_every (all : ∀ l ∈ lines, Line l) (inLine : InLine pattern) :
    replace pattern replacement true lines.flatten = lines.flatMap (replace pattern replacement true) := by
  induction lines with
  | nil => exact replace_nil
  | cons l lines ih =>
    obtain ⟨first, later⟩ := List.forall_mem_cons.mp all
    rw [List.flatten_cons, replace_append_every (first.notAcross inLine _), ih later,
      List.flatMap_cons]

/-- What a replacement leaves of each part, it leaves of all of them. -/
theorem flatMap_absent {every : Bool} (absent : ∀ l ∈ lines, ¬pattern <:+: l) :
    lines.flatMap (replace pattern replacement every) = lines.flatten := by
  rw [← List.flatMap_id]
  exact List.flatMap_congr fun l mem => replace_absent (absent l mem)

theorem replace_lines_once (some_ : pattern ≠ []) (all : ∀ l ∈ lines, Line l) (inLine : InLine pattern)
    (single : lines.Pairwise fun l l' => ¬(pattern <:+: l ∧ pattern <:+: l')) :
    replace pattern replacement false lines.flatten =
      lines.flatMap (replace pattern replacement false) := by
  induction lines with
  | nil => exact replace_nil
  | cons l lines ih =>
    obtain ⟨first, later⟩ := List.forall_mem_cons.mp all
    obtain ⟨alone, single⟩ := List.pairwise_cons.mp single
    have cut := first.notAcross inLine lines.flatten
    rw [List.flatten_cons, List.flatMap_cons]
    by_cases occurs : pattern <:+: l
    · -- The one occurrence is replaced here, so no later line may have another
      have absent : ∀ l' ∈ lines, ¬pattern <:+: l' := fun l' mem again => alone l' mem ⟨occurs, again⟩
      rw [replace_append_once some_ cut occurs, flatMap_absent absent]
    · rw [replace_append_absent cut occurs, replace_absent occurs, ih later single]

/-- Without the flag, a second line with the pattern makes a difference. -/
theorem pairwise_of_same (some_ : pattern ≠ []) (other : replacement ≠ pattern)
    (all : ∀ l ∈ lines, Line l) (inLine : InLine pattern)
    (same : replace pattern replacement false lines.flatten =
      lines.flatMap (replace pattern replacement false)) :
    lines.Pairwise fun l l' => ¬(pattern <:+: l ∧ pattern <:+: l') := by
  induction lines with
  | nil => exact .nil
  | cons l lines ih =>
    obtain ⟨first, later⟩ := List.forall_mem_cons.mp all
    have cut := first.notAcross inLine lines.flatten
    rw [List.flatten_cons, List.flatMap_cons] at same
    by_cases occurs : pattern <:+: l
    · -- Behind this line the one run changes nothing, so the other must not either
      rw [replace_append_once some_ cut occurs] at same
      have unchanged := replace_parts_same (List.append_cancel_left same).symm
      have absent : ∀ l' ∈ lines, ¬pattern <:+: l' :=
        fun l' mem again => replace_ne some_ other again (unchanged l' mem)
      refine List.pairwise_cons.mpr ⟨fun l' mem both => absent l' mem both.2, ?_⟩
      exact List.pairwise_of_forall_mem_list fun l' mem _ _ both => absent l' mem both.1
    · rw [replace_append_absent cut occurs, replace_absent occurs] at same
      refine List.pairwise_cons.mpr ⟨fun l' _ both => occurs both.1, ?_⟩
      exact ih later (List.append_cancel_left same)

/-! ### What is written of the lines -/

theorem Line.ne_nil (h : Line line) : line ≠ [] := by
  obtain ⟨text, b, rfl, -, -⟩ := h
  simp

/-- A pattern that lies in one line at a time. -/
theorem edit_inLine_iff (some_ : script.pattern.val ≠ [])
    (other : script.replacement.val ≠ script.pattern.val) (all : ∀ l ∈ lines, Line l)
    (inLine : InLine script.pattern.val) (short : ∀ l ∈ lines, l.length ≤ maxIoBuf)
    (fits : (replace script.pattern.val script.replacement.val script.isGlobal lines.flatten).length ≤
      maxIoBuf) :
    edit script lines.flatten = lines.flatMap (edit script) ↔ script.isGlobal = true ∨
      lines.Pairwise fun l l' => ¬(script.pattern.val <:+: l ∧ script.pattern.val <:+: l') := by
  -- The result of a line fits where the result of all of them does
  have whole (each : ∀ l ∈ lines, (replace script.pattern.val script.replacement.val script.isGlobal
      l).length ≤ maxIoBuf) : lines.flatMap (edit script) =
        lines.flatMap (replace script.pattern.val script.replacement.val script.isGlobal) :=
    List.flatMap_congr fun l mem => by rw [edit_eq, List.take_of_length_le (each l mem)]
  rw [edit_eq, List.take_of_length_le fits]
  cases isGlobal : script.isGlobal with
  | true =>
    rw [isGlobal] at fits whole
    have parts := @replace_lines_every lines _ script.replacement.val all inLine
    rw [parts] at fits
    refine iff_of_true ?_ (.inl rfl)
    rw [parts, whole fun l mem =>
      (List.infix_of_mem_flatten (List.mem_map_of_mem mem)).length_le.trans fits]
  | false =>
    rw [isGlobal] at fits whole
    rw [whole fun l mem =>
      length_replace_piece some_ (List.infix_of_mem_flatten mem) (short l mem) fits]
    refine ⟨fun agree => .inr (pairwise_of_same some_ other all inLine agree), fun free => ?_⟩
    exact replace_lines_once some_ all inLine (free.resolve_left Bool.false_ne_true)

/-- All lines in one read, and one after the other. -/
theorem edit_lines_iff (all : ∀ l ∈ lines, Line l) (few : lines.flatten.length ≤ maxIoBuf)
    (fits : (replace script.pattern.val script.replacement.val script.isGlobal lines.flatten).length ≤
      maxIoBuf) :
    edit script lines.flatten = lines.flatMap (edit script) ↔ LineFree script lines := by
  have short (l : Bytes) (mem : l ∈ lines) : l.length ≤ maxIoBuf :=
    (List.infix_of_mem_flatten mem).length_le.trans few
  have split : Split lines.flatten lines := ⟨rfl, fun l mem => (all l mem).ne_nil, short⟩
  have unchanged (each : ∀ l ∈ lines,
      replace script.pattern.val script.replacement.val script.isGlobal l = l) :
      lines.flatMap (edit script) = lines.flatten := by
    rw [unchanged_flatMap_edit split each, List.flatMap_singleton']
  have atOnce : edit script lines.flatten =
      replace script.pattern.val script.replacement.val script.isGlobal lines.flatten := by
    rw [edit_eq, List.take_of_length_le fits]
  by_cases none_ : script.pattern.val = []
  · refine iff_of_true ?_ (.inl none_)
    rw [atOnce, unchanged fun l _ => by rw [none_, replace_empty], none_, replace_empty]
  by_cases same : script.replacement.val = script.pattern.val
  · refine iff_of_true ?_ (.inr (.inl same))
    rw [atOnce, unchanged fun l _ => by rw [same, replace_same], same, replace_same]
  by_cases occurs : script.pattern.val <:+: lines.flatten
  swap
  · refine iff_of_true ?_ (.inr (.inr (.inl occurs)))
    rw [atOnce, replace_absent occurs, unchanged fun l mem => replace_absent fun here =>
      occurs (here.trans (List.infix_of_mem_flatten mem))]
  rw [LineFree, or_iff_right none_, or_iff_right same, or_iff_right (not_not.mpr occurs)]
  by_cases inLine : InLine script.pattern.val
  · rw [edit_inLine_iff none_ same all inLine short fits, and_iff_right inLine]
  · -- No line has the pattern in it, so none changes by itself
    refine iff_of_false (fun agree => ?_) fun free => inLine free.1
    rw [atOnce, unchanged fun l mem => replace_absent fun here =>
      inLine (inLine_of_inside (all l mem) here)] at agree
    exact replace_ne none_ same occurs agree

/-! ### Reads at the console -/

variable {sys : System} {runner : Runner} {k : Kernel} {done : List (Syscall × Reply)}

/-- These bytes are the next ones of the console. -/
def NextTyped (input : Nat → UInt8) : Nat → Bytes → Prop
  | _, [] => True
  | taken, b :: bytes => input taken = b ∧ NextTyped input (taken + 1) bytes

theorem nextTyped_append {input : Nat → UInt8} {taken : Nat} {bytes more : Bytes} :
    NextTyped input taken (bytes ++ more) ↔
      NextTyped input taken bytes ∧ NextTyped input (taken + bytes.length) more := by
  induction bytes generalizing taken with
  | nil => simp [NextTyped]
  | cons b bytes ih =>
    rw [List.cons_append, NextTyped, NextTyped, ih, and_assoc, List.length_cons, Nat.add_assoc,
      Nat.add_comm 1]

theorem readLoop_line {io : IoState} (noInput : io.stdio.stdin = none) (isLine : Line line)
    {left : Nat} (room : line.length ≤ left) {console : Console}
    (typed : NextTyped console.input console.taken line) :
    readLoop left io console = (line, io, { console with taken := console.taken + line.length }) := by
  obtain ⟨text, b, rfl, isEnd, plain⟩ := isLine
  induction text generalizing left console with
  | nil =>
    obtain ⟨left, rfl⟩ := Nat.exists_eq_add_of_le' (room : 1 ≤ left)
    obtain ⟨first, -⟩ := typed
    simp [readLoop, IoState.takeStdinByte_console noInput, first, isEnd]
  | cons c text ih =>
    -- A byte that is no line end does not stop the loop
    rw [List.cons_append, List.length_cons] at room
    obtain ⟨left, rfl⟩ := Nat.exists_eq_add_of_le' (Nat.one_le_of_lt room)
    obtain ⟨first, typed⟩ := typed
    obtain ⟨goes, plain⟩ := List.forall_mem_cons.mp plain
    have later := @ih left { console with taken := console.taken + 1 }
      (Nat.le_of_succ_le_succ room) typed plain
    simp only [readLoop, IoState.takeStdinByte_console noInput, first, if_neg goes, later]
    rw [List.cons_append, List.length_cons, Nat.add_assoc, Nat.add_comm 1]

/-- A read at the console gets the next line. -/
theorem read_line_leads {buf : Bytes} (noInput : k.io.stdio.stdin = none) (isLine : Line line)
    (room : line.length ≤ buf.length) (typed : NextTyped k.console.input k.console.taken line)
    {Q : List (Syscall × Reply) → Outcome Empty (Nat × Bytes) → Kernel → Prop}
    (h : ∀ r, Q (done ++ [(.read 0 (some buf.length), r)])
      (.ok (line.length, Libos.overwrite buf line))
      { k with console := { k.console with taken := k.console.taken + line.length } }) :
    Leads (dispatch sys runner) done k Q (Libos.read 0 buf) := by
  have some_ := List.length_pos_iff.mpr isLine.ne_nil
  have answer : sysRead k 0 (some buf.length) = (⟨line.length, line, none⟩,
      { k with console := { k.console with taken := k.console.taken + line.length } }) := by
    rw [sysRead, if_neg (by omega), if_neg (by omega), readLoop_line noInput isLine room typed]
  refine Leads.request_bind fun r k' answered => Leads.pure ?_
  obtain ⟨rfl, rfl⟩ := Prod.mk.inj (answer.symm.trans (Option.some.inj answered))
  exact h _

/-- A write leaves the keys and the input as they are. -/
theorem write_keys_leads {buf : Bytes}
    {Q : List (Syscall × Reply) → Outcome Empty Nat → Kernel → Prop}
    (h : ∀ r k', k'.io.stdio.stdin = k.io.stdio.stdin → k'.console.input = k.console.input →
      k'.console.taken = k.console.taken → Q (done ++ [(.write 1 (some buf), r)]) (.ok r.ret) k') :
    Leads (dispatch sys runner) done k Q (Libos.write 1 buf) := by
  refine Leads.request_bind fun r k' answered => Leads.pure ?_
  have after : (sysWrite k 1 (some buf)).2 = k' := congrArg Prod.snd (Option.some.inj answered)
  obtain ⟨-, input, taken⟩ := sysWrite_frame k 1 (some buf)
  rw [after] at input taken
  refine h r k' ?_ input taken
  rw [stdio_dispatch answered rfl]
  exact stdin_idle k.io

/-! ### The loop -/

/-- A round for each typed line. The console never ends, and neither does the loop. -/
theorem editInput_lines_leads {inBuf : Bytes} (size : inBuf.length = maxIoBuf)
    (noInput : k.io.stdio.stdin = none) (all : ∀ l ∈ lines, Line l)
    (short : ∀ l ∈ lines, l.length ≤ maxIoBuf)
    (typed : NextTyped k.console.input k.console.taken lines.flatten) :
    Leads (dispatch sys runner) done k (fun d o _ => o = .ok .unfinished ∧
        written d = written done ++ lines.flatMap (edit script))
      (editInput script lines.length inBuf) := by
  induction lines generalizing inBuf done k with
  | nil => exact Leads.pure ⟨rfl, (List.append_nil _).symm⟩
  | cons l lines ih =>
    obtain ⟨first, all⟩ := List.forall_mem_cons.mp all
    obtain ⟨few, short⟩ := List.forall_mem_cons.mp short
    obtain ⟨now, later⟩ := nextTyped_append.mp typed
    have some_ := List.length_pos_iff.mpr first.ne_nil
    have whole : (Libos.overwrite inBuf l).length = maxIoBuf :=
      (Shell.length_overwrite (by omega)).trans size
    have never : maxIoBuf < u64Max := by decide
    rw [List.length_cons, editInput]
    refine Leads.bind_ok (read_line_leads noInput first (by omega) now fun r => ⟨_, rfl, ?_⟩)
    dsimp only
    rw [if_neg (by omega), if_neg (by omega), slice_of_le (Nat.zero_le _) (by omega), lift_ok,
      Proc.pure_bind, List.drop_zero, take_overwrite]
    refine Leads.bind_ok (write_keys_leads fun w k₂ stdin input taken => ⟨_, rfl, ?_⟩)
    refine (ih whole (stdin.trans noInput) all short (by rwa [input, taken])).mono ?_
    rintro d o k' ⟨outcome, output⟩
    refine ⟨outcome, ?_⟩
    rw [output, written_append, written_append, written_singleton, written_singleton,
      List.flatMap_cons, Syscall.output_read, Syscall.output_stdout, List.append_nil,
      List.append_assoc]

/-- Lines that are typed and the same lines from a file give the same output if and only if the script
does the same to each of them as to all. -/
theorem typed_like_redirected_iff (sys : System) (runner : Runner) (script : Script)
    (lines : List Bytes) (k k' : Kernel) (all : ∀ l ∈ lines, Line l)
    (some_ : lines ≠ []) (few : lines.flatten.length ≤ 4096)
    (fits : (replace script.pattern.val script.replacement.val script.isGlobal lines.flatten).length ≤
      4096)
    (noInput : k.io.stdio.stdin = none)
    (typed : NextTyped k.console.input k.console.taken lines.flatten)
    (redirected : k'.io.stdio.stdin = some lines.flatten) :
    ∃ ran ran',
      (runOnStdin lines.length script).run (dispatch sys runner) k = some ran ∧
      (runOnStdin 2 script).run (dispatch sys runner) k' = some ran' ∧
      (written ran.calls = written ran'.calls ↔ LineFree script lines) := by
  have size : (List.replicate maxIoBuf (0 : UInt8)).length = maxIoBuf := List.length_replicate
  have short (l : Bytes) (mem : l ∈ lines) : l.length ≤ maxIoBuf :=
    (List.infix_of_mem_flatten mem).length_le.trans few
  obtain ⟨l, lines', rfl⟩ := List.exists_cons_of_ne_nil some_
  have nonempty : (l :: lines').flatten ≠ [] :=
    List.append_ne_nil_of_left_ne_nil (all l List.mem_cons_self).ne_nil _
  obtain ⟨ran, ended⟩ := exists_run (editInput_isIo script (l :: lines').length _) sys runner k
  obtain ⟨ran', ended'⟩ := exists_run (editInput_isIo script 2 _) sys runner k'
  refine ⟨ran, ran', ended, ended', ?_⟩
  obtain ⟨-, byLine⟩ := (editInput_lines_leads size noInput all short typed).ran ended
  obtain ⟨-, atOnce⟩ := (@runOnStdin_leads _ _ _ 0 _ _ redirected nonempty few).ran ended'
  rw [byLine, atOnce, eq_comm]
  exact edit_lines_iff all few fits

end Smultron.Sed
