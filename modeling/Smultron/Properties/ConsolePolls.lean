import Mathlib.Algebra.BigOperators.Group.List.Basic
import Smultron.Kernel.Ports
import Smultron.Kernel.Syscall
import Smultron.Lib.Polled

/-!
# Polling the console

The kernel's console is a stream of bytes, and a reader takes the next ones. Behind it are two devices
that know nothing of each other and a reader that spins. They are such a stream: what a reader gets
does not depend on how often it has polled in vain, and no byte is lost on the way.

## Main results

- `reads_polled`: reads from the ports give what reads from the stream give.
- `polled_in_order`: the stream has the bytes of each device in their order, and all of them.
-/

namespace Smultron.Polling

open Polled Process

variable {Keyboard KeyEvent : Type} {pc : PcKeyboard Keyboard KeyEvent} {ports : Ports Keyboard}

/-! ### The devices -/

theorem tryReadSerial_nil (none_ : ports.serial = []) : tryReadSerial ports = (none, ports) := by
  rw [tryReadSerial, Ports.lineStatus, none_]
  rfl

theorem tryReadSerial_cons {b : UInt8} {bs : List UInt8} (some_ : ports.serial = b :: bs) :
    tryReadSerial ports = (some b, { ports with serial := bs }) := by
  have waiting : ¬(0x61 : UInt8) &&& 1 = 0 := by decide
  simp [tryReadSerial, Ports.lineStatus, some_, waiting]

theorem tryReadKey_nil (none_ : ports.scancodes = []) : tryReadKey pc ports = (none, ports) := by
  rw [tryReadKey, Ports.status, none_]
  rfl

theorem tryReadKey_cons {code : UInt8} {codes : List UInt8} (some_ : ports.scancodes = code :: codes) :
    tryReadKey pc ports = ((decodeScancode pc ports.keyboard code).1,
      { ports with
        scancodes := codes
        keyboard := (decodeScancode pc ports.keyboard code).2 }) := by
  have waiting : ¬(0x1d : UInt8) &&& 1 = 0 := by decide
  simp [tryReadKey, Ports.status, some_, waiting]

/-- What has come in is there. -/
def Ports.arrive (ports : Ports Keyboard) : Ports Keyboard :=
  { ports with
    serial := ports.serial ++ (ports.arrivals.headD ([], [])).1
    scancodes := ports.scancodes ++ (ports.arrivals.headD ([], [])).2
    arrivals := ports.arrivals.tail }

/-- The serial line comes first. -/
theorem poll_serial {b : UInt8} {rest : Ports Keyboard}
    (read : tryReadSerial ports.arrive = (some b, rest)) : poll pc ports = (some b, rest) := by
  rw [Ports.arrive] at read
  simp only [poll, read]

theorem poll_keyboard {rest : Ports Keyboard} (read : tryReadSerial ports.arrive = (none, rest)) :
    poll pc ports = tryReadKey pc rest := by
  rw [Ports.arrive] at read
  simp only [poll, read]

/-- The three cases of a poll: a byte from the serial line, a scan code, or nothing at all. -/
theorem poll_cases (pc : PcKeyboard Keyboard KeyEvent) (ports : Ports Keyboard) :
    (∃ b bs, ports.arrive.serial = b :: bs ∧
      poll pc ports = (some b, { ports.arrive with serial := bs })) ∨
    (∃ code codes, ports.arrive.serial = [] ∧ ports.arrive.scancodes = code :: codes ∧
      poll pc ports = ((decodeScancode pc ports.keyboard code).1,
        { ports.arrive with
          scancodes := codes
          keyboard := (decodeScancode pc ports.keyboard code).2 })) ∨
    (ports.arrive.serial = [] ∧ ports.arrive.scancodes = [] ∧
      poll pc ports = (none, ports.arrive)) := by
  cases line : ports.arrive.serial with
  | cons b bs => exact .inl ⟨b, bs, rfl, poll_serial (tryReadSerial_cons line)⟩
  | nil =>
    have polled : poll pc ports = tryReadKey pc ports.arrive := poll_keyboard (tryReadSerial_nil line)
    cases keys : ports.arrive.scancodes with
    | cons code codes =>
      exact .inr (.inl ⟨code, codes, rfl, rfl, by rw [polled]; exact tryReadKey_cons keys⟩)
    | nil => exact .inr (.inr ⟨rfl, rfl, by rw [polled]; exact tryReadKey_nil keys⟩)

/-! ### Many polls -/

/-- What the keyboard makes of scan codes, one after the other. -/
def decodeAll (pc : PcKeyboard Keyboard KeyEvent) : Keyboard → List UInt8 → Bytes × Keyboard
  | keyboard, [] => ([], keyboard)
  | keyboard, code :: codes =>
    let (byte, keyboard) := decodeScancode pc keyboard code
    let (bytes, keyboard) := decodeAll pc keyboard codes
    (byte.toList ++ bytes, keyboard)

theorem decodeAll_append (keyboard : Keyboard) (codes codes' : List UInt8) :
    decodeAll pc keyboard (codes ++ codes') =
      ((decodeAll pc keyboard codes).1 ++ (decodeAll pc (decodeAll pc keyboard codes).2 codes').1,
        (decodeAll pc (decodeAll pc keyboard codes).2 codes').2) := by
  induction codes generalizing keyboard with
  | nil => rfl
  | cons code codes ih => simp [decodeAll, ih]

/-- What polls have made of the ports: each byte they gave came from the serial line or from the
keyboard, and each device has given its bytes in their order. -/
structure Drained (pc : PcKeyboard Keyboard KeyEvent) (ports ports' : Ports Keyboard)
    (serial scancodes : List UInt8) (given : Bytes) (events : List (UInt8 ⊕ UInt8))
    (codes : List UInt8) : Prop where
  given : given = events.map (Sum.elim id id)
  serial : events.filterMap Sum.getLeft? ++ ports'.serial = ports.serial ++ serial
  scancodes : codes ++ ports'.scancodes = ports.scancodes ++ scancodes
  keys : events.filterMap Sum.getRight? = (decodeAll pc ports.keyboard codes).1
  keyboard : ports'.keyboard = (decodeAll pc ports.keyboard codes).2

theorem Drained.nil (ports : Ports Keyboard) : Drained pc ports ports [] [] [] [] [] where
  given := rfl
  serial := by simp
  scancodes := by simp
  keys := rfl
  keyboard := rfl

theorem drained_poll (pc : PcKeyboard Keyboard KeyEvent) (ports : Ports Keyboard) :
    ∃ events codes, Drained pc ports (poll pc ports).2 (ports.arrivals.headD ([], [])).1
      (ports.arrivals.headD ([], [])).2 (poll pc ports).1.toList events codes := by
  rcases poll_cases pc ports with ⟨b, bs, line, polled⟩ | ⟨code, codes, -, keys, polled⟩ |
    ⟨line, keys, polled⟩
  · exact ⟨[.inl b], [], by rw [polled]; rfl, by rw [polled]; exact line.symm,
      by rw [polled]; rfl, rfl, by rw [polled]; rfl⟩
  · refine ⟨(decodeScancode pc ports.keyboard code).1.toList.map .inr, [code], ?_, ?_, ?_, ?_, ?_⟩
    · cases typed : (decodeScancode pc ports.keyboard code).1 <;> simp [polled, typed]
    · cases typed : (decodeScancode pc ports.keyboard code).1 <;> simp [polled, Ports.arrive]
    · rw [polled]
      exact keys.symm
    · cases typed : (decodeScancode pc ports.keyboard code).1 <;> simp [decodeAll, typed]
    · rw [polled]
      rfl
  · exact ⟨[], [], by rw [polled]; rfl, by rw [polled]; rfl, by rw [polled]; rfl, rfl,
      by rw [polled]; rfl⟩

theorem Drained.append {ports' ports'' : Ports Keyboard} {serial scancodes serial' scancodes' : List UInt8}
    {given given' : Bytes} {events events' : List (UInt8 ⊕ UInt8)} {codes codes' : List UInt8}
    (h : Drained pc ports ports' serial scancodes given events codes)
    (h' : Drained pc ports' ports'' serial' scancodes' given' events' codes') :
    Drained pc ports ports'' (serial ++ serial') (scancodes ++ scancodes') (given ++ given')
      (events ++ events') (codes ++ codes') where
  given := by rw [h.given, h'.given, List.map_append]
  serial := by
    rw [List.filterMap_append, List.append_assoc, h'.serial, ← List.append_assoc, h.serial,
      List.append_assoc]
  scancodes := by
    rw [List.append_assoc, h'.scancodes, ← List.append_assoc, h.scancodes, List.append_assoc]
  keys := by rw [List.filterMap_append, h.keys, h'.keys, h.keyboard, decodeAll_append]
  keyboard := by rw [h'.keyboard, h.keyboard, decodeAll_append]

theorem arrivals_poll (pc : PcKeyboard Keyboard KeyEvent) (ports : Ports Keyboard) :
    (poll pc ports).2.arrivals = ports.arrivals.tail := by
  rcases poll_cases pc ports with ⟨_, _, -, polled⟩ | ⟨_, _, -, -, polled⟩ | ⟨-, -, polled⟩ <;>
    rw [polled] <;> rfl

theorem arrivals_after (n : Nat) : (after (poll pc) n ports).arrivals = ports.arrivals.drop n := by
  induction n generalizing ports with
  | zero => rfl
  | succ n ih =>
    rw [after, ih, arrivals_poll, List.drop_tail]

/-- What arrives before one more poll. -/
theorem arrived_succ (arrivals : List (List UInt8 × List UInt8))
    (f : List UInt8 × List UInt8 → List UInt8) (none_ : f ([], []) = []) (n : Nat) :
    (arrivals.take (n + 1)).flatMap f =
      (arrivals.take n).flatMap f ++ f ((arrivals.drop n).headD ([], [])) := by
  rw [List.take_add_one, List.flatMap_append, List.headD_eq_head?_getD, List.head?_drop]
  cases arrivals[n]? <;> simp [none_]

variable (pc ports) in
theorem drained (n : Nat) : ∃ events codes, Drained pc ports (after (poll pc) n ports)
    ((ports.arrivals.take n).flatMap Prod.fst) ((ports.arrivals.take n).flatMap Prod.snd)
    (yields (poll pc) n ports) events codes := by
  induction n with
  | zero => exact ⟨[], [], .nil ports⟩
  | succ n ih =>
    obtain ⟨events, codes, before⟩ := ih
    obtain ⟨events', codes', last⟩ := drained_poll pc (after (poll pc) n ports)
    have both := before.append last
    rw [arrivals_after] at both
    rw [yields_succ, after_succ, arrived_succ _ _ rfl, arrived_succ _ _ rfl]
    exact ⟨_, _, both⟩

/-- What waits at the ports. -/
def Ports.waiting (ports : Ports Keyboard) : Nat := ports.serial.length + ports.scancodes.length

/-- So many polls are enough for what waits and what will arrive. -/
def Ports.total (ports : Ports Keyboard) : Nat :=
  ports.waiting + (ports.arrivals.map fun come => come.1.length + come.2.length + 1).sum

theorem waiting_poll (pc : PcKeyboard Keyboard KeyEvent) (ports : Ports Keyboard) :
    (poll pc ports).2.waiting = ports.arrive.waiting - 1 := by
  rcases poll_cases pc ports with ⟨b, bs, line, polled⟩ | ⟨code, codes, line, keys, polled⟩ |
    ⟨line, keys, polled⟩
  · simp only [polled, Ports.waiting, line, List.length_cons]
    omega
  · simp [polled, Ports.waiting, line, keys]
  · simp [polled, Ports.waiting, line, keys]

theorem total_poll (pc : PcKeyboard Keyboard KeyEvent) (ports : Ports Keyboard) :
    (poll pc ports).2.total ≤ ports.total - 1 := by
  rw [Ports.total, Ports.total, waiting_poll, arrivals_poll]
  simp only [Ports.waiting, Ports.arrive]
  cases ports.arrivals with
  | nil => simp
  | cons come rest =>
    simp only [List.headD_cons, List.tail_cons, List.length_append, List.map_cons, List.sum_cons]
    omega

variable (pc ports) in
theorem total_after (n : Nat) : (after (poll pc) n ports).total ≤ ports.total - n := by
  induction n with
  | zero => exact Nat.le_refl _
  | succ n ih =>
    rw [after_succ]
    have next := total_poll pc (after (poll pc) n ports)
    omega

/-! ### Reading -/

/-- The stream that is left of a console. -/
def upcoming (console : Console) : Nat → UInt8 := fun i => console.input (console.taken + i)

/-- The console when the ports have given one more byte. -/
theorem upcoming_taken (console : Console) :
    upcoming { console with taken := console.taken + 1 } = fun i => upcoming console (i + 1) := by
  funext i
  rw [upcoming, upcoming, Nat.add_assoc, Nat.add_comm 1 i]

theorem readRounds_more {rounds left : Nat} {io : IoState} {result : Bytes × IoState × Ports Keyboard}
    (ended : readRounds pc rounds left io ports = some result) (more : Nat) :
    readRounds pc (rounds + more) left io ports = some result := by
  induction rounds generalizing left io ports result with
  | zero =>
    cases left with
    | zero => cases more <;> exact ended
    | succ left => cases ended
  | succ rounds ih =>
    cases left with
    | zero =>
      rw [Nat.succ_add]
      exact ended
    | succ left =>
      rw [Nat.succ_add]
      rw [readRounds] at ended ⊢
      split at ended
      · obtain ⟨rest, looped, rfl⟩ := Option.map_eq_some_iff.mp ended
        rw [ih looped, Option.map_some]
      · exact ended
      · split at ended
        · split at ended
          · rwa [if_pos ‹_›]
          · obtain ⟨rest, looped, rfl⟩ := Option.map_eq_some_iff.mp ended
            rw [if_neg ‹_›, ih looped, Option.map_some]
        · exact ih ended

/-- The bytes of the stream are taken one after the other. -/
theorem readLoop_taken (left : Nat) (io : IoState) (console : Console) :
    console.taken ≤ (readLoop left io console).2.2.taken ∧
      (readLoop left io console).2.2 =
        { console with taken := (readLoop left io console).2.2.taken } := by
  induction left generalizing io console with
  | zero => exact ⟨Nat.le_refl _, rfl⟩
  | succ left ih =>
    rw [readLoop]
    split
    · exact ih ..
    · exact ⟨Nat.le_refl _, rfl⟩
    · dsimp only
      split
      · exact ⟨Nat.le_succ _, rfl⟩
      · obtain ⟨later, same⟩ := ih _ { console with taken := console.taken + 1 }
        exact ⟨Nat.le_of_succ_le later, same⟩

theorem unavailable_same {io io' : IoState} (taken : io.takeStdinByte = (.unavailable, io')) :
    io' = io := by
  rw [IoState.takeStdinByte] at taken
  split at taken
  · exact (Prod.mk.inj taken).2.symm
  · split at taken <;> cases taken

/-- A reader without a redirected byte spins until a poll gives one. -/
theorem readRounds_spins {io : IoState} (waits : io.takeStdinByte = (.unavailable, io)) (n : Nat)
    (some_ : 0 < (yields (poll pc) n ports).length) :
    ∃ spins ports₀ b ports₁ m, poll pc ports₀ = (some b, ports₁) ∧
      (yields (poll pc) n ports).length = (yields (poll pc) m ports₁).length + 1 ∧
      (∀ stream, Feeds (poll pc) ports stream → Feeds (poll pc) ports₀ stream) ∧
      ∀ rounds left, readRounds pc (rounds + spins) (left + 1) io ports =
        readRounds pc rounds (left + 1) io ports₀ := by
  induction n generalizing ports with
  | zero => simp [yields] at some_
  | succ n ih =>
    cases polled : poll pc ports with
    | mk given rest =>
      cases given with
      | some b =>
        have first : (yields (poll pc) (n + 1) ports).length = (yields (poll pc) n rest).length + 1 := by
          rw [yields_gives polled, List.length_cons]
        exact ⟨0, ports, b, rest, n, polled, first, fun _ feeds => feeds, fun _ _ => rfl⟩
      | none =>
        rw [yields_idle polled] at some_ ⊢
        obtain ⟨spins, ports₀, b, ports₁, m, gives, first, feeds, same⟩ := ih some_
        refine ⟨spins + 1, ports₀, b, ports₁, m, gives, first,
          fun stream fed => feeds stream (fed.idle polled), fun rounds left => ?_⟩
        rw [← same rounds left, ← Nat.add_assoc]
        simp only [readRounds, waits, polled]

/-- One read. As long as the ports will give the bytes that the stream has for it, it comes to its end
with these. -/
theorem readRounds_eq (left : Nat) (io : IoState) (console : Console) (n : Nat)
    (feeds : Feeds (poll pc) ports (upcoming console))
    (enough : (readLoop left io console).2.2.taken ≤
      console.taken + (yields (poll pc) n ports).length) :
    ∃ rounds ports' n', readRounds pc rounds left io ports =
        some ((readLoop left io console).1, (readLoop left io console).2.1, ports') ∧
      Feeds (poll pc) ports' (upcoming (readLoop left io console).2.2) ∧
      console.taken + (yields (poll pc) n ports).length ≤
        (readLoop left io console).2.2.taken + (yields (poll pc) n' ports').length := by
  induction left generalizing io console ports n with
  | zero => exact ⟨0, ports, n, rfl, feeds, Nat.le_refl _⟩
  | succ left ih =>
    cases taken : io.takeStdinByte with
    | mk found io' =>
      cases found with
      | byte b =>
        have loop : readLoop (left + 1) io console =
            (b :: (readLoop left io' console).1, (readLoop left io' console).2) := by
          rw [readLoop, taken]
        rw [loop] at enough ⊢
        obtain ⟨rounds, ports', n', ended, feeds', rest⟩ := ih io' console n feeds enough
        refine ⟨rounds + 1, ports', n', ?_, feeds', rest⟩
        simp only [readRounds, taken, ended, Option.map_some]
      | eof =>
        have loop : readLoop (left + 1) io console = ([], io', console) := by rw [readLoop, taken]
        rw [loop] at enough ⊢
        exact ⟨1, ports, n, by simp only [readRounds, taken], feeds, Nat.le_refl _⟩
      | unavailable =>
        obtain rfl := unavailable_same taken
        obtain ⟨console₁, next⟩ : ∃ console₁, console₁ = { console with taken := console.taken + 1 } :=
          ⟨_, rfl⟩
        have one : console₁.taken = console.taken + 1 := by rw [next]
        have loop : readLoop (left + 1) io' console =
            if console.input console.taken = 10 ∨ console.input console.taken = 13 then
              ([console.input console.taken], io', console₁)
            else (console.input console.taken :: (readLoop left io' console₁).1,
              (readLoop left io' console₁).2) := by
          rw [readLoop, taken, next]
        have later : console.taken + 1 ≤ (readLoop (left + 1) io' console).2.2.taken := by
          rw [loop]
          split
          · exact one.ge
          · exact one.ge.trans (readLoop_taken left io' console₁).1
        have some_ : 0 < (yields (poll pc) n ports).length := by omega
        obtain ⟨spins, ports₀, b, ports₁, m, polled, first, fed, spun⟩ := readRounds_spins taken n some_
        obtain ⟨here, feeds₁⟩ := (fed _ feeds).gives polled
        obtain rfl : console.input console.taken = b := here
        rw [← upcoming_taken, ← next] at feeds₁
        rw [first] at enough ⊢
        rw [loop] at enough ⊢
        split
        next stop =>
          refine ⟨1 + spins, ports₁, m, ?_, feeds₁, ?_⟩
          · rw [spun]
            simp only [readRounds, taken, polled, if_pos stop]
          · dsimp only
            omega
        next go =>
          rw [if_neg go] at enough
          dsimp only at enough ⊢
          obtain ⟨rounds, ports', n', ended, feeds', rest⟩ := ih io' console₁ m feeds₁ (by omega)
          refine ⟨rounds + 1 + spins, ports', n', ?_, feeds', by omega⟩
          rw [spun]
          simp only [readRounds, taken, polled, if_neg go, ended, Option.map_some]

/-- Reads one after the other, each with the stdio context it finds and the size of its buffer. -/
def reads (console : Console) : List (IoState × Nat) → List (Bytes × IoState) × Console
  | [] => ([], console)
  | (io, len) :: calls =>
    let (bytes, io, console) := readLoop len io console
    let (rest, console) := reads console calls
    ((bytes, io) :: rest, console)

/-- The same reads from the ports. -/
def readsRounds (pc : PcKeyboard Keyboard KeyEvent) (rounds : Nat) (ports : Ports Keyboard) :
    List (IoState × Nat) → Option (List (Bytes × IoState) × Ports Keyboard)
  | [] => some ([], ports)
  | (io, len) :: calls => do
    let (bytes, io, ports) ← readRounds pc rounds len io ports
    let (rest, ports) ← readsRounds pc rounds ports calls
    return ((bytes, io) :: rest, ports)

theorem readsRounds_cons {rounds len : Nat} {io io' : IoState} {bytes : Bytes}
    {ports₁ ports₂ : Ports Keyboard} {calls : List (IoState × Nat)} {rest : List (Bytes × IoState)}
    (first : readRounds pc rounds len io ports = some (bytes, io', ports₁))
    (later : readsRounds pc rounds ports₁ calls = some (rest, ports₂)) :
    readsRounds pc rounds ports ((io, len) :: calls) = some ((bytes, io') :: rest, ports₂) := by
  simp [readsRounds, first, later]

theorem readsRounds_more {rounds : Nat} {calls : List (IoState × Nat)}
    {result : List (Bytes × IoState) × Ports Keyboard}
    (ended : readsRounds pc rounds ports calls = some result) (more : Nat) :
    readsRounds pc (rounds + more) ports calls = some result := by
  induction calls generalizing ports result with
  | nil => exact ended
  | cons call calls ih =>
    obtain ⟨io, len⟩ := call
    obtain ⟨⟨bytes, io', ports₁⟩, first, ended⟩ := Option.bind_eq_some_iff.mp ended
    obtain ⟨⟨rest, ports₂⟩, later, same⟩ := Option.bind_eq_some_iff.mp ended
    obtain rfl := Option.some.inj same
    exact readsRounds_cons (readRounds_more first more) (ih later)

theorem reads_taken (calls : List (IoState × Nat)) (console : Console) :
    console.taken ≤ (reads console calls).2.taken := by
  induction calls generalizing console with
  | nil => exact Nat.le_refl _
  | cons call calls ih =>
    exact (readLoop_taken call.2 call.1 console).1.trans (ih _)

theorem readsRounds_eq (calls : List (IoState × Nat)) (console : Console) (n : Nat)
    (feeds : Feeds (poll pc) ports (upcoming console))
    (enough : (reads console calls).2.taken ≤ console.taken + (yields (poll pc) n ports).length) :
    ∃ rounds ports', readsRounds pc rounds ports calls = some ((reads console calls).1, ports') ∧
      Feeds (poll pc) ports' (upcoming (reads console calls).2) := by
  induction calls generalizing console ports n with
  | nil => exact ⟨0, ports, rfl, feeds⟩
  | cons call calls ih =>
    obtain ⟨io, len⟩ := call
    have first := reads_taken calls (readLoop len io console).2.2
    obtain ⟨rounds, ports₁, n', ended, feeds', rest⟩ := readRounds_eq len io console n feeds
      (first.trans enough)
    obtain ⟨rounds', ports', ended', last⟩ := ih (readLoop len io console).2.2 n' feeds'
      (Nat.le_trans enough rest)
    exact ⟨rounds + rounds', ports', readsRounds_cons (readRounds_more ended rounds')
      (Nat.add_comm rounds' rounds ▸ readsRounds_more ended' rounds), last⟩

/-! ### The end of what comes in -/

theorem poll_exhausted (pc : PcKeyboard Keyboard KeyEvent) (none_ : ports.total = 0) :
    ∃ ports', poll pc ports = (none, ports') ∧ ports'.total = 0 := by
  have still := total_poll pc ports
  rw [none_] at still
  obtain ⟨waiting, coming⟩ := Nat.add_eq_zero_iff.mp none_
  obtain ⟨line, keys⟩ := Nat.add_eq_zero_iff.mp waiting
  have arrivals : ports.arrivals = [] := by
    cases come : ports.arrivals with
    | nil => rfl
    | cons first rest => simp [come] at coming
  rcases poll_cases pc ports with ⟨b, bs, some_, -⟩ | ⟨code, codes, -, some_, -⟩ | ⟨-, -, polled⟩
  · simp [Ports.arrive, List.length_eq_zero_iff.mp line, arrivals] at some_
  · simp [Ports.arrive, List.length_eq_zero_iff.mp keys, arrivals] at some_
  · exact ⟨_, polled, Nat.le_zero.mp (by simpa [polled] using still)⟩

theorem yields_exhausted (none_ : ports.total = 0) (n : Nat) : yields (poll pc) n ports = [] := by
  induction n generalizing ports with
  | zero => rfl
  | succ n ih =>
    obtain ⟨ports', polled, still⟩ := poll_exhausted pc none_
    rw [yields_idle polled, ih still]

/-- Whatever agrees with the bytes of as many polls as are enough is the stream. -/
theorem feeds_total {stream : Nat → UInt8}
    (given : ∀ i b, (yields (poll pc) ports.total ports)[i]? = some b → stream i = b) :
    Feeds (poll pc) ports stream := by
  intro n i b at_
  apply given
  rcases Nat.le_total n ports.total with few | many
  · obtain ⟨rest, split⟩ := Nat.exists_eq_add_of_le few
    rw [split, yields_add]
    exact List.getElem?_append_left (List.getElem?_eq_some_iff.mp at_).1 ▸ at_
  · obtain ⟨more, rfl⟩ := Nat.exists_eq_add_of_le many
    have nothing : (after (poll pc) ports.total ports).total = 0 := by
      have left := total_after pc ports ports.total
      omega
    rwa [yields_add, yields_exhausted nothing, List.append_nil] at at_

/-- However often the readers poll in vain, and whatever their stdio contexts are: a sequence of reads
from the ports gives what it gives from the stream of the bytes that polling gives, as long as there
are so many. -/
theorem reads_polled (pc : PcKeyboard Keyboard KeyEvent) (ports : Ports Keyboard) (console : Console)
    (calls : List (IoState × Nat))
    (given : ∀ i b, (yields (poll pc) ports.total ports)[i]? = some b → upcoming console i = b)
    (enough : (reads console calls).2.taken ≤
      console.taken + (yields (poll pc) ports.total ports).length) :
    ∃ rounds ports', readsRounds pc rounds ports calls = some ((reads console calls).1, ports') ∧
      Feeds (poll pc) ports' (upcoming (reads console calls).2) :=
  readsRounds_eq calls console ports.total (feeds_total given) enough

/-- A keyboard with an Enter key alone. -/
def enterKey : PcKeyboard Unit Unit where
  addByte _ code := (if code = 0x1c then some () else none, ())
  processKeyevent _ _ := (some (.rawKey .returnKey), ())

/-- Nothing comes first, then Enter is pressed while `ls` comes in. -/
def samplePorts : Ports Unit := ⟨[], [], (), [([], []), ([0x6c], [0x1c]), ([0x73], [])]⟩

theorem reads_polled_enter :
    ∃ rounds ports' io, readsRounds enterKey rounds samplePorts [(IoState.new, 8)] =
      some ([(str "ls\n", io)], ports') := by
  obtain ⟨rounds, ports', ended, -⟩ := reads_polled enterKey samplePorts
    ⟨fun i => (str "ls\n").getD i 0, 0, [], []⟩ [(IoState.new, 8)]
    (fun i b given => by
      have all : yields (poll enterKey) samplePorts.total samplePorts = str "ls\n" := by
        decide +kernel
      rw [all] at given
      simp [upcoming, given])
    (by decide +kernel)
  have got : (reads ⟨fun i => (str "ls\n").getD i 0, 0, [], []⟩ [(IoState.new, 8)]).1 =
      [(str "ls\n", IoState.new)] := rfl
  exact ⟨rounds, ports', IoState.new, by rw [ended, got]⟩

/-- What polling gives is made of the bytes of the serial line and of the keys, each in their order,
and of nothing else. After enough polls it is all of them. -/
theorem polled_in_order (pc : PcKeyboard Keyboard KeyEvent) (ports : Ports Keyboard) (n : Nat) :
    ∃ (events : List (UInt8 ⊕ UInt8)) (codes : List UInt8),
      yields (poll pc) n ports = events.map (Sum.elim id id) ∧
      events.filterMap Sum.getLeft? ++ (after (poll pc) n ports).serial =
        ports.serial ++ (ports.arrivals.take n).flatMap Prod.fst ∧
      codes ++ (after (poll pc) n ports).scancodes =
        ports.scancodes ++ (ports.arrivals.take n).flatMap Prod.snd ∧
      events.filterMap Sum.getRight? = (decodeAll pc ports.keyboard codes).1 ∧
      (ports.total ≤ n → events.filterMap Sum.getLeft? = ports.serial ++ ports.arrivals.flatMap Prod.fst ∧
        codes = ports.scancodes ++ ports.arrivals.flatMap Prod.snd) := by
  obtain ⟨events, codes, h⟩ := drained pc ports n
  refine ⟨events, codes, h.given, h.serial, h.scancodes, h.keys, fun enough => ?_⟩
  have few := total_after pc ports n
  have none_ : (after (poll pc) n ports).waiting = 0 := by
    rw [Ports.total] at few
    omega
  obtain ⟨line, keys⟩ := Nat.add_eq_zero_iff.mp none_
  -- By then everything has arrived
  have arrived : ports.arrivals.take n = ports.arrivals := by
    apply List.take_of_length_le
    have some_ : ∀ size ∈ ports.arrivals.map fun come => come.1.length + come.2.length + 1, 1 ≤ size := by
      intro size among
      obtain ⟨come, -, rfl⟩ := List.mem_map.mp among
      exact Nat.le_add_left ..
    have each := List.length_le_sum_of_one_le _ some_
    rw [List.length_map] at each
    rw [Ports.total] at enough
    omega
  have serial := h.serial
  have scancodes := h.scancodes
  rw [arrived, List.length_eq_zero_iff.mp line, List.append_nil] at serial
  rw [arrived, List.length_eq_zero_iff.mp keys, List.append_nil] at scancodes
  exact ⟨serial, scancodes⟩

end Smultron.Polling
