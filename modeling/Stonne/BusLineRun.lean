import Stonne.CollectionBus
import Stonne.Lib.RoundRobin

/-!
# Runs of a collection bus line

Between two cycles the producers of a line put packages on its input connections, one list
per connection, and the reader takes what is on the output connection.  The line is a
round-robin service of its input fifos, so it loses nothing, keeps the order of every input
and lets no input wait for longer than a round.
-/

namespace Stonne

open Dataflow

/-- The connections of one line. -/
inductive LineWire where
  | input (i : Nat)
  | output
  deriving DecidableEq, Repr

namespace CollectionBusLine

/-! ## The search -/

/-- The fifos of a line and the input where its search starts. -/
def toRoundRobin (line : CollectionBusLine) : RoundRobin DataPackage where
  queues := line.inputFifos
  cursor := line.nextInputSelected

/-- The first input with a package among the next `n` of them. -/
def firstWaiting (inputPorts n : Nat) (line : CollectionBusLine) : Option Nat :=
  ((List.range n).map fun k => (line.nextInputSelected + k) % inputPorts).find? fun i =>
    !(line.inputFifos i).isEmpty

theorem firstWaiting_succ {inputPorts : Nat} (n : Nat) {line : CollectionBusLine}
    (h : line.InRange inputPorts) :
    line.firstWaiting inputPorts (n + 1) =
      if (line.inputFifos line.nextInputSelected).isEmpty then
        (line.advance inputPorts).firstWaiting inputPorts n
      else some line.nextInputSelected := by
  have hCursor : (line.nextInputSelected + 0) % inputPorts = line.nextInputSelected :=
    Nat.mod_eq_of_lt h
  have hShift : ((fun k => (line.nextInputSelected + k) % inputPorts) ∘ Nat.succ) =
      fun k => ((line.advance inputPorts).nextInputSelected + k) % inputPorts := by
    funext k
    simp only [Function.comp_apply, advance, Nat.mod_add_mod]
    rw [Nat.succ_eq_add_one, Nat.add_right_comm, Nat.add_assoc]
  rw [firstWaiting, List.range_succ_eq_map, List.map_cons, List.map_map, hShift, hCursor,
    List.find?_cons]
  cases (line.inputFifos line.nextInputSelected).isEmpty <;> rfl

/-- The search loop finds that input, or has gone round. -/
theorem select_eq {inputPorts : Nat} (n : Nat) {line : CollectionBusLine}
    (h : line.InRange inputPorts) :
    select inputPorts n line =
      match line.firstWaiting inputPorts n with
      | none =>
        (none, { line with nextInputSelected := (line.nextInputSelected + n) % inputPorts })
      | some i =>
        ((line.inputFifos i).head?, {
          inputFifos := Function.update line.inputFifos i (line.inputFifos i).tail
          nextInputSelected := (i + 1) % inputPorts }) := by
  induction n generalizing line with
  | zero =>
      have hSame : (line.nextInputSelected + 0) % inputPorts = line.nextInputSelected :=
        Nat.mod_eq_of_lt h
      simp only [select, firstWaiting, List.range_zero, List.map_nil, List.find?_nil, hSame]
  | succ n ih =>
      rw [firstWaiting_succ n h]
      cases hFifo : line.inputFifos line.nextInputSelected with
      | nil =>
          have hRound : ((line.nextInputSelected + 1) % inputPorts + n) % inputPorts =
              (line.nextInputSelected + (n + 1)) % inputPorts := by
            rw [Nat.mod_add_mod, Nat.add_right_comm, Nat.add_assoc]
          simp only [select, hFifo, ih h.advance, List.isEmpty_nil, if_true]
          simp only [advance, hRound]
      | cons pck rest =>
          simp only [select, hFifo, List.isEmpty_cons, Bool.false_eq_true, if_false, advance,
            List.head?_cons, List.tail_cons]

/-- A cycle is an arrival and a search of the round-robin service. -/
theorem toRoundRobin_fire {inputPorts : Nat} {line : CollectionBusLine}
    (h : line.InRange inputPorts) (arrived : Nat → List DataPackage) :
    (line.fire inputPorts arrived).1.toRoundRobin =
        (line.toRoundRobin.arrive inputPorts arrived).serve inputPorts ∧
      (line.fire inputPorts arrived).2 =
        (line.toRoundRobin.arrive inputPorts arrived).taken inputPorts := by
  have hPushed : (line.pushAll inputPorts arrived).InRange inputPorts := h
  have hFound : (line.toRoundRobin.arrive inputPorts arrived).found inputPorts =
      (line.pushAll inputPorts arrived).firstWaiting inputPorts inputPorts := rfl
  rw [fire, select_eq inputPorts hPushed, RoundRobin.serve, RoundRobin.taken, hFound]
  cases (line.pushAll inputPorts arrived).firstWaiting inputPorts inputPorts with
  | none =>
      have hRound : (line.nextInputSelected + inputPorts) % inputPorts =
          line.nextInputSelected := by
        rw [Nat.add_mod_right, Nat.mod_eq_of_lt h]
      refine ⟨?_, rfl⟩
      simp only [toRoundRobin, pushAll, hRound]
      rfl
  | some i => exact ⟨rfl, rfl⟩

/-! ## The run -/

/-- The producers put packages on the input connections. -/
def produce (inputPorts : Nat) (arrived : Nat → List DataPackage)
    (conns : Connections LineWire) : Connections LineWire :=
  (List.range inputPorts).foldl (fun conns i => conns.sendAll (.input i) (arrived i)) conns

/-- A cycle between the producers and the reader, and what the reader takes. -/
def period (inputPorts : Nat) (st : CollectionBusLine × Connections LineWire)
    (arrived : Nat → List DataPackage) :
    (CollectionBusLine × Connections LineWire) × List DataPackage :=
  let cycled := cycle inputPorts LineWire.input .output
    (st.1, produce inputPorts arrived st.2)
  let read := cycled.2.receive .output
  ((cycled.1, read.2), read.1)

section

variable (inputPorts : Nat) (arrivals : Nat → Nat → List DataPackage)

/-- The line and its connections after `n` periods, with the packages `arrivals m` in period
`m`. -/
def lineRun : Nat → CollectionBusLine × Connections LineWire
  | 0 => ({}, Connections.idle)
  | n + 1 => (period inputPorts (lineRun n) (arrivals n)).1

/-- What the reader takes in period `n`. -/
def readIn (n : Nat) : List DataPackage :=
  (period inputPorts (lineRun inputPorts arrivals n) (arrivals n)).2

/-- The fifo of an input behind the receive phase of period `n`. -/
def fifoBefore (n i : Nat) : Fifo :=
  let st := lineRun inputPorts arrivals n
  (receive inputPorts LineWire.input
    (st.1, produce inputPorts (arrivals n) st.2)).1.inputFifos i

/-- The fifo of an input after `n` periods. -/
def fifoAfter (n i : Nat) : Fifo :=
  (lineRun inputPorts arrivals n).1.inputFifos i

/-- The packages of input `i` that the reader took in the first `n` periods: those of the
periods in which the selection changed the fifo of that input. -/
def leftFrom (i n : Nat) : List DataPackage :=
  (List.range n).flatMap fun m =>
    if fifoAfter inputPorts arrivals (m + 1) i = fifoBefore inputPorts arrivals m i then []
    else readIn inputPorts arrivals m

end

/-! ## One period -/

theorem produce_succ (n : Nat) (arrived : Nat → List DataPackage)
    (conns : Connections LineWire) :
    produce (n + 1) arrived conns =
      (produce n arrived conns).sendAll (.input n) (arrived n) := by
  rw [produce, List.range_succ, List.foldl_append, List.foldl_cons, List.foldl_nil]
  rfl

/-- What the producers leave on idle connections. -/
theorem produce_content (n : Nat) (arrived : Nat → List DataPackage)
    {conns : Connections LineWire} (hIdle : ∀ w, (conns w).content = none) (w : LineWire) :
    ((produce n arrived conns) w).content =
      match w with
      | .input i => if i < n ∧ arrived i ≠ [] then some (arrived i) else none
      | .output => none := by
  induction n with
  | zero => cases w <;> simp [produce, hIdle]
  | succ n ih =>
      rw [produce_succ, Connections.content_sendAll, ih]
      cases w with
      | output => simp
      | input i =>
          rcases eq_or_ne i n with rfl | hOther
          · simp
          · have hBelow : i < n + 1 ↔ i < n := by omega
            simp [hOther, hBelow]

/-- No connection is written twice. -/
theorem produce_overwritten (n : Nat) (arrived : Nat → List DataPackage)
    {conns : Connections LineWire} (hIdle : ∀ w, (conns w).content = none) (w : LineWire) :
    ((produce n arrived conns) w).overwritten = (conns w).overwritten := by
  induction n with
  | zero => rfl
  | succ n ih =>
      have hFree : ((produce n arrived conns) (.input n)).content = none := by
        simp [produce_content n arrived hIdle]
      rw [produce_succ, Connections.overwritten_sendAll, ih]
      rcases eq_or_ne w (.input n) with rfl | hOther
      · simp [hFree]
      · simp [hOther]

theorem recv_produce {inputPorts : Nat} (arrived : Nat → List DataPackage)
    {conns : Connections LineWire} (hIdle : ∀ w, (conns w).content = none) {i : Nat}
    (hi : i < inputPorts) :
    (produce inputPorts arrived conns).store.recv (.input i) = arrived i := by
  have hWire : (produce inputPorts arrived conns).store.content (.input i) =
      if i < inputPorts ∧ arrived i ≠ [] then some (arrived i) else none :=
    produce_content inputPorts arrived hIdle (.input i)
  rw [Store.recv, hWire]
  cases hArrived : arrived i <;> simp [hi]

/-- The connections between two periods: drained, and never written twice. -/
structure Drained (conns : Connections LineWire) : Prop where
  content : ∀ w, (conns w).content = none
  kept : ∀ w, (conns w).overwritten = false

private theorem input_injective : Function.Injective LineWire.input :=
  fun _ _ h => LineWire.input.inj h

/-- A period is an arrival and a search of the round-robin service. -/
theorem period_spec {inputPorts : Nat} {line : CollectionBusLine}
    (hRange : line.InRange inputPorts) {conns : Connections LineWire} (hConns : Drained conns)
    (arrived : Nat → List DataPackage) :
    let done := period inputPorts (line, conns) arrived
    done.1.1.toRoundRobin = (line.toRoundRobin.arrive inputPorts arrived).serve inputPorts ∧
      Drained done.1.2 ∧
      done.2 = (line.toRoundRobin.arrive inputPorts arrived).taken inputPorts := by
  have hArrived : line.fire inputPorts
        (fun i => (produce inputPorts arrived conns).store.recv (.input i)) =
      line.fire inputPorts arrived :=
    fire_congr line fun i hi => recv_produce arrived hConns.content hi
  have hContent := cycle_content input_injective inputPorts .output line
    (produce inputPorts arrived conns)
  have hFree : ((produce inputPorts arrived conns) .output).content = none :=
    produce_content inputPorts arrived hConns.content .output
  obtain ⟨hServed, hTaken⟩ := toRoundRobin_fire hRange arrived
  refine ⟨?_, ⟨fun w => ?_, fun w => ?_⟩, ?_⟩
  · rw [period, cycle_fst input_injective, hArrived, hServed]
  · rw [period, Connections.content_receive, hContent]
    cases w with
    | output => rfl
    | input i =>
        rw [produce_content inputPorts arrived hConns.content]
        by_cases hi : i < inputPorts <;> simp [hi]
  · rw [period, Connections.overwritten_receive, cycle_overwritten input_injective _ _ hFree,
      produce_overwritten inputPorts arrived hConns.content, hConns.kept]
  · have hOutput := hContent .output
    rw [hArrived, hTaken] at hOutput
    rw [period, Connections.receive_fst, Store.recv, Connections.store]
    simp only [hOutput, hFree]
    cases (line.toRoundRobin.arrive inputPorts arrived).taken inputPorts <;> simp

/-! ## The run is a round-robin service -/

section

variable {inputPorts : Nat} {arrivals : Nat → Nat → List DataPackage}

theorem lineRun_spec (hPorts : 1 ≤ inputPorts) (arrivals : Nat → Nat → List DataPackage)
    (n : Nat) :
    (lineRun inputPorts arrivals n).1.toRoundRobin = RoundRobin.after inputPorts arrivals n ∧
      Drained (lineRun inputPorts arrivals n).2 := by
  induction n with
  | zero => exact ⟨rfl, ⟨fun _ => rfl, fun _ => rfl⟩⟩
  | succ n ih =>
      obtain ⟨hLine, hConns⟩ := ih
      have hRange : (lineRun inputPorts arrivals n).1.InRange inputPorts := by
        have hCursor := RoundRobin.after_cursor hPorts arrivals n
        rwa [← hLine] at hCursor
      obtain ⟨hServed, hDrained, -⟩ := period_spec hRange hConns (arrivals n)
      rw [hLine] at hServed
      exact ⟨hServed, hDrained⟩

theorem fifoAfter_eq (hPorts : 1 ≤ inputPorts) (n i : Nat) :
    fifoAfter inputPorts arrivals n i = (RoundRobin.after inputPorts arrivals n).queues i := by
  rw [← (lineRun_spec hPorts arrivals n).1]
  rfl

theorem fifoBefore_eq (hPorts : 1 ≤ inputPorts) (n i : Nat) :
    fifoBefore inputPorts arrivals n i =
      (RoundRobin.before inputPorts arrivals n).queues i := by
  obtain ⟨hLine, hConns⟩ := lineRun_spec hPorts arrivals n
  rw [fifoBefore, receive_fst input_injective, RoundRobin.before, ← hLine]
  simp only [pushAll, RoundRobin.arrive, toRoundRobin]
  split
  · rename_i hi
    rw [recv_produce (arrivals n) hConns.content hi]
  · rfl

theorem readIn_eq (hPorts : 1 ≤ inputPorts) (n : Nat) :
    readIn inputPorts arrivals n =
      (RoundRobin.before inputPorts arrivals n).taken inputPorts := by
  obtain ⟨hLine, hConns⟩ := lineRun_spec hPorts arrivals n
  have hRange : (lineRun inputPorts arrivals n).1.InRange inputPorts := by
    have hCursor := RoundRobin.after_cursor hPorts arrivals n
    rwa [← hLine] at hCursor
  obtain ⟨-, -, hRead⟩ := period_spec hRange hConns (arrivals n)
  rw [readIn, hRead, hLine, RoundRobin.before]

/-- A period takes the head of the fifo its search finds, and no other package. -/
theorem period_of_found (hPorts : 1 ≤ inputPorts) {n i : Nat}
    (hFound : (RoundRobin.before inputPorts arrivals n).found inputPorts = some i) :
    ∃ pck, readIn inputPorts arrivals n = [pck] ∧
      fifoBefore inputPorts arrivals n i = pck :: fifoAfter inputPorts arrivals (n + 1) i ∧
      ∀ j, j ≠ i →
        fifoAfter inputPorts arrivals (n + 1) j = fifoBefore inputPorts arrivals n j := by
  obtain ⟨hFull, -⟩ := RoundRobin.found_spec hFound
  obtain ⟨pck, rest, hQueue⟩ := List.exists_cons_of_ne_nil hFull
  have hTaken : (RoundRobin.before inputPorts arrivals n).taken inputPorts = [pck] := by
    rw [RoundRobin.taken, hFound]
    simp [hQueue]
  refine ⟨pck, ?_, ?_, fun j hj => ?_⟩
  · rw [readIn_eq hPorts, hTaken]
  · rw [fifoBefore_eq hPorts, fifoAfter_eq hPorts, RoundRobin.after_succ, RoundRobin.serve, hFound]
    simp [hQueue]
  · rw [fifoBefore_eq hPorts, fifoAfter_eq hPorts, RoundRobin.after_succ, RoundRobin.serve, hFound]
    simp [hj]

theorem fifoAfter_of_found_none (hPorts : 1 ≤ inputPorts) {n : Nat}
    (hFound : (RoundRobin.before inputPorts arrivals n).found inputPorts = none) (i : Nat) :
    fifoAfter inputPorts arrivals (n + 1) i = fifoBefore inputPorts arrivals n i := by
  rw [fifoBefore_eq hPorts, fifoAfter_eq hPorts, RoundRobin.after_succ, RoundRobin.serve, hFound]

/-- The packages that left an input are those its queue was served. -/
theorem leftFrom_eq (hPorts : 1 ≤ inputPorts) (i n : Nat) :
    leftFrom inputPorts arrivals i n = RoundRobin.leftUpTo inputPorts arrivals i n := by
  refine List.flatMap_congr fun m _ => ?_
  cases hFound : (RoundRobin.before inputPorts arrivals m).found inputPorts with
  | none =>
      rw [if_pos (fifoAfter_of_found_none hPorts hFound i)]
      rfl
  | some j =>
      obtain ⟨pck, hRead, hServed, hOther⟩ := period_of_found hPorts hFound
      rcases eq_or_ne j i with rfl | hj
      · have hChanged : fifoAfter inputPorts arrivals (m + 1) j ≠
            fifoBefore inputPorts arrivals m j := by
          rw [hServed]
          exact fun hSame => absurd (congrArg List.length hSame) (by simp)
        rw [if_neg hChanged, if_pos rfl, readIn_eq hPorts]
      · rw [if_pos (hOther i hj.symm), if_neg (by simpa using hj)]

/-! ## Conservation, order and fairness -/

/-- What holds of every run of a line with `inputPorts` inputs. -/
structure ServesInputs (inputPorts : Nat) (arrivals : Nat → Nat → List DataPackage) :
    Prop where
  /-- What left an input, followed by its fifo, is what was put on its connection. -/
  inOrder : ∀ i < inputPorts, ∀ n,
    leftFrom inputPorts arrivals i n ++ fifoAfter inputPorts arrivals n i =
      RoundRobin.arrivedUpTo arrivals i n
  /-- The package at any place of an input's stream leaves at some time. -/
  leaves : ∀ i < inputPorts, ∀ n k, k < (RoundRobin.arrivedUpTo arrivals i n).length →
    ∃ m, k < (leftFrom inputPorts arrivals i m).length
  /-- A package that leaves is the head of one input's fifo, and the others keep theirs. -/
  fromOne : ∀ n, ∀ pck ∈ readIn inputPorts arrivals n, ∃ i < inputPorts,
    fifoBefore inputPorts arrivals n i = pck :: fifoAfter inputPorts arrivals (n + 1) i ∧
      ∀ j, j ≠ i → fifoAfter inputPorts arrivals (n + 1) j = fifoBefore inputPorts arrivals n j
  atMostOne : ∀ n, (readIn inputPorts arrivals n).length ≤ 1
  oneIffWaiting : ∀ n, (readIn inputPorts arrivals n).length = 1 ↔
    ∃ i < inputPorts, fifoBefore inputPorts arrivals n i ≠ []
  /-- An input that waits throughout `inputPorts` periods is served in one of them. -/
  fair : ∀ i < inputPorts, ∀ n,
    (∀ m, n ≤ m → m < n + inputPorts → fifoBefore inputPorts arrivals m i ≠ []) →
      ∃ m, n ≤ m ∧ m < n + inputPorts ∧ ∃ pck, readIn inputPorts arrivals m = [pck] ∧
        fifoBefore inputPorts arrivals m i = pck :: fifoAfter inputPorts arrivals (m + 1) i
  /-- No package is written over on a connection. -/
  kept : ∀ n w, ((lineRun inputPorts arrivals n).2 w).overwritten = false

theorem length_readIn (hPorts : 1 ≤ inputPorts) (arrivals : Nat → Nat → List DataPackage)
    (n : Nat) :
    (readIn inputPorts arrivals n).length =
      if ((RoundRobin.before inputPorts arrivals n).found inputPorts).isSome then 1 else 0 := by
  rw [readIn_eq hPorts, RoundRobin.length_taken]

theorem readIn_waiting (hPorts : 1 ≤ inputPorts) (n : Nat) :
    (readIn inputPorts arrivals n).length = 1 ↔
      ∃ i < inputPorts, fifoBefore inputPorts arrivals n i ≠ [] := by
  have hCursor : (RoundRobin.before inputPorts arrivals n).cursor < inputPorts :=
    RoundRobin.after_cursor hPorts arrivals n
  rw [length_readIn hPorts arrivals]
  constructor
  · intro hOne
    cases hFound : (RoundRobin.before inputPorts arrivals n).found inputPorts with
    | none => simp [hFound] at hOne
    | some i =>
        refine ⟨i, RoundRobin.found_lt hFound, ?_⟩
        rw [fifoBefore_eq hPorts]
        exact (RoundRobin.found_spec hFound).1
  · rintro ⟨i, hi, hFull⟩
    cases hFound : (RoundRobin.before inputPorts arrivals n).found inputPorts with
    | none =>
        rw [fifoBefore_eq hPorts] at hFull
        exact absurd ((RoundRobin.found_eq_none_iff hCursor).mp hFound i hi) hFull
    | some j => rfl

/-- A line loses nothing, keeps the order of every input and starves none. -/
theorem line_serves (inputPorts : Nat) (hPorts : 1 ≤ inputPorts)
    (arrivals : Nat → Nat → List DataPackage) : ServesInputs inputPorts arrivals where
  inOrder i hi n := by
    rw [leftFrom_eq hPorts, fifoAfter_eq hPorts, RoundRobin.left_append_queue arrivals hi]
  leaves i hi n k hArrived := by
    obtain ⟨m, hLeft⟩ := RoundRobin.exists_left hPorts hi hArrived
    exact ⟨m, by rwa [leftFrom_eq hPorts]⟩
  fromOne n pck hMem := by
    cases hFound : (RoundRobin.before inputPorts arrivals n).found inputPorts with
    | none =>
        have hNone := length_readIn hPorts arrivals n
        rw [hFound] at hNone
        rw [List.length_eq_zero_iff.mp hNone] at hMem
        exact absurd hMem List.not_mem_nil
    | some i =>
        obtain ⟨head, hRead, hServed, hOther⟩ := period_of_found hPorts hFound
        rw [hRead, List.mem_singleton] at hMem
        exact ⟨i, RoundRobin.found_lt hFound, hMem ▸ hServed, hOther⟩
  atMostOne n := by
    rw [length_readIn hPorts arrivals]
    split <;> omega
  oneIffWaiting n := readIn_waiting hPorts n
  fair i hi n hFull := by
    obtain ⟨m, hFrom, hTo, hFound⟩ := RoundRobin.exists_served_within hPorts hi
      fun m hFrom hTo => fifoBefore_eq hPorts m i ▸ hFull m hFrom hTo
    obtain ⟨pck, hRead, hServed, -⟩ := period_of_found hPorts hFound
    exact ⟨m, hFrom, hTo, pck, hRead, hServed⟩
  kept n w := (lineRun_spec hPorts arrivals n).2.kept w

/-- A line with three inputs, the second of which is given a package in every period. -/
theorem line_serves_three : 1 ≤ 3 ∧
    ServesInputs 3 (fun n i =>
      if i = 1 then [{ data := n, dataType := .psum }] else []) :=
  ⟨by decide, line_serves 3 (by decide) _⟩

end

end CollectionBusLine

end Stonne
