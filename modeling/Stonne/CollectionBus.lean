import Stonne.Connection
import Mathlib.Algebra.BigOperators.Fin

/-!
# The collection bus

`Bus` owns one `CollectionBusLine` per write port.  A line moves the packages of
its input connections into one fifo each and then forwards one package, chosen by
a round-robin search that starts behind the input served last.

The two facts used about a line are conservation, as an equation between
multisets of packages (`cycle_conserves`), and progress: a line forwards nothing
only when all its fifos are empty (`select_none`).
-/

namespace Stonne

open Dataflow

structure CollectionBusLine where
  inputFifos : Nat → Fifo := fun _ => []
  nextInputSelected : Nat := 0

namespace CollectionBusLine

def push (line : CollectionBusLine) (i : Nat) (pcks : List DataPackage) :
    CollectionBusLine :=
  { line with
    inputFifos := Function.update line.inputFifos i (line.inputFifos i ++ pcks) }

def advance (line : CollectionBusLine) (inputPorts : Nat) : CollectionBusLine :=
  { line with nextInputSelected := (line.nextInputSelected + 1) % inputPorts }

/-- The search loop of `cycle`, with the number of inputs it may still look at. -/
def select (inputPorts : Nat) :
    Nat → CollectionBusLine → Option DataPackage × CollectionBusLine
  | 0, line => (none, line)
  | n + 1, line =>
      match line.inputFifos line.nextInputSelected with
      | pck :: rest =>
          (some pck,
            { line with
              inputFifos :=
                Function.update line.inputFifos line.nextInputSelected rest }.advance
              inputPorts)
      | [] => select inputPorts n (line.advance inputPorts)

section

variable {ω : Type*} [DecidableEq ω]

/-- One round of the loop of `receive`. -/
def receiveInput (inputConnection : Nat → ω)
    (st : CollectionBusLine × Connections ω) (i : Nat) :
    CollectionBusLine × Connections ω :=
  (st.1.push i (st.2.receive (inputConnection i)).1, (st.2.receive (inputConnection i)).2)

def receive (inputPorts : Nat) (inputConnection : Nat → ω)
    (st : CollectionBusLine × Connections ω) : CollectionBusLine × Connections ω :=
  (List.range inputPorts).foldl (receiveInput inputConnection) st

def cycle (inputPorts : Nat) (inputConnection : Nat → ω) (outputPort : ω)
    (st : CollectionBusLine × Connections ω) : CollectionBusLine × Connections ω :=
  let received := receive inputPorts inputConnection st
  let selected := select inputPorts inputPorts received.1
  match selected.1 with
  | some pck => (selected.2, received.2.send outputPort [pck])
  | none => (selected.2, received.2)

end

/-- The line after the packages `arrived i` were pushed into its fifos. -/
def pushAll (line : CollectionBusLine) (inputPorts : Nat)
    (arrived : Nat → List DataPackage) : CollectionBusLine :=
  { line with
    inputFifos := fun i =>
      if i < inputPorts then line.inputFifos i ++ arrived i else line.inputFifos i }

/-- The cycle without its connections: what arrived, and what is forwarded. -/
def fire (line : CollectionBusLine) (inputPorts : Nat)
    (arrived : Nat → List DataPackage) : CollectionBusLine × List DataPackage :=
  let selected := select inputPorts inputPorts (line.pushAll inputPorts arrived)
  (selected.2, selected.1.toList)

/-- The packages waiting in the fifos of a line. -/
def waiting (line : CollectionBusLine) (inputPorts : Nat) : Multiset DataPackage :=
  ∑ i ∈ Finset.range inputPorts, (line.inputFifos i : Multiset DataPackage)

/-- The cursor of the round-robin search is one of the inputs. -/
def InRange (line : CollectionBusLine) (inputPorts : Nat) : Prop :=
  line.nextInputSelected < inputPorts

theorem InRange.advance {line : CollectionBusLine} {inputPorts : Nat}
    (h : line.InRange inputPorts) :
    (line.advance inputPorts).InRange inputPorts :=
  Nat.mod_lt _ (Nat.zero_lt_of_lt h)

/-- Replacing the fifo of one input. -/
private theorem waiting_update {line : CollectionBusLine} {inputPorts i : Nat}
    {pck : DataPackage} {rest : Fifo} (hi : i < inputPorts)
    (hFifo : line.inputFifos i = pck :: rest) :
    line.waiting inputPorts =
      {pck} + ∑ j ∈ Finset.range inputPorts,
        ((Function.update line.inputFifos i rest j : Fifo) : Multiset DataPackage) := by
  have hMem : i ∈ Finset.range inputPorts := Finset.mem_range.mpr hi
  have hOther : ∀ j ∈ (Finset.range inputPorts).erase i,
      ((Function.update line.inputFifos i rest j : Fifo) : Multiset DataPackage) =
        line.inputFifos j := by
    intro j hj
    rw [Function.update_of_ne (Finset.ne_of_mem_erase hj)]
  rw [waiting, ← Finset.add_sum_erase _ _ hMem, ← Finset.add_sum_erase _ _ hMem,
    Finset.sum_congr rfl hOther, hFifo, Function.update_self, ← add_assoc]
  rfl

theorem select_conserves {inputPorts : Nat} (n : Nat) {line : CollectionBusLine}
    (h : line.InRange inputPorts) :
    line.waiting inputPorts =
        ((select inputPorts n line).1.toList : Multiset DataPackage) +
          (select inputPorts n line).2.waiting inputPorts ∧
      (select inputPorts n line).2.InRange inputPorts := by
  induction n generalizing line with
  | zero => simp [select, h]
  | succ n ih =>
      rcases hFifo : line.inputFifos line.nextInputSelected with _ | ⟨pck, rest⟩
      · simpa [select, hFifo, waiting, advance] using ih h.advance
      · refine ⟨?_, ?_⟩
        · simpa [select, hFifo, waiting, advance] using waiting_update h hFifo
        · simpa [select, hFifo, InRange, advance] using h.advance

/-- A search that finds nothing has seen only empty fifos. -/
theorem select_none {inputPorts : Nat} (n : Nat) {line : CollectionBusLine}
    (h : line.InRange inputPorts) (hNone : (select inputPorts n line).1 = none)
    {k : Nat} (hk : k < n) :
    line.inputFifos ((line.nextInputSelected + k) % inputPorts) = [] := by
  induction n generalizing line k with
  | zero => omega
  | succ n ih =>
      rcases hFifo : line.inputFifos line.nextInputSelected with _ | ⟨pck, rest⟩
      · rcases k with _ | k
        · rw [Nat.add_zero, Nat.mod_eq_of_lt h, hFifo]
        · have hSelect : (select inputPorts n (line.advance inputPorts)).1 = none := by
            simpa [select, hFifo] using hNone
          have hLater := ih h.advance hSelect (k := k) (by omega)
          simp only [advance, Nat.mod_add_mod] at hLater
          rwa [Nat.add_right_comm, Nat.add_assoc] at hLater
      · simp [select, hFifo] at hNone

/-- A line that forwards nothing is empty. -/
theorem waiting_of_select_none {inputPorts : Nat} {line : CollectionBusLine}
    (h : line.InRange inputPorts)
    (hNone : (select inputPorts inputPorts line).1 = none) :
    line.waiting inputPorts = 0 := by
  refine Finset.sum_eq_zero fun i hi => ?_
  have hi := Finset.mem_range.mp hi
  have hNext : line.nextInputSelected < inputPorts := h
  -- input `i` lies `k` places behind the cursor
  obtain ⟨k, hk, hIndex⟩ :
      ∃ k < inputPorts, (line.nextInputSelected + k) % inputPorts = i := by
    by_cases hBehind : line.nextInputSelected ≤ i
    · refine ⟨i - line.nextInputSelected, by omega, ?_⟩
      rw [Nat.add_sub_of_le hBehind, Nat.mod_eq_of_lt hi]
    · refine ⟨i + inputPorts - line.nextInputSelected, by omega, ?_⟩
      have hSum : line.nextInputSelected + (i + inputPorts - line.nextInputSelected) =
          i + inputPorts := by omega
      rw [hSum, Nat.add_mod_right, Nat.mod_eq_of_lt hi]
  rw [← hIndex, select_none inputPorts h hNone hk]
  rfl

/-- The cycle looks at the arrivals of its own inputs only. -/
theorem fire_congr {inputPorts : Nat} (line : CollectionBusLine)
    {arrived arrived' : Nat → List DataPackage}
    (h : ∀ i < inputPorts, arrived i = arrived' i) :
    line.fire inputPorts arrived = line.fire inputPorts arrived' := by
  have hPushed : line.pushAll inputPorts arrived = line.pushAll inputPorts arrived' := by
    unfold pushAll
    congr 1
    funext i
    by_cases hi : i < inputPorts
    · simp [hi, h i hi]
    · simp [hi]
  rw [fire, fire, hPushed]

/-- What a line forwards in a cycle and what stays in its fifos are what was in
its fifos and what arrived. -/
theorem fire_conserves {inputPorts : Nat} {line : CollectionBusLine}
    (h : line.InRange inputPorts) (arrived : Nat → List DataPackage) :
    ((line.fire inputPorts arrived).2 : Multiset DataPackage) +
          (line.fire inputPorts arrived).1.waiting inputPorts =
        line.waiting inputPorts +
          ∑ i ∈ Finset.range inputPorts, (arrived i : Multiset DataPackage) ∧
      (line.fire inputPorts arrived).1.InRange inputPorts := by
  have hPushed : (line.pushAll inputPorts arrived).InRange inputPorts := h
  obtain ⟨hConserved, hRange⟩ := select_conserves inputPorts hPushed
  refine ⟨?_, hRange⟩
  rw [fire, ← hConserved, waiting, waiting, ← Finset.sum_add_distrib]
  refine Finset.sum_congr rfl fun i hi => ?_
  simp [pushAll, Finset.mem_range.mp hi]

/-- A line forwards at most one package, and one if it has any. -/
theorem fire_progress {inputPorts : Nat} {line : CollectionBusLine}
    (h : line.InRange inputPorts) (arrived : Nat → List DataPackage) :
    (line.fire inputPorts arrived).2.length ≤ 1 ∧
      ((line.fire inputPorts arrived).2 = [] →
        (line.fire inputPorts arrived).1.waiting inputPorts = 0) := by
  have hPushed : (line.pushAll inputPorts arrived).InRange inputPorts := h
  rcases hSelect :
      (select inputPorts inputPorts (line.pushAll inputPorts arrived)).1 with _ | pck
  · refine ⟨by simp [fire, hSelect], fun _ => ?_⟩
    have hEmpty := waiting_of_select_none hPushed hSelect
    have hConserved := (select_conserves inputPorts hPushed).1
    rw [hEmpty, hSelect] at hConserved
    simpa [fire] using hConserved.symm
  · simp [fire, hSelect]

section

variable {ω : Type*} [DecidableEq ω]

/-- The receive loop after the first `n` inputs. -/
private theorem receive_firstInputs {inputConnection : Nat → ω}
    (hInjective : Function.Injective inputConnection)
    (line : CollectionBusLine) (conns : Connections ω) (n : Nat) :
    let st := (List.range n).foldl (receiveInput inputConnection) (line, conns)
    st.1 = line.pushAll n (fun i => conns.store.recv (inputConnection i)) ∧
      (∀ w, (st.2 w).content =
        if w ∈ (List.range n).map inputConnection then none else (conns w).content) ∧
      ∀ w, (st.2 w).overwritten = (conns w).overwritten := by
  induction n with
  | zero => simp [pushAll]
  | succ n ih =>
      simp only [List.range_succ, List.foldl_append, List.foldl_cons, List.foldl_nil]
      obtain ⟨hLine, hContent, hOverwritten⟩ := ih
      set st := (List.range n).foldl (receiveInput inputConnection) (line, conns)
      have hFresh : inputConnection n ∉ (List.range n).map inputConnection := by
        simp only [List.mem_map, List.mem_range, not_exists, not_and]
        intro i hi hEq
        exact absurd (hInjective hEq) (Nat.ne_of_lt hi)
      have hTaken : (st.2.receive (inputConnection n)).1 =
          conns.store.recv (inputConnection n) := by
        rw [Connections.receive_fst]
        simp only [Store.recv, Connections.store, hContent, if_neg hFresh]
      refine ⟨?_, ?_, ?_⟩
      · simp only [receiveInput, hTaken, hLine, push, pushAll]
        congr 1
        funext i
        rcases Nat.lt_trichotomy i n with hLt | rfl | hGt
        · simp [Function.update_of_ne (Nat.ne_of_lt hLt), hLt, Nat.lt_succ_of_lt hLt]
        · simp
        · have hOut : ¬i < n := by omega
          have hOut' : ¬i < n + 1 := by omega
          simp [Function.update_of_ne (Nat.ne_of_gt hGt), hOut, hOut']
      · intro w
        rw [receiveInput, Connections.content_receive, hContent]
        by_cases hw : w = inputConnection n
        · simp [hw]
        · simp [hw]
      · intro w
        rw [receiveInput, Connections.overwritten_receive, hOverwritten]

/-- The receive phase empties the input connections into the fifos. -/
theorem receive_fst {inputConnection : Nat → ω}
    (hInjective : Function.Injective inputConnection) (inputPorts : Nat)
    (line : CollectionBusLine) (conns : Connections ω) :
    (receive inputPorts inputConnection (line, conns)).1 =
      line.pushAll inputPorts fun i => conns.store.recv (inputConnection i) :=
  (receive_firstInputs hInjective line conns inputPorts).1

theorem cycle_fst {inputConnection : Nat → ω}
    (hInjective : Function.Injective inputConnection) (inputPorts : Nat)
    (outputPort : ω) (line : CollectionBusLine) (conns : Connections ω) :
    (cycle inputPorts inputConnection outputPort (line, conns)).1 =
      (line.fire inputPorts fun i => conns.store.recv (inputConnection i)).1 := by
  obtain ⟨hLine, -, -⟩ := receive_firstInputs hInjective line conns inputPorts
  simp only [cycle, receive, fire]
  rw [hLine]
  split <;> rfl

theorem cycle_snd {inputConnection : Nat → ω}
    (hInjective : Function.Injective inputConnection) (inputPorts : Nat)
    (outputPort : ω) (line : CollectionBusLine) (conns : Connections ω) :
    (cycle inputPorts inputConnection outputPort (line, conns)).2 =
      (receive inputPorts inputConnection (line, conns)).2.sendAll outputPort
        (line.fire inputPorts fun i => conns.store.recv (inputConnection i)).2 := by
  obtain ⟨hLine, -, -⟩ := receive_firstInputs hInjective line conns inputPorts
  simp only [cycle, receive, fire]
  rw [hLine]
  split
  · rename_i pck hSelect
    simp [hSelect, Connections.sendAll]
  · rename_i hSelect
    simp [hSelect, Connections.sendAll]

/-- What a cycle leaves on the connections. -/
theorem cycle_content {inputConnection : Nat → ω}
    (hInjective : Function.Injective inputConnection) (inputPorts : Nat)
    (outputPort : ω) (line : CollectionBusLine) (conns : Connections ω) (w : ω) :
    ((cycle inputPorts inputConnection outputPort (line, conns)).2 w).content =
      if w = outputPort ∧
          (line.fire inputPorts fun i => conns.store.recv (inputConnection i)).2 ≠ [] then
        some (line.fire inputPorts fun i => conns.store.recv (inputConnection i)).2
      else if w ∈ (List.range inputPorts).map inputConnection then none
      else (conns w).content := by
  obtain ⟨-, hContent, -⟩ := receive_firstInputs hInjective line conns inputPorts
  rw [cycle_snd hInjective, Connections.content_sendAll, receive, hContent]

/-- A cycle overwrites no connection as long as its output is free. -/
theorem cycle_overwritten {inputConnection : Nat → ω}
    (hInjective : Function.Injective inputConnection) (inputPorts : Nat)
    {outputPort : ω} (line : CollectionBusLine) {conns : Connections ω}
    (hFree : (conns outputPort).content = none) (w : ω) :
    ((cycle inputPorts inputConnection outputPort (line, conns)).2 w).overwritten =
      (conns w).overwritten := by
  obtain ⟨-, hContent, hOverwritten⟩ := receive_firstInputs hInjective line conns inputPorts
  rw [cycle_snd hInjective, Connections.overwritten_sendAll, receive, hOverwritten, hContent]
  rcases eq_or_ne w outputPort with rfl | hOther
  · simp [hFree]
  · simp [hOther]

end

end CollectionBusLine

/-- The connections of a `Bus`. -/
structure Bus (ω : Type*) where
  nBusLines : Nat
  inputPortsBusLine : Nat
  inputConnection : Nat → Nat → ω
  outputPort : Nat → ω

namespace Bus

section

variable {ω : Type*} [DecidableEq ω] (B : Bus ω)

def cycleLine (st : (Nat → CollectionBusLine) × Connections ω) (b : Nat) :
    (Nat → CollectionBusLine) × Connections ω :=
  let r := CollectionBusLine.cycle B.inputPortsBusLine (B.inputConnection b)
    (B.outputPort b) (st.1 b, st.2)
  (Function.update st.1 b r.1, r.2)

def cycle (st : (Nat → CollectionBusLine) × Connections ω) :
    (Nat → CollectionBusLine) × Connections ω :=
  (List.range B.nBusLines).foldl B.cycleLine st

def wiring : Wiring Nat ω where
  ins b := (List.range B.inputPortsBusLine).map (B.inputConnection b)
  outs b := [B.outputPort b]

def program : Program Nat ω CollectionBusLine DataPackage :=
  fun b line arrived =>
    let r := line.fire B.inputPortsBusLine fun i => arrived (B.inputConnection b i)
    (r.1, fun _ => r.2)

/-- Every input and every output port of the bus is a connection of its own. -/
structure Separate : Prop where
  input : ∀ b i b' i', B.inputConnection b i = B.inputConnection b' i' → b = b' ∧ i = i'
  output : ∀ b b', B.outputPort b = B.outputPort b' → b = b'
  apart : ∀ b b' i, B.outputPort b ≠ B.inputConnection b' i

private theorem inbox_input (st : Store ω DataPackage)
    {b i : Nat} (hi : i < B.inputPortsBusLine) :
    inbox B.wiring st b (B.inputConnection b i) = st.recv (B.inputConnection b i) := by
  have hMem : B.inputConnection b i ∈ B.wiring.ins b :=
    List.mem_map.mpr ⟨i, List.mem_range.mpr hi, rfl⟩
  simp [inbox, hMem]

private theorem cycleLine_eq_visit (hSeparate : B.Separate)
    (st : (Nat → CollectionBusLine) × Connections ω) (b : Nat) :
    toNet (B.cycleLine st b) = visit B.wiring B.program (toNet st) b := by
  obtain ⟨tab, conns⟩ := st
  have hInjective : Function.Injective (B.inputConnection b) :=
    fun i i' h => (hSeparate.input b i b i' h).2
  have hFire : (tab b).fire B.inputPortsBusLine
        (fun i => inbox B.wiring conns.store b (B.inputConnection b i)) =
      (tab b).fire B.inputPortsBusLine
        (fun i => conns.store.recv (B.inputConnection b i)) :=
    CollectionBusLine.fire_congr _ fun i hi => inbox_input B _ hi
  have hSent : ∀ w, outbox B.wiring B.program (toNet (tab, conns)) b w =
      ((tab b).fire B.inputPortsBusLine
        (fun i => conns.store.recv (B.inputConnection b i))).2 := by
    intro w
    simp [outbox, program, toNet, hFire]
  obtain ⟨-, hContent, hOverwritten⟩ :=
    CollectionBusLine.receive_firstInputs hInjective (tab b) conns B.inputPortsBusLine
  apply toNet_eq_visit
  · simp [program, hFire, CollectionBusLine.cycle_fst hInjective]
  · intro w
    rw [hSent, CollectionBusLine.cycle_snd hInjective, Connections.content_sendAll,
      CollectionBusLine.receive, hContent]
    simp [wiring]
  · intro w
    rw [hSent, CollectionBusLine.cycle_snd hInjective, Connections.overwritten_sendAll,
      CollectionBusLine.receive, hContent, hOverwritten]
    by_cases hw : w ∈ (List.range B.inputPortsBusLine).map (B.inputConnection b)
    · simp only [if_pos hw]
      simp [wiring, hw]
    · simp only [if_neg hw]
      simp only [wiring, hw]
      simp

omit [DecidableEq ω] in
private theorem readersFirst (hSeparate : B.Separate) :
    B.wiring.ReadersFirst (List.range B.nBusLines) := by
  refine List.pairwise_lt_range.imp ?_
  intro a b hab
  have hne : a ≠ b := Nat.ne_of_lt hab
  refine ⟨hne, ?_, ?_, ?_⟩
  · intro w ha hb
    obtain ⟨i, -, rfl⟩ := List.mem_map.mp ha
    obtain ⟨i', -, hEq⟩ := List.mem_map.mp hb
    exact hne (hSeparate.input b i' a i hEq).1.symm
  · simpa [wiring] using fun h => hne (hSeparate.output b a h).symm
  · intro w ha hb
    obtain ⟨i, -, hEq⟩ := List.mem_map.mp hb
    have hPort : w = B.outputPort a := by simpa [wiring] using ha
    exact hSeparate.apart a b i (hPort.symm.trans hEq.symm)

/-- The lines of the bus step simultaneously. -/
theorem cycle_eq_step (hSeparate : B.Separate)
    (st : (Nat → CollectionBusLine) × Connections ω) :
    toNet (B.cycle st) = step B.wiring B.program (List.range B.nBusLines) (toNet st) := by
  rw [← sweep_eq_step (readersFirst B hSeparate)]
  exact (List.foldl_hom toNet fun st b => (cycleLine_eq_visit B hSeparate st b).symm).symm

/-- Line `b` in a cycle of the bus: its next state and what it forwards. -/
def fireLine (st : (Nat → CollectionBusLine) × Connections ω) (b : Nat) :
    CollectionBusLine × List DataPackage :=
  (st.1 b).fire B.inputPortsBusLine fun i => st.2.store.recv (B.inputConnection b i)

private theorem program_eq (st : (Nat → CollectionBusLine) × Connections ω) (b : Nat) :
    B.program b (st.1 b) (inbox B.wiring st.2.store b) =
      ((B.fireLine st b).1, fun _ => (B.fireLine st b).2) := by
  simp only [program, fireLine]
  rw [CollectionBusLine.fire_congr _ fun i hi => inbox_input B st.2.store hi]

variable {B} {st : (Nat → CollectionBusLine) × Connections ω}

theorem cycle_line (hSeparate : B.Separate) {b : Nat} (hb : b < B.nBusLines) :
    (B.cycle st).1 b = (B.fireLine st b).1 := by
  have hStep := congrArg (fun n => n.node b) (cycle_eq_step B hSeparate st)
  rw [step_node _ (List.mem_range.mpr hb)] at hStep
  exact hStep.trans (congrArg Prod.fst (program_eq B st b))

theorem cycle_content_output (hSeparate : B.Separate) {b : Nat} (hb : b < B.nBusLines)
    (hEmpty : st.2.store.content (B.outputPort b) = none) :
    (B.cycle st).2.store.content (B.outputPort b) = filled (B.fireLine st b).2 := by
  have hStep := congrArg (fun n => n.store.content (B.outputPort b))
    (cycle_eq_step B hSeparate st)
  have hOutbox : outbox B.wiring B.program (toNet st) b (B.outputPort b) =
      (B.fireLine st b).2 :=
    congrFun (congrArg Prod.snd (program_eq B st b)) _
  rw [step_content_of_writer (readersFirst B hSeparate) (List.mem_range.mpr hb)
    (by simp [wiring]) (Or.inr hEmpty), hOutbox] at hStep
  exact hStep

theorem cycle_content_input (hSeparate : B.Separate) {b i : Nat} (hb : b < B.nBusLines)
    (hi : i < B.inputPortsBusLine) :
    (B.cycle st).2.store.content (B.inputConnection b i) = none := by
  have hStep := congrArg (fun n => n.store.content (B.inputConnection b i))
    (cycle_eq_step B hSeparate st)
  have hNoWriter : ∀ b' ∈ List.range B.nBusLines,
      B.inputConnection b i ∉ B.wiring.outs b' := by
    intro b' _
    simpa [wiring] using (hSeparate.apart b' b i).symm
  have hDrained : Drained B.wiring (List.range B.nBusLines) (B.inputConnection b i) :=
    ⟨b, List.mem_range.mpr hb, List.mem_map.mpr ⟨i, List.mem_range.mpr hi, rfl⟩⟩
  rw [step_content_of_no_writer hNoWriter, if_pos hDrained] at hStep
  exact hStep

theorem cycle_content_of_ne (hSeparate : B.Separate) {w : ω}
    (hIn : ∀ b i, w ≠ B.inputConnection b i) (hOut : ∀ b, w ≠ B.outputPort b) :
    (B.cycle st).2.store.content w = st.2.store.content w := by
  have hStep := congrArg (fun n => n.store.content w) (cycle_eq_step B hSeparate st)
  have hNoWriter : ∀ b ∈ List.range B.nBusLines, w ∉ B.wiring.outs b := by
    intro b _
    simpa [wiring] using hOut b
  have hNotDrained : ¬Drained B.wiring (List.range B.nBusLines) w := by
    rintro ⟨b, -, hMem⟩
    obtain ⟨i, -, hEq⟩ := List.mem_map.mp hMem
    exact hIn b i hEq.symm
  rw [step_content_of_no_writer hNoWriter, if_neg hNotDrained] at hStep
  exact hStep

theorem cycle_clobbered (hSeparate : B.Separate)
    (hEmpty : ∀ b < B.nBusLines, st.2.store.content (B.outputPort b) = none) (w : ω) :
    (B.cycle st).2.store.clobbered w = st.2.store.clobbered w := by
  have hStep := congrArg (fun n => n.store.clobbered w) (cycle_eq_step B hSeparate st)
  rw [step_clobbered (readersFirst B hSeparate)] at hStep
  · exact hStep
  · intro b hb hw _
    have hEq : w = B.outputPort b := by simpa [wiring] using hw
    exact Or.inr (hEq ▸ hEmpty b (List.mem_range.mp hb))

end

end Bus

end Stonne
