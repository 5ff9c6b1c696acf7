import Stonne.Sigma.Counters
import Stonne.Sigma.GreedyRounds

/-!
# The rounds of a bitmap

In `DIST_STR_MATRIX` the controller takes neuron `v` of a round for the cluster of the vector
at its index plus `v`, and looks up the multipliers of that vector in `sta_counters_table`.
What a run reads and distributes is recorded, and a rule says what has to be shown of one
round so that it holds in every run.
-/

namespace Stonne

open Dataflow

/-- The controller with `sta_counters_table`.  What it reads of `STA_metadata` is recorded, and
so are the bits that the earlier rounds have distributed. -/
structure PackingMemory where
  controller : SparseSDMemory := {}
  staCountersTable : Nat → Nat
  reads : List Nat := []
  consumed : List (Nat × Nat) := []

namespace SparseMemory

variable (mem : SparseMemory)

/-- The set bits of vector `i` from element `j` to element `last`. -/
def bits (i j last : Nat) : List (Nat × Nat) :=
  ((List.range' j (last - j)).filter (mem.bit i)).map fun j => (i, j)

/-- The bits for which `DIST_STR_MATRIX` looks up a multiplier. -/
def scheduled (st : SparseSDMemory) : List (Nat × Nat) :=
  (List.range st.configurationVNs.length).flatMap fun v =>
    mem.bits (st.position.index + v) st.position.j st.staLastJMetadata

/-- The indices of `STA_metadata` that it reads for that. -/
def distStrReads (st : SparseSDMemory) : List Nat :=
  (List.range' st.position.j (st.staLastJMetadata - st.position.j)).flatMap fun j =>
    (List.range st.configurationVNs.length).map fun v => mem.staIndex (st.position.index + v) j

/-- A cycle in which `outputs` packages come back. -/
def packingCycle (st : PackingMemory) (outputs : Nat) : PackingMemory :=
  let controller := mem.cycle st.controller outputs
  match st.controller.currentState with
  | .configuring =>
      let p := st.controller.position
      { st with
        controller
        staCountersTable := writeCounters st.staCountersTable (mem.scan p.index p.j).staCounters
        reads := st.reads ++ mem.metadataReads p.index p.j }
  | .distStaMatrix => { st with controller }
  | .distStrMatrix => { st with controller, reads := st.reads ++ mem.distStrReads st.controller }
  | .waitingForNextStaIter =>
      if controller.currentState = .waitingForNextStaIter then { st with controller }
      else { st with controller, consumed := st.consumed ++ mem.scheduled st.controller }
  | .allDataSent => { st with controller }

/-- A run with a table that is not initialized. -/
def packingRun (heap : Nat → Nat) (outputs : List Nat) : PackingMemory :=
  outputs.foldl mem.packingCycle { staCountersTable := heap }

section

variable {mem} {i j j' n last v : Nat} {heap : Nat → Nat} {st : PackingMemory}

/-! ## The bits of the rounds -/

theorem mem_bits {b : Nat × Nat} :
    b ∈ mem.bits i j last ↔ b.1 = i ∧ j ≤ b.2 ∧ b.2 < last ∧ mem.bit i b.2 = true := by
  simp only [bits, List.mem_map, List.mem_filter, List.mem_range'_1]
  constructor
  · rintro ⟨k, ⟨hk, hBit⟩, rfl⟩
    exact ⟨rfl, hk.1, by simp only; omega, hBit⟩
  · rintro ⟨rfl, hFrom, hTo, hBit⟩
    exact ⟨b.2, ⟨⟨hFrom, by omega⟩, hBit⟩, rfl⟩

theorem bits_append (h : j ≤ j') (h' : j' ≤ last) :
    mem.bits i j j' ++ mem.bits i j' last = mem.bits i j last := by
  have hSplit : List.range' j (last - j) =
      List.range' j (j' - j) ++ List.range' j' (last - j') := by
    have hAppend := List.range'_append_1 (s := j) (m := j' - j) (n := last - j')
    rw [Nat.add_sub_cancel' h, show j' - j + (last - j') = last - j by omega] at hAppend
    exact hAppend.symm
  rw [bits, bits, bits, hSplit, List.filter_append, List.map_append]

theorem length_bits_zero (i j : Nat) : (mem.bits i 0 j).length = mem.ones i j := by
  rw [bits, List.length_map, ones, List.countP_eq_length_filter, List.range_eq_range', Nat.sub_zero]

theorem length_bits (h : j ≤ last) :
    (mem.bits i j last).length = mem.ones i last - mem.ones i j := by
  have hAppend := congrArg List.length (@bits_append mem i 0 j last (Nat.zero_le j) h)
  rw [List.length_append, length_bits_zero, length_bits_zero] at hAppend
  omega

/-- The set bits before element `j` of vector `i`. -/
def bitsBefore (mem : SparseMemory) (i j : Nat) : List (Nat × Nat) :=
  (List.range i).flatMap (fun i => mem.bits i 0 mem.K) ++ mem.bits i 0 j

theorem bitsBefore_next (i : Nat) : mem.bitsBefore (i + 1) 0 = mem.bitsBefore i mem.K := by
  rw [bitsBefore, bitsBefore, List.range_succ, List.flatMap_append, List.flatMap_singleton]
  exact List.append_nil _

theorem length_bitsBefore (i j : Nat) : (mem.bitsBefore i j).length = mem.rank i j := by
  have hVectors : ((List.range i).flatMap fun i => mem.bits i 0 mem.K).length =
      load mem.size 0 i := by
    induction i with
    | zero => rfl
    | succ i ih =>
        rw [List.range_succ, List.flatMap_append, List.length_append, ih, List.flatMap_singleton,
          length_bits_zero, load_succ, Nat.zero_add]
        rfl
  rw [bitsBefore, List.length_append, hVectors, length_bits_zero, rank]

theorem count_bitsBefore (hi : i < n) (hj : j < mem.K) (hBit : mem.bit i j = true) :
    (mem.bitsBefore n 0).count (i, j) = 1 := by
  have hVector : ∀ i, (mem.bits i 0 mem.K).Nodup := by
    intro i
    apply List.Nodup.map (fun j j' h => (Prod.mk.inj h).2)
    exact (List.nodup_range' 1).filter _
  have hNodup : (mem.bitsBefore n 0).Nodup := by
    rw [bitsBefore]
    simp only [bits, Nat.sub_self, List.range'_zero, List.filter_nil, List.map_nil,
      List.append_nil]
    rw [List.nodup_flatMap]
    refine ⟨fun i _ => hVector i, List.nodup_range.imp ?_⟩
    intro a b hab c ha hb
    exact hab ((mem_bits.mp ha).1.symm.trans (mem_bits.mp hb).1)
  apply List.count_eq_one_of_mem hNodup
  rw [bitsBefore, List.mem_append, List.mem_flatMap]
  exact Or.inl ⟨i, List.mem_range.mpr hi, mem_bits.mpr ⟨rfl, Nat.zero_le j, hj, hBit⟩⟩

/-- The bits of a round, in their order. -/
def roundBits (mem : SparseMemory) (i j n last : Nat) : List (Nat × Nat) :=
  (List.range n).flatMap fun v => mem.bits (i + v) j last

theorem mem_roundBits {b : Nat × Nat} :
    b ∈ mem.roundBits i j n last ↔ ∃ v < n, b.1 = i + v ∧ j ≤ b.2 ∧ b.2 < last ∧
      mem.bit (i + v) b.2 = true := by
  simp only [roundBits, List.mem_flatMap, List.mem_range, mem_bits]

theorem filter_roundBits (hv : v < n) :
    (mem.roundBits i j n last).filter (fun bit => bit.1 = i + v) = mem.bits (i + v) j last := by
  rw [roundBits, List.filter_flatMap, flatMap_range_single hv]
  · apply List.filter_eq_self.mpr
    intro b hb
    exact decide_eq_true (mem_bits.mp hb).1
  · intro v' _ hOther
    apply List.filter_eq_nil_iff.mpr
    intro b hb
    rw [decide_eq_true_eq, (mem_bits.mp hb).1]
    omega

/-- A round goes on where the bits before it end. -/
theorem Takes.bits (h : mem.Takes i j n last) :
    mem.bitsBefore i j ++ mem.roundBits i j n last =
      if last = mem.K then mem.bitsBefore (i + n) 0 else mem.bitsBefore i last := by
  rcases h.single with rfl | ⟨rfl, rfl⟩
  · have hOne : mem.bitsBefore i j ++ mem.roundBits i j 1 last = mem.bitsBefore i last := by
      rw [roundBits, List.range_one, List.flatMap_singleton, bitsBefore, bitsBefore,
        List.append_assoc, Nat.add_zero, bits_append (Nat.zero_le j) h.elements.1.le]
    rw [hOne]
    split
    · rename_i hEnd
      rw [hEnd, bitsBefore_next]
    · rfl
  · rw [if_pos rfl]
    have hVectors : ∀ n, mem.bitsBefore i 0 ++ mem.roundBits i 0 n mem.K =
        mem.bitsBefore (i + n) 0 := by
      intro n
      induction n with
      | zero => exact List.append_nil _
      | succ n ih =>
          rw [← Nat.add_assoc, bitsBefore_next, roundBits, List.range_succ, List.flatMap_append,
            ← List.append_assoc]
          change mem.bitsBefore i 0 ++ mem.roundBits i 0 n mem.K ++ _ = _
          rw [ih, List.flatMap_singleton, bitsBefore, bitsBefore, List.append_assoc]
          congr 1
    exact hVectors n

/-! ## Runs -/

/-- The networks and the table are those of the position. -/
structure InRound (mem : SparseMemory) (st : PackingMemory) : Prop where
  configurationVNs : st.controller.configurationVNs =
    (mem.configure st.controller.position.index st.controller.position.j).configurationVNs
  staLastJMetadata : st.controller.staLastJMetadata =
    (mem.configure st.controller.position.index st.controller.position.j).staLastJMetadata
  counters : ∃ table, st.staCountersTable = writeCounters table
    (mem.scan st.controller.position.index st.controller.position.j).staCounters

/-- What is tracked of a run: `start` between two rounds and `within` during a round, about the
position, the bits of the earlier rounds and the indices read. -/
structure Tracked (mem : SparseMemory)
    (start within : Position → List (Nat × Nat) → List Nat → Prop) (st : PackingMemory) :
    Prop where
  begins : st.controller.currentState = .configuring →
    st.controller.position.index < mem.dimSta ∧ start st.controller.position st.consumed st.reads
  goesOn : st.controller.currentState ≠ .configuring →
    st.controller.currentState ≠ .allDataSent →
    st.controller.position.index < mem.dimSta ∧ InRound mem st ∧
      within st.controller.position st.consumed st.reads
  ends : st.controller.currentState = .allDataSent →
    mem.dimSta ≤ st.controller.position.index ∧
      start st.controller.position st.consumed st.reads
  finished : st.controller.executionFinished = true →
    st.controller.currentState = .allDataSent

/-- What the rounds must do to what is tracked. -/
structure TrackingRule (mem : SparseMemory) (heap : Nat → Nat)
    (start within : Position → List (Nat × Nat) → List Nat → Prop) : Prop where
  initial : start {} [] []
  /-- Right after `CONFIGURING`. -/
  configure : ∀ outputs,
    let st := mem.packingRun heap outputs
    st.controller.currentState = .distStaMatrix → InRound mem st →
    st.controller.position.index < mem.dimSta → ∀ reads,
      st.reads = reads ++
        mem.metadataReads st.controller.position.index st.controller.position.j →
      start st.controller.position st.consumed reads →
      within st.controller.position st.consumed st.reads
  stream : ∀ st : PackingMemory, InRound mem st →
    st.controller.position.index < mem.dimSta →
    within st.controller.position st.consumed st.reads →
    within st.controller.position st.consumed (st.reads ++ mem.distStrReads st.controller)
  next : ∀ st : PackingMemory, InRound mem st →
    st.controller.position.index < mem.dimSta →
    within st.controller.position st.consumed st.reads →
    start (mem.next st.controller.position) (st.consumed ++ mem.scheduled st.controller) st.reads

section

variable {start within : Position → List (Nat × Nat) → List Nat → Prop}

theorem packingRun_concat (heap : Nat → Nat) (outputs : List Nat) (n : Nat) :
    mem.packingRun heap (outputs ++ [n]) = mem.packingCycle (mem.packingRun heap outputs) n := by
  rw [packingRun, List.foldl_append]
  rfl

/-- The controller does not depend on what is recorded. -/
theorem packingCycle_controller (st : PackingMemory) (outputs : Nat) :
    (mem.packingCycle st outputs).controller = mem.cycle st.controller outputs := by
  simp only [packingCycle]
  split
  · rfl
  · rfl
  · rfl
  · split <;> rfl
  · rfl

theorem packingRun_controller (heap : Nat → Nat) (outputs : List Nat) :
    (mem.packingRun heap outputs).controller = mem.run outputs := by
  induction outputs using List.reverseRecOn with
  | nil => rfl
  | append_singleton outputs n ih =>
      rw [packingRun_concat, packingCycle_controller, ih, run, run, List.foldl_append]
      rfl

theorem InRound.of_same {st' : PackingMemory} (h : InRound mem st)
    (hSame : SameRound st.controller st'.controller)
    (hTable : st'.staCountersTable = st.staCountersTable) : InRound mem st' := by
  obtain ⟨hVNs, hLast, hCounters⟩ := h
  refine ⟨?_, ?_, ?_⟩
  · rw [hSame.configurationVNs, hSame.position, hVNs]
  · rw [hSame.staLastJMetadata, hSame.position, hLast]
  · rw [hTable, hSame.position]
    exact hCounters

/-- A cycle inside a round. -/
theorem Tracked.of_same {st' : PackingMemory} (h : mem.Tracked start within st)
    (hState : st.controller.currentState ≠ .configuring ∧
      st.controller.currentState ≠ .allDataSent)
    (hState' : st'.controller.currentState ≠ .configuring ∧
      st'.controller.currentState ≠ .allDataSent)
    (hSame : SameRound st.controller st'.controller)
    (hTable : st'.staCountersTable = st.staCountersTable)
    (hWithin : within st.controller.position st.consumed st.reads →
      within st'.controller.position st'.consumed st'.reads) : mem.Tracked start within st' := by
  obtain ⟨hInside, hRound, hHere⟩ := h.goesOn hState.1 hState.2
  refine ⟨fun hBegins => absurd hBegins hState'.1, fun _ _ => ⟨?_, ?_, hWithin hHere⟩,
    fun hEnds => absurd hEnds hState'.2, fun hDone => ?_⟩
  · rw [hSame.position]
    exact hInside
  · exact hRound.of_same hSame hTable
  · rw [hSame.executionFinished] at hDone
    exact absurd (h.finished hDone) hState.2

/-- A round ends. -/
theorem Tracked.waiting (rule : mem.TrackingRule heap start within)
    (h : mem.Tracked start within st)
    (hState : st.controller.currentState = .waitingForNextStaIter) (outputs : Nat) :
    mem.Tracked start within (mem.packingCycle st outputs) := by
  obtain ⟨hInside, hRound, hHere⟩ := h.goesOn (by simp [hState]) (by simp [hState])
  have hNext := advance_eq_next hRound.configurationVNs hRound.staLastJMetadata
  have hCycle := @cycle_waiting mem st.controller hState outputs
  simp only [hNext] at hCycle
  split at hCycle
  · obtain ⟨hPosition, -, -, hMoves⟩ := hCycle
    have hStart := rule.next st hRound hInside hHere
    have hCycle : mem.packingCycle st outputs =
        { st with
          controller := mem.cycle st.controller outputs
          consumed := st.consumed ++ mem.scheduled st.controller } := by
      have hMoved : (mem.cycle st.controller outputs).currentState ≠ .waitingForNextStaIter := by
        split at hMoves
        · rw [hMoves.1]
          exact nofun
        · rw [hMoves.1]
          exact nofun
      simp only [packingCycle, hState, if_neg hMoved]
    rw [hCycle]
    split at hMoves
    · rename_i hEnd
      refine ⟨fun hNot => ?_, fun _ hNot => absurd hMoves.1 hNot, fun _ => ?_, fun _ => hMoves.1⟩
      · rw [hMoves.1] at hNot
        exact nomatch hNot
      · simp only [hPosition]
        exact ⟨hEnd, hStart⟩
    · rename_i hMore
      refine ⟨fun _ => ?_, fun hNot => absurd hMoves.1 hNot, fun hNot => ?_, fun hDone => ?_⟩
      · simp only [hPosition]
        exact ⟨Nat.lt_of_not_le hMore, hStart⟩
      · rw [hMoves.1] at hNot
        exact nomatch hNot
      · rw [hMoves.2] at hDone
        have hEnded := h.finished hDone
        rw [hState] at hEnded
        exact nomatch hEnded
  · obtain ⟨hStays, hSame, -⟩ := hCycle
    have hCycle : mem.packingCycle st outputs =
        { st with controller := mem.cycle st.controller outputs } := by
      simp only [packingCycle, hState, if_pos hStays]
    rw [hCycle]
    refine h.of_same (by simp [hState]) (by simp [hStays]) hSame rfl ?_
    simp only [hSame.position]
    exact id

/-- What the rounds keep holds in every run. -/
theorem tracked_run (rule : mem.TrackingRule heap start within) (hPos : 0 < mem.dimSta)
    (outputs : List Nat) : mem.Tracked start within (mem.packingRun heap outputs) := by
  induction outputs using List.reverseRecOn with
  | nil => exact ⟨fun _ => ⟨hPos, rule.initial⟩, fun hNot => absurd rfl hNot, nofun, nofun⟩
  | append_singleton outputs n ih =>
      have hConfigure := rule.configure (outputs ++ [n])
      rw [packingRun_concat] at hConfigure ⊢
      generalize mem.packingRun heap outputs = st at *
      cases hState : st.controller.currentState with
      | configuring =>
          obtain ⟨hInside, hStart⟩ := ih.begins hState
          obtain ⟨hMoved, hPosition, hVNs, hLast, -, -, hDone⟩ :=
            @cycle_configuring mem st.controller hState n
          simp only [packingCycle, hState, hMoved, hPosition, forall_const] at hConfigure ⊢
          have hRound : InRound mem
              { st with
                controller := mem.cycle st.controller n
                staCountersTable := writeCounters st.staCountersTable
                  (mem.scan st.controller.position.index st.controller.position.j).staCounters
                reads := st.reads ++ mem.metadataReads st.controller.position.index
                  st.controller.position.j } := by
            refine ⟨?_, ?_, st.staCountersTable, ?_⟩
            · simp only [hVNs, hPosition]
            · simp only [hLast, hPosition]
            · simp only [hPosition]
          have hWithin := hConfigure hRound hInside st.reads rfl hStart
          refine ⟨fun hNot => ?_, fun _ _ => ⟨?_, hRound, ?_⟩, fun hNot => ?_, fun hNot => ?_⟩
          · simp only [hMoved] at hNot
            exact nomatch hNot
          · simp only [hPosition]
            exact hInside
          · simp only [hPosition]
            exact hWithin
          · simp only [hMoved] at hNot
            exact nomatch hNot
          · simp only [hDone] at hNot
            have hEnded := ih.finished hNot
            rw [hState] at hEnded
            exact nomatch hEnded
      | distStaMatrix =>
          obtain ⟨hMoved, hSame, -⟩ := @cycle_distStaMatrix mem st.controller hState n
          simp only [packingCycle, hState]
          refine ih.of_same (by simp [hState]) (by simp [hMoved]) hSame rfl ?_
          simp only [hSame.position]
          exact id
      | distStrMatrix =>
          obtain ⟨hMoved, hSame, -⟩ := @cycle_distStrMatrix mem st.controller hState n
          obtain ⟨hInside, hRound, hHere⟩ := ih.goesOn (by simp [hState]) (by simp [hState])
          simp only [packingCycle, hState]
          refine ih.of_same (by simp [hState]) ?_ hSame rfl ?_
          · simp only [hMoved]
            split
            · exact ⟨nofun, nofun⟩
            · exact ⟨nofun, nofun⟩
          · simp only [hSame.position]
            exact rule.stream st hRound hInside
      | waitingForNextStaIter => exact Tracked.waiting rule ih hState n
      | allDataSent =>
          obtain ⟨hStays, hSame⟩ := @cycle_allDataSent mem st.controller hState n
          have hEnd := ih.ends hState
          simp only [packingCycle, hState]
          refine ⟨fun hNot => ?_, fun _ hNot => absurd hStays hNot, fun _ => ?_, fun _ => hStays⟩
          · simp only [hStays] at hNot
            exact nomatch hNot
          · simp only [hSame.position]
            exact hEnd

end

end

end SparseMemory

end Stonne
