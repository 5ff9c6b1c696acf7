import Stonne.Sigma.Configuring

/-!
# The states of the sparse memory controller

`SparseSDMemory::cycle` configures the networks for a round, distributes the stationary values
of its clusters and then the streaming matrix, and waits for the outputs of the round.  The
next round starts where the stationary vectors of this one end.  So the rounds do not depend
on when the outputs come back: they are those of a walk over the positions in the stationary
matrix, which is all that the rest of the controller has to be compared with.
-/

namespace Stonne

open Dataflow

/-- `SparsityControllerState` -/
inductive SparsityControllerState where
  | configuring
  | distStaMatrix
  | distStrMatrix
  | waitingForNextStaIter
  | allDataSent
  deriving DecidableEq, Repr

/-- A round: its stationary vectors, their clusters, and the values with their multipliers. -/
structure Round where
  vectors : List Nat
  configurationVNs : List SparseVN
  packages : List (Nat × Int)
  deriving DecidableEq, Repr

/-- Where a round begins: the stationary vector, its element, and the first value. -/
structure Position where
  index : Nat := 0
  j : Nat := 0
  matrix : Nat := 0

/-- The controller between two cycles. -/
structure SparseSDMemory where
  currentState : SparsityControllerState := .configuring
  /-- `sta_current_index_metadata`, `sta_current_j_metadata` and `sta_current_index_matrix`. -/
  position : Position := {}
  staLastJMetadata : Nat := 0
  configurationVNs : List SparseVN := []
  strCurrentIndex : Nat := 0
  currentOutputIteration : Nat := 0
  outputSizeIteration : Nat := 0
  staIterCompleted : Bool := false
  executionFinished : Bool := false
  /-- The rounds so far. -/
  log : List Round := []

/-- The loop variables of `DIST_STA_MATRIX`, and what has been sent. -/
structure StationarySend where
  dest : Nat := 0
  subAddress : Nat := 0
  packages : List (Nat × Int) := []

namespace SparseMemory

variable (mem : SparseMemory)

/-- The values of one cluster; the first multiplier of a folded one is in charge of the psum. -/
def sendCluster (matrix : Nat) (st : StationarySend) (vn : SparseVN) : StationarySend :=
  let j := if vn.folding then 1 else 0
  let dest := st.dest + j
  { dest := dest + (vn.vnSize - j)
    subAddress := st.subAddress + (vn.vnSize - j)
    packages := st.packages ++ (List.range (vn.vnSize - j)).map fun k =>
      (dest + k, mem.staAddress (matrix + (st.subAddress + k))) }

/-- `DIST_STA_MATRIX` -/
def stationaryPackages (matrix : Nat) (vns : List SparseVN) : List (Nat × Int) :=
  (vns.foldl (mem.sendCluster matrix) {}).packages

/-- `total_size` -/
def totalSize (vns : List SparseVN) : Nat :=
  vns.foldl (fun total vn => if vn.folding then total + vn.vnSize - 1 else total + vn.vnSize) 0

/-- The part of a cycle before the outputs are received. -/
def generate (st : SparseSDMemory) : SparseSDMemory :=
  match st.currentState with
  | .configuring =>
      let configuration := mem.configure st.position.index st.position.j
      { st with
        configurationVNs := configuration.configurationVNs
        staLastJMetadata := configuration.staLastJMetadata
        outputSizeIteration := configuration.configurationVNs.length * mem.dimStr }
  | .distStaMatrix =>
      { st with
        log := st.log ++ [{
          vectors := List.range' st.position.index st.configurationVNs.length
          configurationVNs := st.configurationVNs
          packages := mem.stationaryPackages st.position.matrix st.configurationVNs }] }
  | .distStrMatrix => { st with strCurrentIndex := st.strCurrentIndex + 1 }
  | .waitingForNextStaIter => st
  | .allDataSent => st

/-- A package comes out of `write_fifo`. -/
def receive (st : SparseSDMemory) : SparseSDMemory :=
  if st.currentOutputIteration + 1 = st.outputSizeIteration then
    { st with currentOutputIteration := 0, staIterCompleted := true }
  else { st with currentOutputIteration := st.currentOutputIteration + 1 }

/-- Where the next round begins. -/
def advance (st : SparseSDMemory) : Position :=
  let matrix := st.position.matrix + totalSize st.configurationVNs
  if st.configurationVNs.length = 1 then
    if st.staLastJMetadata = mem.K then { index := st.position.index + 1, j := 0, matrix }
    else { index := st.position.index, j := st.staLastJMetadata, matrix }
  else { index := st.position.index + st.configurationVNs.length, j := 0, matrix }

/-- The transitions at the end of a cycle. -/
def transition (st : SparseSDMemory) : SparseSDMemory :=
  match st.currentState with
  | .configuring => { st with currentState := .distStaMatrix }
  | .distStaMatrix => { st with currentState := .distStrMatrix }
  | .distStrMatrix =>
      if st.strCurrentIndex = mem.dimStr then { st with currentState := .waitingForNextStaIter }
      else st
  | .waitingForNextStaIter =>
      if st.staIterCompleted then
        let st := { st with
          strCurrentIndex := 0
          staIterCompleted := false
          position := mem.advance st }
        if mem.dimSta ≤ st.position.index then
          { st with executionFinished := true, currentState := .allDataSent }
        else { st with currentState := .configuring }
      else st
  | .allDataSent => st

/-- A cycle in which `outputs` packages come back. -/
def cycle (st : SparseSDMemory) (outputs : Nat) : SparseSDMemory :=
  mem.transition (receive^[outputs] (mem.generate st))

def run (outputs : List Nat) : SparseSDMemory :=
  outputs.foldl mem.cycle {}

/-! ## The walk -/

/-- The round that begins at a position. -/
def roundAt (p : Position) : Round :=
  let vns := (mem.configure p.index p.j).configurationVNs
  { vectors := List.range' p.index vns.length
    configurationVNs := vns
    packages := mem.stationaryPackages p.matrix vns }

/-- The position behind that round. -/
def next (p : Position) : Position :=
  let configuration := mem.configure p.index p.j
  mem.advance {
    position := p
    configurationVNs := configuration.configurationVNs
    staLastJMetadata := configuration.staLastJMetadata }

/-- The rounds from a position to the end of the stationary matrix. -/
inductive Executes (mem : SparseMemory) : Position → List Round → Prop
  | finished {p : Position} (hEnd : mem.dimSta ≤ p.index) : Executes mem p []
  | round {p : Position} {rest : List Round} (hInside : p.index < mem.dimSta)
      (hRest : Executes mem (mem.next p) rest) : Executes mem p (mem.roundAt p :: rest)

/-- What the rounds of a controller must be. -/
structure Follows (mem : SparseMemory) (rounds : List Round) (st : SparseSDMemory) : Prop where
  /-- The networks are configured for the round of this position. -/
  configured : st.currentState ≠ .configuring → st.currentState ≠ .allDataSent →
    st.configurationVNs = (mem.configure st.position.index st.position.j).configurationVNs ∧
      st.staLastJMetadata = (mem.configure st.position.index st.position.j).staLastJMetadata
  /-- Until the stationary values are distributed the round is still to come. -/
  pending : st.currentState = .configuring ∨ st.currentState = .distStaMatrix →
    st.position.index < mem.dimSta ∧
      ∃ rest, mem.Executes st.position rest ∧ st.log ++ rest = rounds
  distributed : st.currentState = .distStrMatrix ∨ st.currentState = .waitingForNextStaIter →
    ∃ rest, mem.Executes (mem.next st.position) rest ∧ st.log ++ rest = rounds
  finished : st.currentState = .allDataSent → st.log = rounds
  running : st.executionFinished = true → st.currentState = .allDataSent

section

variable {mem} {rounds : List Round} {st : SparseSDMemory}

/-- The outputs change two variables. -/
theorem exists_receive (outputs : Nat) (st : SparseSDMemory) : ∃ count completed,
    receive^[outputs] st =
      { st with currentOutputIteration := count, staIterCompleted := completed } := by
  induction outputs generalizing st with
  | zero => exact ⟨st.currentOutputIteration, st.staIterCompleted, rfl⟩
  | succ outputs ih =>
      obtain ⟨count, completed, hRest⟩ := ih (receive st)
      refine ⟨count, completed, ?_⟩
      rw [Function.iterate_succ_apply, hRest, receive]
      split
      · rfl
      · rfl

theorem advance_eq_next (hVNs : st.configurationVNs =
      (mem.configure st.position.index st.position.j).configurationVNs)
    (hLast : st.staLastJMetadata =
      (mem.configure st.position.index st.position.j).staLastJMetadata) :
    mem.advance st = mem.next st.position := by
  simp only [next, advance, hVNs, hLast]

theorem Follows.not_finished (h : mem.Follows rounds st) (hState : st.currentState ≠ .allDataSent) :
    st.executionFinished ≠ true :=
  fun hDone => hState (h.running hDone)

/-- The cycle without the outputs. -/
private def received (mem : SparseMemory) (st : SparseSDMemory) (count : Nat) (completed : Bool) :
    SparseSDMemory :=
  { mem.generate st with currentOutputIteration := count, staIterCompleted := completed }

private theorem Follows.configuring (h : mem.Follows rounds st) (count : Nat) (completed : Bool)
    (hState : st.currentState = .configuring) :
    mem.Follows rounds (mem.transition (received mem st count completed)) := by
  have hNotDone := h.not_finished (by simp [hState])
  have hPending := h.pending (Or.inl hState)
  simp only [received, generate, transition, hState]
  exact ⟨fun _ _ => ⟨rfl, rfl⟩, fun _ => hPending, fun hNot => by simp at hNot,
    fun hNot => by simp at hNot, fun hDone => absurd hDone hNotDone⟩

/-- The round is the next one of the walk. -/
private theorem Follows.distStaMatrix (h : mem.Follows rounds st) (count : Nat) (completed : Bool)
    (hState : st.currentState = .distStaMatrix) :
    mem.Follows rounds (mem.transition (received mem st count completed)) := by
  have hNotDone := h.not_finished (by simp [hState])
  obtain ⟨hInside, rest, hRest, hLog⟩ := h.pending (Or.inr hState)
  obtain ⟨hVNs, hLast⟩ := h.configured (by simp [hState]) (by simp [hState])
  simp only [received, generate, transition, hState]
  refine ⟨fun _ _ => ⟨hVNs, hLast⟩, fun hNot => by simp at hNot, fun _ => ?_,
    fun hNot => by simp at hNot, fun hDone => absurd hDone hNotDone⟩
  cases hRest with
  | finished hEnd => exact absurd hInside (Nat.not_lt.mpr hEnd)
  | @round _ rest _ hRest =>
      refine ⟨rest, hRest, ?_⟩
      rw [← hLog, List.append_assoc, List.singleton_append, hVNs]
      rfl

private theorem Follows.distStrMatrix (h : mem.Follows rounds st) (count : Nat) (completed : Bool)
    (hState : st.currentState = .distStrMatrix) :
    mem.Follows rounds (mem.transition (received mem st count completed)) := by
  have hNotDone := h.not_finished (by simp [hState])
  have hConfigured := h.configured (by simp [hState]) (by simp [hState])
  have hDistributed := h.distributed (Or.inl hState)
  simp only [received, generate, transition, hState]
  split
  · exact ⟨fun _ _ => hConfigured, fun hNot => by simp at hNot, fun _ => hDistributed,
      fun hNot => by simp at hNot, fun hDone => absurd hDone hNotDone⟩
  · exact ⟨fun _ _ => hConfigured, fun hNot => by simp at hNot, fun _ => hDistributed,
      fun hNot => by simp at hNot, fun hDone => absurd hDone hNotDone⟩

/-- The last output moves the controller to the next position. -/
private theorem Follows.waiting (h : mem.Follows rounds st) (count : Nat) (completed : Bool)
    (hState : st.currentState = .waitingForNextStaIter) :
    mem.Follows rounds (mem.transition (received mem st count completed)) := by
  have hNotDone := h.not_finished (by simp [hState])
  obtain ⟨hVNs, hLast⟩ := h.configured (by simp [hState]) (by simp [hState])
  obtain ⟨rest, hRest, hLog⟩ := h.distributed (Or.inr hState)
  have hNext : mem.advance { st with
      currentOutputIteration := count
      staIterCompleted := completed } = mem.next st.position := advance_eq_next hVNs hLast
  simp only [hState] at hNext
  simp only [received, generate, transition, hState]
  split
  · simp only [hNext]
    split
    · rename_i hEnd
      refine ⟨fun _ hNot => absurd rfl hNot, fun hNot => by simp at hNot,
        fun hNot => by simp at hNot, fun _ => ?_, fun _ => rfl⟩
      cases hRest with
      | finished => simpa using hLog
      | round hInside => exact absurd hInside (Nat.not_lt.mpr hEnd)
    · rename_i hMore
      exact ⟨fun hNot => absurd rfl hNot,
        fun _ => ⟨Nat.lt_of_not_le hMore, rest, hRest, hLog⟩, fun hNot => by simp at hNot,
        fun hNot => by simp at hNot, fun hDone => absurd hDone hNotDone⟩
  · exact ⟨fun _ _ => ⟨hVNs, hLast⟩, fun hNot => by simp at hNot,
      fun _ => ⟨rest, hRest, hLog⟩, fun hNot => by simp at hNot,
      fun hDone => absurd hDone hNotDone⟩

private theorem Follows.allDataSent (h : mem.Follows rounds st) (count : Nat) (completed : Bool)
    (hState : st.currentState = .allDataSent) :
    mem.Follows rounds (mem.transition (received mem st count completed)) := by
  have hFinished := h.finished hState
  simp only [received, generate, transition, hState]
  exact ⟨fun _ hNot => absurd rfl hNot, fun hNot => by simp at hNot,
    fun hNot => by simp at hNot, fun _ => hFinished, fun _ => rfl⟩

theorem Follows.cycle (h : mem.Follows rounds st) (outputs : Nat) :
    mem.Follows rounds (mem.cycle st outputs) := by
  obtain ⟨count, completed, hReceived⟩ := exists_receive outputs (mem.generate st)
  rw [SparseMemory.cycle, hReceived]
  cases hState : st.currentState with
  | configuring => exact h.configuring count completed hState
  | distStaMatrix => exact h.distStaMatrix count completed hState
  | distStrMatrix => exact h.distStrMatrix count completed hState
  | waitingForNextStaIter => exact h.waiting count completed hState
  | allDataSent => exact h.allDataSent count completed hState

/-- In every run the rounds are those of the walk. -/
theorem follows_run (hPos : 0 < mem.dimSta) (h : mem.Executes {} rounds) (outputs : List Nat) :
    mem.Follows rounds (mem.run outputs) := by
  have hStart : mem.Follows rounds {} :=
    ⟨fun hNot => absurd rfl hNot, fun _ => ⟨hPos, rounds, h, rfl⟩, fun hNot => by simp at hNot,
      fun hNot => by simp at hNot, fun hNot => by simp at hNot⟩
  rw [run]
  induction outputs using List.reverseRecOn with
  | nil => exact hStart
  | append_singleton outputs n ih =>
      rw [List.foldl_append, List.foldl_cons, List.foldl_nil]
      exact ih.cycle n

theorem Follows.log_begins (h : mem.Follows rounds st) : st.log <+: rounds := by
  cases hState : st.currentState with
  | configuring =>
      obtain ⟨-, rest, -, hLog⟩ := h.pending (Or.inl hState)
      exact ⟨rest, hLog⟩
  | distStaMatrix =>
      obtain ⟨-, rest, -, hLog⟩ := h.pending (Or.inr hState)
      exact ⟨rest, hLog⟩
  | distStrMatrix =>
      obtain ⟨rest, -, hLog⟩ := h.distributed (Or.inl hState)
      exact ⟨rest, hLog⟩
  | waitingForNextStaIter =>
      obtain ⟨rest, -, hLog⟩ := h.distributed (Or.inr hState)
      exact ⟨rest, hLog⟩
  | allDataSent => rw [h.finished hState]

/-! ## What a cycle does -/

/-- The variables that stay as they are until the next round. -/
structure SameRound (st st' : SparseSDMemory) : Prop where
  position : st'.position = st.position
  configurationVNs : st'.configurationVNs = st.configurationVNs
  staLastJMetadata : st'.staLastJMetadata = st.staLastJMetadata
  outputSizeIteration : st'.outputSizeIteration = st.outputSizeIteration
  executionFinished : st'.executionFinished = st.executionFinished

theorem cycle_configuring (hState : st.currentState = .configuring) (outputs : Nat) :
    let st' := mem.cycle st outputs
    let configuration := mem.configure st.position.index st.position.j
    st'.currentState = .distStaMatrix ∧ st'.position = st.position ∧
      st'.configurationVNs = configuration.configurationVNs ∧
      st'.staLastJMetadata = configuration.staLastJMetadata ∧
      st'.outputSizeIteration = configuration.configurationVNs.length * mem.dimStr ∧
      st'.strCurrentIndex = st.strCurrentIndex ∧
      st'.executionFinished = st.executionFinished := by
  obtain ⟨count, completed, hReceived⟩ := exists_receive outputs (mem.generate st)
  rw [cycle, hReceived]
  simp only [generate, transition, hState, and_self]

theorem cycle_distStaMatrix (hState : st.currentState = .distStaMatrix) (outputs : Nat) :
    let st' := mem.cycle st outputs
    st'.currentState = .distStrMatrix ∧ SameRound st st' ∧
      st'.strCurrentIndex = st.strCurrentIndex := by
  obtain ⟨count, completed, hReceived⟩ := exists_receive outputs (mem.generate st)
  rw [cycle, hReceived]
  simp only [generate, transition, hState, true_and, and_true]
  exact ⟨rfl, rfl, rfl, rfl, rfl⟩

theorem cycle_distStrMatrix (hState : st.currentState = .distStrMatrix) (outputs : Nat) :
    let st' := mem.cycle st outputs
    st'.currentState = (if st.strCurrentIndex + 1 = mem.dimStr then .waitingForNextStaIter
        else .distStrMatrix) ∧ SameRound st st' ∧
      st'.strCurrentIndex = st.strCurrentIndex + 1 := by
  obtain ⟨count, completed, hReceived⟩ := exists_receive outputs (mem.generate st)
  rw [cycle, hReceived]
  simp only [generate, transition, hState]
  split
  · exact ⟨rfl, ⟨rfl, rfl, rfl, rfl, rfl⟩, rfl⟩
  · exact ⟨rfl, ⟨rfl, rfl, rfl, rfl, rfl⟩, rfl⟩

/-- The controller goes on waiting, or it moves to the next position. -/
theorem cycle_waiting (hState : st.currentState = .waitingForNextStaIter) (outputs : Nat) :
    let st' := mem.cycle st outputs
    if (receive^[outputs] st).staIterCompleted then
      st'.position = mem.advance st ∧ st'.strCurrentIndex = 0 ∧ st'.staIterCompleted = false ∧
        if mem.dimSta ≤ (mem.advance st).index then
          st'.currentState = .allDataSent ∧ st'.executionFinished = true
        else st'.currentState = .configuring ∧ st'.executionFinished = st.executionFinished
    else
      st'.currentState = .waitingForNextStaIter ∧ SameRound st st' ∧
        st'.strCurrentIndex = st.strCurrentIndex := by
  have hGenerate : mem.generate st = st := by
    unfold generate
    rw [hState]
  obtain ⟨count, completed, hReceived⟩ := exists_receive outputs st
  rw [cycle, hGenerate, hReceived]
  simp only [transition, hState]
  split
  · have hNext : ∀ count completed, mem.advance { st with
        currentOutputIteration := count
        staIterCompleted := completed } = mem.advance st := fun _ _ => rfl
    simp only [hState] at hNext
    simp only [hNext]
    split
    · exact ⟨rfl, rfl, rfl, rfl, rfl⟩
    · exact ⟨rfl, rfl, rfl, rfl, rfl⟩
  · exact ⟨rfl, ⟨rfl, rfl, rfl, rfl, rfl⟩, rfl⟩

theorem cycle_allDataSent (hState : st.currentState = .allDataSent) (outputs : Nat) :
    let st' := mem.cycle st outputs
    st'.currentState = .allDataSent ∧ SameRound st st' := by
  obtain ⟨count, completed, hReceived⟩ := exists_receive outputs (mem.generate st)
  rw [cycle, hReceived]
  simp only [generate, transition, hState, true_and]
  exact ⟨rfl, rfl, rfl, rfl, rfl⟩

/-! ## Sizes of rounds -/

theorem totalSize_append (vns : List SparseVN) (n : Nat) :
    totalSize (vns ++ [⟨n, false⟩]) = totalSize vns + n := by
  rw [totalSize, List.foldl_append]
  rfl

theorem totalSize_clusters (a m : Nat) :
    totalSize (mem.clusters a (a + m)) = load mem.size a m := by
  induction m with
  | zero => rw [clusters, Nat.add_zero, seg_self]; rfl
  | succ m ih =>
      rw [← Nat.add_assoc, clusters, seg_succ _ (Nat.le_add_right a m), totalSize_append, load_succ,
        ← ih]
      rfl

theorem totalSize_folded (n : Nat) : totalSize [⟨n, true⟩] = n := by
  simp [totalSize, SparseVN.vnSize]

theorem totalSize_whole (n : Nat) : totalSize [⟨n, false⟩] = n := by
  simp [totalSize, SparseVN.vnSize]

/-! ## The end of the run -/

/-- A controller at the beginning of a round, with nothing left over from the one before. -/
structure Fresh (st : SparseSDMemory) : Prop where
  state : st.currentState = .configuring
  strIndex : st.strCurrentIndex = 0
  outputs : st.currentOutputIteration = 0

theorem configure_pos (i j : Nat) : 0 < (mem.configure i j).configurationVNs.length := by
  unfold configure
  split
  · exact Nat.one_pos
  · unfold configureWhole closeWhole
    extract_lets
    split
    · exact Nat.one_pos
    · rename_i hSome
      exact Nat.pos_of_ne_zero hSome

/-- The streaming matrix is distributed in `dimStr` cycles. -/
theorem distribute_str (hState : st.currentState = .distStrMatrix) (hStart : st.strCurrentIndex = 0)
    {n : Nat} (hn : n < mem.dimStr) :
    (List.replicate (n + 1) 0).foldl mem.cycle st =
      { st with
        strCurrentIndex := n + 1
        currentState :=
          if n + 1 = mem.dimStr then .waitingForNextStaIter else .distStrMatrix } := by
  induction n with
  | zero =>
      simp only [List.replicate_succ, List.replicate_zero, List.foldl_cons, List.foldl_nil, cycle,
        generate, transition, hState, hStart, Function.iterate_zero, id_eq]
      rcases eq_or_ne (0 + 1) mem.dimStr with hEnd | hMore
      · simp only [if_pos hEnd]
      · simp only [if_neg hMore]
  | succ n ih =>
      rw [List.replicate_succ', List.foldl_append, ih (by omega), List.foldl_cons, List.foldl_nil,
        if_neg (by omega)]
      simp only [cycle, generate, transition, Function.iterate_zero, id_eq]
      rcases eq_or_ne (n + 1 + 1) mem.dimStr with hEnd | hMore
      · simp only [if_pos hEnd]
        exact if_pos hEnd
      · simp only [if_neg hMore]
        exact if_neg hMore

/-- All outputs of a round. -/
theorem receive_all (hStart : st.currentOutputIteration = 0) {n : Nat}
    (hSize : st.outputSizeIteration = n + 1) :
    receive^[n + 1] st = { st with currentOutputIteration := 0, staIterCompleted := true } := by
  have hBefore : ∀ k ≤ n, receive^[k] st = { st with currentOutputIteration := k } := by
    intro k hk
    induction k with
    | zero =>
        cases st
        cases hStart
        rfl
    | succ k ih =>
        rw [Function.iterate_succ_apply', ih (by omega), receive, hSize,
          if_neg (by simp only; omega)]
  rw [Function.iterate_succ_apply', hBefore n le_rfl, receive, hSize, if_pos rfl]

/-- The last output of a round starts the next one. -/
theorem transition_of_completed (hState : st.currentState = .waitingForNextStaIter)
    (hCompleted : st.staIterCompleted = true) (hStart : st.currentOutputIteration = 0) :
    let st' := mem.transition st
    st'.position = mem.advance st ∧
      if mem.dimSta ≤ st'.position.index then st'.executionFinished = true else Fresh st' := by
  simp only [transition, hState, hCompleted, if_true]
  split
  · exact ⟨rfl, rfl⟩
  · exact ⟨rfl, rfl, rfl, hStart⟩

/-- A round in which the outputs come back when everything is distributed. -/
theorem exists_round (hStr : 0 < mem.dimStr) (h : Fresh st) :
    ∃ outputs : List Nat,
      let st' := outputs.foldl mem.cycle st
      st'.position = mem.next st.position ∧
        if mem.dimSta ≤ st'.position.index then st'.executionFinished = true else Fresh st' := by
  obtain ⟨k, hk⟩ := Nat.exists_eq_succ_of_ne_zero hStr.ne'
  have hSize : 0 < (mem.configure st.position.index st.position.j).configurationVNs.length *
      mem.dimStr := Nat.mul_pos (configure_pos _ _) hStr
  obtain ⟨n, hn⟩ := Nat.exists_eq_succ_of_ne_zero hSize.ne'
  let configured : SparseSDMemory :=
    { st with
      currentState := .distStrMatrix
      configurationVNs := (mem.configure st.position.index st.position.j).configurationVNs
      staLastJMetadata := (mem.configure st.position.index st.position.j).staLastJMetadata
      outputSizeIteration := n + 1
      log := st.log ++ [mem.roundAt st.position] }
  have hConfigured : mem.cycle (mem.cycle st 0) 0 = configured := by
    simp only [cycle, generate, transition, h.state, Function.iterate_zero, id_eq, hn]
    rfl
  let waiting : SparseSDMemory :=
    { configured with strCurrentIndex := k + 1, currentState := .waitingForNextStaIter }
  have hStreamed : (List.replicate (k + 1) 0).foldl mem.cycle configured = waiting := by
    rw [@distribute_str mem configured rfl h.strIndex k (by omega), if_pos hk.symm]
  have hReceived := @receive_all waiting h.outputs n rfl
  have hGenerated : mem.generate waiting = waiting := rfl
  refine ⟨0 :: 0 :: (List.replicate (k + 1) 0 ++ [n + 1]), ?_⟩
  simp only [List.foldl_cons, List.foldl_append, List.foldl_nil, hConfigured, hStreamed]
  rw [cycle, hGenerated, hReceived]
  have hPosition : mem.advance { waiting with
      currentOutputIteration := 0
      staIterCompleted := true } = mem.next st.position := rfl
  rw [← hPosition]
  exact transition_of_completed rfl rfl rfl

/-- Some run executes all rounds. -/
theorem exists_finished (hPos : 0 < mem.dimSta) (hStr : 0 < mem.dimStr)
    (h : mem.Executes {} rounds) : ∃ outputs, (mem.run outputs).executionFinished = true := by
  have hRounds : ∀ p rest, mem.Executes p rest → ∀ st : SparseSDMemory, Fresh st →
      st.position = p → p.index < mem.dimSta →
        ∃ outputs : List Nat, (outputs.foldl mem.cycle st).executionFinished = true := by
    intro p rest hExecutes
    induction hExecutes with
    | finished hEnd =>
        intro st _ _ hInside
        exact absurd hInside (Nat.not_lt.mpr hEnd)
    | @round p rest hInside hRest ih =>
        rintro st hFresh rfl _
        obtain ⟨outputs, hNext, hThen⟩ := exists_round hStr hFresh
        rw [hNext] at hThen
        rcases Nat.lt_or_ge (mem.next st.position).index mem.dimSta with hMore | hEnd
        · rw [if_neg (Nat.not_le.mpr hMore)] at hThen
          obtain ⟨later, hLater⟩ := ih _ hThen hNext hMore
          exact ⟨outputs ++ later, by rwa [List.foldl_append]⟩
        · rw [if_pos hEnd] at hThen
          exact ⟨outputs, hThen⟩
  exact hRounds {} rounds h {} ⟨rfl, rfl, rfl⟩ rfl hPos

end

end SparseMemory

end Stonne
