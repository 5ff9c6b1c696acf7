import Stonne.Tpu.Wavefront

/-!
# The controller during a tile

`TileMem` is the state of `OSMeshSDMemory` after `σ` cycles of tile `t` in which the
results `results` came back.  The first `layer.K` cycles after the configuration
distribute operands; then the controller waits until all results of the tile are
written.  Three lemmas move it by a cycle: the distribution puts exactly the next
operands on the ports (`TileMem.distInputs_port`), the write loop stores the results
that arrived (`Written.writeAll`), and the transition follows the two.
-/

namespace Stonne

open Dataflow

namespace GemmLayer

variable (layer : GemmLayer)

/-- The output address of neuron `vn` of tile `t`. -/
def address (t vn : Nat) : Nat :=
  (layer.tileRow t * layer.tM + vn / layer.colsOf t) * layer.N +
    layer.tileCol t * layer.tN + vn % layer.colsOf t

/-- The stores of the results `pcks` of tile `t`. -/
def storesOf (t : Nat) (pcks : List DataPackage) : List (Nat × Int) :=
  pcks.map fun pck => (layer.address t pck.vn, pck.data)

/-- The tile after `t`: columns first. -/
theorem tile_succ (h : 0 < layer.iterN) (t : Nat) :
    layer.tileRow (t + 1) =
        (if layer.tileCol t + 1 = layer.iterN then layer.tileRow t + 1 else layer.tileRow t) ∧
      layer.tileCol (t + 1) =
        if layer.tileCol t + 1 = layer.iterN then 0 else layer.tileCol t + 1 := by
  unfold tileRow tileCol
  have hSplit := Nat.div_add_mod t layer.iterN
  have hLess := Nat.mod_lt t h
  split
  · rename_i hLast
    have hNext : t + 1 = layer.iterN * (t / layer.iterN + 1) := by
      rw [Nat.mul_add, Nat.mul_one]
      omega
    exact ⟨by rw [hNext, Nat.mul_div_cancel_left _ h], by rw [hNext, Nat.mul_mod_right]⟩
  · rename_i hNotLast
    have hNext : t + 1 = layer.iterN * (t / layer.iterN) + (t % layer.iterN + 1) := by
      omega
    have hBelow : t % layer.iterN + 1 < layer.iterN := by omega
    constructor
    · rw [hNext, Nat.mul_add_div h, Nat.div_eq_of_lt hBelow, Nat.add_zero]
    · rw [hNext, Nat.mul_add_mod, Nat.mod_eq_of_lt hBelow]

end GemmLayer

namespace OSMeshSDMemory

/-- Memory after a list of stores. -/
def applyWrites (output : Nat → Int) (writes : List (Nat × Int)) : Nat → Int :=
  writes.foldl (fun out w => Function.update out w.1 w.2) output

/-- The results `results` of tile `t` were written after the stores `earlier`. -/
structure Written (layer : GemmLayer) (output : Nat → Int) (t : Nat)
    (earlier : List (Nat × Int)) (results : List DataPackage) (mem : OSMeshSDMemory) :
    Prop where
  rowsUsed : mem.rowsUsed = layer.rowsOf t
  colsUsed : mem.colsUsed = layer.colsOf t
  writes : mem.writes = earlier ++ layer.storesOf t results
  outputAddress : mem.outputAddress = applyWrites output mem.writes
  currentOutput : mem.currentOutput = mem.writes.length
  executionFinished :
    mem.executionFinished = decide (mem.writes.length = layer.M * layer.N)
  currentOutputIteration :
    mem.currentOutputIteration =
      if results.length = layer.tileSize t then 0 else results.length
  nIterationsCompleted :
    mem.nIterationsCompleted = if results.length = layer.tileSize t then t + 1 else t

section

variable {layer : GemmLayer} {output : Nat → Int} {t : Nat} {earlier : List (Nat × Int)}
  {results pcks : List DataPackage} {mem : OSMeshSDMemory}

/-- The fields of the controller after one round of the write loop. -/
private theorem writePackage_fields (layer : GemmLayer) (mem : OSMeshSDMemory)
    (pck : DataPackage) :
    let last := mem.currentOutputIteration + 1 = mem.rowsUsed * mem.colsUsed
    let mem' := mem.writePackage layer pck
    mem'.rowsUsed = mem.rowsUsed ∧ mem'.colsUsed = mem.colsUsed ∧
      mem'.writes = mem.writes ++ [(addrOffset layer mem pck.vn, pck.data)] ∧
      mem'.outputAddress =
        Function.update mem.outputAddress (addrOffset layer mem pck.vn) pck.data ∧
      mem'.currentOutput = mem.currentOutput + 1 ∧
      mem'.executionFinished =
        (mem.executionFinished || decide (mem.currentOutput + 1 = layer.M * layer.N)) ∧
      mem'.currentOutputIteration = (if last then 0 else mem.currentOutputIteration + 1) ∧
      mem'.nIterationsCompleted =
        (if last then mem.nIterationsCompleted + 1 else mem.nIterationsCompleted) ∧
      mem'.iterationCompleted =
        (mem.iterationCompleted ||
          (decide last && decide (mem.currentState = .osWaitingForNextIter))) := by
  intro last mem'
  by_cases hLast : mem.currentOutputIteration + 1 = mem.rowsUsed * mem.colsUsed
  · simp only [mem', last, OSMeshSDMemory.writePackage, count, store, hLast, if_true,
      decide_true, Bool.true_and, true_and]
    exact ⟨rfl, rfl⟩
  · simp only [mem', last, OSMeshSDMemory.writePackage, count, store, hLast, if_false,
      decide_false, Bool.false_and, Bool.or_false, true_and, and_true]
    rfl

/-- One more result is written. -/
private theorem Written.writePackage (pck : DataPackage)
    (hRoom : earlier.length + layer.tileSize t ≤ layer.M * layer.N)
    (hOpen : results.length < layer.tileSize t)
    (h : Written layer output t earlier results mem) :
    Written layer output t earlier (results ++ [pck]) (mem.writePackage layer pck) ∧
      (mem.writePackage layer pck).iterationCompleted =
        (mem.iterationCompleted ||
          (decide (results.length + 1 = layer.tileSize t) &&
            decide (mem.currentState = .osWaitingForNextIter))) := by
  obtain ⟨hRows, hCols, hWrites, hOutput, hCount, hFinished, hIteration, hCompleted,
    hFlag⟩ := writePackage_fields layer mem pck
  have hNotLast : ¬results.length = layer.tileSize t := by omega
  have hTile : mem.nIterationsCompleted = t := by
    rw [h.nIterationsCompleted, if_neg hNotLast]
  have hDone : mem.currentOutputIteration = results.length := by
    rw [h.currentOutputIteration, if_neg hNotLast]
  have hSize : mem.rowsUsed * mem.colsUsed = layer.tileSize t := by
    rw [h.rowsUsed, h.colsUsed, GemmLayer.tileSize]
  have hAddress : addrOffset layer mem pck.vn = layer.address t pck.vn := by
    simp [addrOffset, GemmLayer.address, hTile, h.colsUsed, GemmLayer.tileRow,
      GemmLayer.tileCol]
  have hLength : mem.writes.length = earlier.length + results.length := by
    simp [h.writes, GemmLayer.storesOf]
  have hRunning : mem.executionFinished = false := by
    rw [h.executionFinished, decide_eq_false_iff_not]
    omega
  rw [hDone, hSize] at hIteration hCompleted hFlag
  refine ⟨⟨?_, ?_, ?_, ?_, ?_, ?_, ?_, ?_⟩, hFlag⟩
  · rw [hRows, h.rowsUsed]
  · rw [hCols, h.colsUsed]
  · rw [hWrites, h.writes, hAddress]
    simp [GemmLayer.storesOf]
  · rw [hOutput, hWrites, h.outputAddress]
    simp [applyWrites]
  · rw [hCount, hWrites, h.currentOutput]
    simp
  · rw [hFinished, hRunning, h.currentOutput, hWrites]
    simp
  · rw [hIteration, List.length_append, List.length_singleton]
  · rw [hCompleted, hTile, List.length_append, List.length_singleton]

/-- The write loop stores the results in the order of their arrival. -/
private theorem Written.foldl_writePackage
    (hRoom : earlier.length + layer.tileSize t ≤ layer.M * layer.N)
    (hOpen : results.length < layer.tileSize t)
    (hFit : results.length + pcks.length ≤ layer.tileSize t)
    (h : Written layer output t earlier results mem) :
    Written layer output t earlier (results ++ pcks)
        (pcks.foldl (OSMeshSDMemory.writePackage layer) mem) ∧
      (pcks.foldl (OSMeshSDMemory.writePackage layer) mem).iterationCompleted =
        (mem.iterationCompleted ||
          (decide (results.length + pcks.length = layer.tileSize t) &&
            decide (mem.currentState = .osWaitingForNextIter))) := by
  induction pcks generalizing results mem with
  | nil =>
      have hNotLast : ¬results.length = layer.tileSize t := by omega
      simpa [hNotLast] using h
  | cons pck pcks ih =>
      obtain ⟨hNext, hFlag⟩ := h.writePackage pck hRoom hOpen
      rw [List.length_cons] at hFit
      rcases pcks with _ | ⟨pck', pcks⟩
      · exact ⟨hNext, hFlag⟩
      · rw [List.length_cons] at hFit
        have hStill : ¬results.length + 1 = layer.tileSize t := by omega
        have hOpen' : (results ++ [pck]).length < layer.tileSize t := by
          rw [List.length_append, List.length_singleton]
          omega
        have hFit' : (results ++ [pck]).length + (pck' :: pcks).length ≤ layer.tileSize t := by
          rw [List.length_append, List.length_singleton, List.length_cons]
          omega
        have hRest := ih hOpen' hFit' hNext
        have hState : (mem.writePackage layer pck).currentState = mem.currentState :=
          congrArg Frame.currentState (frame_writePackage layer mem pck)
        rw [hState] at hRest
        rw [List.foldl_cons]
        refine ⟨by simpa using hRest.1, ?_⟩
        rw [hRest.2, hFlag]
        simp [hStill, Nat.add_comm, Nat.add_left_comm]

/-- The write loop with the packages that `receive` put into the fifo. -/
theorem Written.writeAll
    (hRoom : earlier.length + layer.tileSize t ≤ layer.M * layer.N)
    (hOpen : results.length < layer.tileSize t)
    (hFit : results.length + pcks.length ≤ layer.tileSize t)
    (h : Written layer output t earlier results mem) :
    Written layer output t earlier (results ++ pcks)
        ({ mem with writeFifo := pcks }.writeAll layer) ∧
      ({ mem with writeFifo := pcks }.writeAll layer).iterationCompleted =
        (mem.iterationCompleted ||
          (decide (results.length + pcks.length = layer.tileSize t) &&
            decide (mem.currentState = .osWaitingForNextIter))) := by
  have hEmptied : Written layer output t earlier results { mem with writeFifo := [] } :=
    ⟨h.rowsUsed, h.colsUsed, h.writes, h.outputAddress, h.currentOutput,
      h.executionFinished, h.currentOutputIteration, h.nIterationsCompleted⟩
  exact hEmptied.foldl_writePackage hRoom hOpen hFit

/-! ## States and counters -/

/-- `t` is the last tile. -/
def LastTile (layer : GemmLayer) (t : Nat) : Prop :=
  layer.iterM ≤ layer.tileRow (t + 1)

instance (layer : GemmLayer) (t : Nat) : Decidable (LastTile layer t) :=
  inferInstanceAs (Decidable (_ ≤ _))

/-- The state of the controller after `σ` cycles of tile `t`. -/
def controlState (layer : GemmLayer) (t σ : Nat) (complete : Bool) :
    OSMeshControllerState :=
  if σ ≤ layer.K then .osDistInputs
  else if LastTile layer t then .osAllDataSent
  else if complete then .osConfiguring
  else .osWaitingForNextIter

/-- The counters of the controller after `σ` cycles of tile `t`. -/
structure Controlled (layer : GemmLayer) (t σ : Nat) (complete : Bool)
    (mem : OSMeshSDMemory) : Prop where
  currentState : mem.currentState = controlState layer t σ complete
  currentK : mem.currentK = if σ ≤ layer.K then σ - 1 else 0
  currentN :
    mem.currentN = if σ ≤ layer.K then layer.tileCol t else layer.tileCol (t + 1)
  currentM :
    mem.currentM = if σ ≤ layer.K then layer.tileRow t else layer.tileRow (t + 1)
  iterationCompleted :
    mem.iterationCompleted =
      decide (layer.K < σ ∧ (LastTile layer t ∨ complete = true))
  nReconfigurations : mem.nReconfigurations = t + 1

theorem Written.transition (h : Written layer output t earlier results mem) :
    Written layer output t earlier results (transition layer mem) := by
  have hSame : (OSMeshSDMemory.transition layer mem).frame.rowsUsed = mem.rowsUsed ∧
      (OSMeshSDMemory.transition layer mem).frame.colsUsed = mem.colsUsed := by
    rw [frame_transition]
    exact ⟨rfl, rfl⟩
  have hRest : (OSMeshSDMemory.transition layer mem).writes = mem.writes ∧
      (OSMeshSDMemory.transition layer mem).outputAddress = mem.outputAddress ∧
      (OSMeshSDMemory.transition layer mem).currentOutput = mem.currentOutput ∧
      (OSMeshSDMemory.transition layer mem).executionFinished = mem.executionFinished ∧
      (OSMeshSDMemory.transition layer mem).currentOutputIteration =
        mem.currentOutputIteration ∧
      (OSMeshSDMemory.transition layer mem).nIterationsCompleted =
        mem.nIterationsCompleted := by
    unfold OSMeshSDMemory.transition
    split
    · exact ⟨rfl, rfl, rfl, rfl, rfl, rfl⟩
    · split
      · split <;> exact ⟨rfl, rfl, rfl, rfl, rfl, rfl⟩
      · exact ⟨rfl, rfl, rfl, rfl, rfl, rfl⟩
    · split <;> exact ⟨rfl, rfl, rfl, rfl, rfl, rfl⟩
    · exact ⟨rfl, rfl, rfl, rfl, rfl, rfl⟩
  obtain ⟨hWrites, hOutput, hCount, hFinished, hIteration, hCompleted⟩ := hRest
  exact
    { rowsUsed := hSame.1.trans h.rowsUsed
      colsUsed := hSame.2.trans h.colsUsed
      writes := hWrites.trans h.writes
      outputAddress := by rw [hOutput, hWrites, h.outputAddress]
      currentOutput := by rw [hCount, hWrites, h.currentOutput]
      executionFinished := by rw [hFinished, hWrites, h.executionFinished]
      currentOutputIteration := hIteration.trans h.currentOutputIteration
      nIterationsCompleted := hCompleted.trans h.nIterationsCompleted }

theorem Written.distInputs (cfg : Config)
    (h : Written layer output t earlier results mem) :
    Written layer output t earlier results (mem.distInputs cfg layer) := by
  unfold OSMeshSDMemory.distInputs advance
  simp only
  split
  · split
    · exact ⟨h.rowsUsed, h.colsUsed, h.writes, h.outputAddress, h.currentOutput,
        h.executionFinished, h.currentOutputIteration, h.nIterationsCompleted⟩
    · exact ⟨h.rowsUsed, h.colsUsed, h.writes, h.outputAddress, h.currentOutput,
        h.executionFinished, h.currentOutputIteration, h.nIterationsCompleted⟩
  · exact ⟨h.rowsUsed, h.colsUsed, h.writes, h.outputAddress, h.currentOutput,
      h.executionFinished, h.currentOutputIteration, h.nIterationsCompleted⟩

theorem distInputs_iterationCompleted (cfg : Config) (layer : GemmLayer)
    (mem : OSMeshSDMemory) :
    (mem.distInputs cfg layer).iterationCompleted =
      (mem.advance layer).iterationCompleted := by
  unfold OSMeshSDMemory.distInputs advance
  simp only
  split
  · split <;> rfl
  · rfl

/-- Configuring tile `t` starts its first cycle. -/
theorem controlled_configure {mem' : OSMeshSDMemory} (hK : 1 ≤ layer.K)
    (hFrame : mem'.frame =
      { currentState := .osConfiguring
        currentM := layer.tileRow t
        currentN := layer.tileCol t
        currentK := 0
        rowsUsed := layer.rowsOf t
        colsUsed := layer.colsOf t
        nReconfigurations := t + 1
        readPorts := mem'.readPorts })
    (hFlag : mem'.iterationCompleted = false) :
    Controlled layer t 1 false (transition layer mem') := by
  obtain ⟨hState, hM, hN, hCount, -, -, hReconf, -⟩ := Frame.mk.inj hFrame
  have hNext : transition layer mem' = { mem' with currentState := .osDistInputs } := by
    simp [OSMeshSDMemory.transition, hState]
  have hOne : ¬layer.K < 1 := by omega
  rw [hNext]
  exact
    { currentState := by simp [controlState, hK]
      currentK := by simp [hCount]
      currentN := by simp [hK, hN]
      currentM := by simp [hK, hM]
      iterationCompleted := by simp [hFlag, hOne]
      nReconfigurations := hReconf }

/-- The counters after the distribution of one column. -/
private theorem advance_fields {σ : Nat} (hN : 0 < layer.iterN) (hσ : 1 ≤ σ)
    (hDist : σ ≤ layer.K) (h : Controlled layer t σ false mem) :
    (mem.advance layer).frame =
        { mem.frame with
          currentK := if σ + 1 ≤ layer.K then σ else 0
          currentN := if σ + 1 ≤ layer.K then layer.tileCol t else layer.tileCol (t + 1)
          currentM :=
            if σ + 1 ≤ layer.K then layer.tileRow t else layer.tileRow (t + 1) } ∧
      (mem.advance layer).iterationCompleted = decide (σ = layer.K) := by
  have hK : mem.currentK = σ - 1 := by rw [h.currentK, if_pos hDist]
  have hCol : mem.currentN = layer.tileCol t := by rw [h.currentN, if_pos hDist]
  have hRow : mem.currentM = layer.tileRow t := by rw [h.currentM, if_pos hDist]
  have hFlag : mem.iterationCompleted = false := by
    rw [h.iterationCompleted, decide_eq_false_iff_not]
    omega
  have hLast : mem.currentK + 1 = layer.iterK ↔ σ = layer.K := by
    rw [hK, GemmLayer.iterK]
    omega
  obtain ⟨hNextRow, hNextCol⟩ := layer.tile_succ hN t
  by_cases hEnd : σ = layer.K
  · by_cases hWrap : layer.tileCol t + 1 = layer.iterN
    · have hAdvance : mem.advance layer =
          { mem with
            currentK := 0
            currentN := 0
            currentM := layer.tileRow t + 1
            iterationCompleted := true } := by
        rw [advance, if_pos (hLast.mpr hEnd), if_pos (hCol ▸ hWrap), hRow]
      simp [hAdvance, frame, hNextRow, hNextCol, hWrap, hEnd]
    · have hAdvance : mem.advance layer =
          { mem with
            currentK := 0
            currentN := layer.tileCol t + 1
            iterationCompleted := true } := by
        rw [advance, if_pos (hLast.mpr hEnd), if_neg (hCol ▸ hWrap), hCol]
      simp [hAdvance, frame, hNextRow, hNextCol, hWrap, hRow, hEnd]
  · have hMore : σ + 1 ≤ layer.K := by omega
    have hAdvance : mem.advance layer = { mem with currentK := σ } := by
      rw [advance, if_neg (fun hEq => hEnd (hLast.mp hEq)), hK, Nat.sub_add_cancel hσ]
    simp [hAdvance, frame, hMore, hRow, hCol, hFlag, hEnd]

/-- A cycle of `OS_DIST_INPUTS`, in which nothing came back. -/
theorem Controlled.dist {σ : Nat} {mem' : OSMeshSDMemory} (hN : 0 < layer.iterN)
    (hσ : 1 ≤ σ) (hDist : σ ≤ layer.K) (h : Controlled layer t σ false mem)
    (hFrame : mem'.frame = { (mem.advance layer).frame with readPorts := mem'.readPorts })
    (hFlag : mem'.iterationCompleted = (mem.advance layer).iterationCompleted) :
    Controlled layer t (σ + 1) false (transition layer mem') := by
  obtain ⟨hAdvanced, hCompleted⟩ := advance_fields hN hσ hDist h
  rw [hAdvanced] at hFrame
  rw [hCompleted] at hFlag
  obtain ⟨hState, hM, hN', hK, -, -, hReconf, -⟩ := Frame.mk.inj hFrame
  have hState : mem'.currentState = .osDistInputs := by
    rw [hState]
    exact h.currentState.trans (if_pos hDist)
  have hReconf : mem'.nReconfigurations = t + 1 := hReconf.trans h.nReconfigurations
  by_cases hEnd : σ = layer.K
  · have hNotMore : ¬σ + 1 ≤ layer.K := by omega
    have hBeyond : layer.K < σ + 1 := by omega
    simp only [hNotMore, if_false] at hM hN' hK
    by_cases hLast : LastTile layer t
    · have hStop : layer.iterM ≤ mem'.currentM := hM ▸ hLast
      have hNext : transition layer mem' =
          { mem' with currentState := .osAllDataSent } := by
        simp [OSMeshSDMemory.transition, hState, hFlag, hEnd, hStop]
      rw [hNext]
      exact
        { currentState := by simp [controlState, hNotMore, hLast]
          currentK := by simp [hNotMore, hK]
          currentN := by simp [hNotMore, hN']
          currentM := by simp [hNotMore, hM]
          iterationCompleted := by simp [hFlag, hEnd, hLast]
          nReconfigurations := hReconf }
    · have hGo : ¬layer.iterM ≤ mem'.currentM := hM ▸ hLast
      have hNext : transition layer mem' =
          { mem' with
            currentState := .osWaitingForNextIter, iterationCompleted := false } := by
        simp [OSMeshSDMemory.transition, hState, hFlag, hEnd, hGo]
      rw [hNext]
      exact
        { currentState := by simp [controlState, hNotMore, hLast]
          currentK := by simp [hNotMore, hK]
          currentN := by simp [hNotMore, hN']
          currentM := by simp [hNotMore, hM]
          iterationCompleted := by simp [hLast]
          nReconfigurations := hReconf }
  · have hMore : σ + 1 ≤ layer.K := by omega
    have hWithin : ¬layer.K < σ + 1 := by omega
    simp only [hMore, if_true] at hM hN' hK
    have hNext : transition layer mem' = mem' := by
      simp [OSMeshSDMemory.transition, hState, hFlag, hEnd]
    rw [hNext]
    exact
      { currentState := by simp [controlState, hMore, hState]
        currentK := by simp [hMore, hK]
        currentN := by simp [hMore, hN']
        currentM := by simp [hMore, hM]
        iterationCompleted := by simp [hFlag, hEnd, hWithin]
        nReconfigurations := hReconf }

/-- A cycle of waiting, in which `mem'` was reached by writing results. -/
theorem Controlled.wait {σ : Nat} {mem' : OSMeshSDMemory} {complete : Bool}
    (hWait : layer.K < σ) (h : Controlled layer t σ false mem)
    (hFrame : mem'.frame = mem.frame)
    (hFlag : mem'.iterationCompleted =
      (mem.iterationCompleted ||
        (complete && decide (mem.currentState = .osWaitingForNextIter)))) :
    Controlled layer t (σ + 1) complete (transition layer mem') := by
  have hNot : ¬σ ≤ layer.K := by omega
  have hNot' : ¬σ + 1 ≤ layer.K := by omega
  have hBeyond : layer.K < σ + 1 := by omega
  obtain ⟨hState, hM, hN, hK, -, -, hReconf, -⟩ := Frame.mk.inj hFrame
  have hM := hM.trans h.currentM
  have hN := hN.trans h.currentN
  have hK := hK.trans h.currentK
  have hReconf := hReconf.trans h.nReconfigurations
  simp only [hNot, if_false] at hM hN hK
  rw [h.iterationCompleted] at hFlag
  by_cases hLast : LastTile layer t
  · have hOld : mem.currentState = .osAllDataSent := by
      rw [h.currentState]
      simp [controlState, hNot, hLast]
    have hState := hState.trans hOld
    have hNext : transition layer mem' = mem' := by
      simp [OSMeshSDMemory.transition, hState]
    rw [hNext]
    exact
      { currentState := by simp [controlState, hNot', hLast, hState]
        currentK := by simp [hNot', hK]
        currentN := by simp [hNot', hN]
        currentM := by simp [hNot', hM]
        iterationCompleted := by simp [hFlag, hLast, hWait, hBeyond]
        nReconfigurations := hReconf }
  · have hOld : mem.currentState = .osWaitingForNextIter := by
      rw [h.currentState]
      simp [controlState, hNot, hLast]
    have hState := hState.trans hOld
    have hFlag : mem'.iterationCompleted = complete := by simp [hFlag, hLast, hOld]
    cases complete with
    | false =>
        have hNext : transition layer mem' = mem' := by
          simp [OSMeshSDMemory.transition, hState, hFlag]
        rw [hNext]
        exact
          { currentState := by simp [controlState, hNot', hLast, hState]
            currentK := by simp [hNot', hK]
            currentN := by simp [hNot', hN]
            currentM := by simp [hNot', hM]
            iterationCompleted := by simp [hFlag, hLast]
            nReconfigurations := hReconf }
    | true =>
        have hNext : transition layer mem' =
            { mem' with currentState := .osConfiguring } := by
          simp [OSMeshSDMemory.transition, hState, hFlag]
        rw [hNext]
        exact
          { currentState := by simp [controlState, hNot', hLast]
            currentK := by simp [hNot', hK]
            currentN := by simp [hNot', hN]
            currentM := by simp [hNot', hM]
            iterationCompleted := by simp [hFlag, hBeyond]
            nReconfigurations := hReconf }

/-! ## The operands of a cycle -/

private theorem pushPort_operand (ports : Nat → ReadPort) (port : Nat) {pck : DataPackage}
    (h : pck.dataType ≠ .psum) :
    pushPort ports port pck =
      Function.update ports port
        { ports port with inputFifo := (ports port).inputFifo ++ [pck] } := by
  rw [pushPort, if_neg h]

/-- Pushing one operand into each of `n` consecutive ports. -/
private theorem push_range (pck : Nat → DataPackage) (h : ∀ i, (pck i).dataType ≠ .psum)
    (offset : Nat) (ports : Nat → ReadPort) (n port : Nat) :
    ((List.range n).foldl (fun ports i => pushPort ports (i + offset) (pck i)) ports) port =
      if offset ≤ port ∧ port - offset < n then
        { ports port with
          inputFifo := (ports port).inputFifo ++ [pck (port - offset)] }
      else ports port := by
  induction n with
  | zero => simp
  | succ n ih =>
      rw [List.range_succ, List.foldl_append, List.foldl_cons, List.foldl_nil,
        pushPort_operand _ _ (h n)]
      by_cases hLast : port = n + offset
      · subst hLast
        have hNotBefore : ¬(offset ≤ n + offset ∧ n + offset - offset < n) := by omega
        have hNow : offset ≤ n + offset ∧ n + offset - offset < n + 1 := by omega
        rw [if_neg hNotBefore] at ih
        rw [Function.update_self, ih, if_pos hNow, Nat.add_sub_cancel]
      · have hSame : (offset ≤ port ∧ port - offset < n) ↔
            (offset ≤ port ∧ port - offset < n + 1) := by omega
        rw [Function.update_of_ne hLast, ih]
        simp only [hSame]

/-- With one multiplier per port the destination of an operand is its port. -/
private theorem sendPackage_unicast {cfg : Config} (hPorts : cfg.OneInputPerPort)
    (hPos : 0 < cfg.msRows + cfg.msCols) (ports : Nat → ReadPort) {pck : DataPackage}
    {dest : Nat} (h : pck.traffic = .unicast dest) :
    sendPackageToInputFifos cfg ports pck =
      pushPort ports dest { pck with traffic := .unicast 0 } := by
  have hSize : cfg.msSizePerPort = 1 := by
    rw [Config.msSizePerPort, hPorts, Nat.div_self hPos]
  simp [sendPackageToInputFifos, h, hSize, Nat.mod_one]

/-- In a cycle of `OS_DIST_INPUTS` every port in use gets the next operand of its
stream. -/
theorem distributedPorts_port {cfg : Config} (hCfg : cfg.Valid) {σ : Nat} (hσ : 1 ≤ σ)
    (hDist : σ ≤ layer.K) (hFits : layer.colsOf t ≤ cfg.msCols)
    (h : Controlled layer t σ false mem) (hRows : mem.rowsUsed = layer.rowsOf t)
    (hCols : mem.colsUsed = layer.colsOf t) (hEmpty : ∀ port, mem.readPorts port = {})
    (port : Nat) :
    mem.distributedPorts cfg layer port =
      { inputFifo := layer.onRead cfg.msCols t σ port } := by
  have hPos : 0 < cfg.msRows + cfg.msCols := Nat.add_pos_left hCfg.rows _
  have hK : mem.currentK = σ - 1 := by rw [h.currentK, if_pos hDist]
  have hCol : mem.currentN = layer.tileCol t := by rw [h.currentN, if_pos hDist]
  have hRow : mem.currentM = layer.tileRow t := by rw [h.currentM, if_pos hDist]
  have hWeight : ∀ (ports : Nat → ReadPort) i,
      sendPackageToInputFifos cfg ports (mem.weightPackage layer i) =
        pushPort ports (i + 0) (layer.weightPackage t i (σ - 1)) := by
    intro ports i
    rw [sendPackage_unicast hCfg.ports hPos ports rfl]
    simp [OSMeshSDMemory.weightPackage, GemmLayer.weightPackage, GemmLayer.weight, hK, hCol]
  have hActivation : ∀ (ports : Nat → ReadPort) i,
      sendPackageToInputFifos cfg ports (mem.activationPackage cfg layer i) =
        pushPort ports (i + cfg.msCols) (layer.activationPackage t i (σ - 1)) := by
    intro ports i
    rw [sendPackage_unicast hCfg.ports hPos ports rfl]
    simp [OSMeshSDMemory.activationPackage, GemmLayer.activationPackage,
      GemmLayer.activation, hK, hRow]
  have hBefore : layer.issued σ = σ - 1 := by
    unfold GemmLayer.issued
    omega
  have hAfter : layer.issued (σ + 1) = σ - 1 + 1 := by
    unfold GemmLayer.issued
    omega
  unfold distributedPorts
  simp only [hWeight, hActivation]
  rw [push_range _ (fun i => by simp [GemmLayer.activationPackage]),
    push_range _ (fun i => by simp [GemmLayer.weightPackage]), hEmpty, hRows, hCols,
    GemmLayer.onRead, hBefore, hAfter, seg_singleton, seg_singleton]
  by_cases hTop : port < layer.colsOf t
  · have hNotLeft : ¬cfg.msCols ≤ port := by omega
    simp [hTop, hNotLeft]
  · by_cases hLeft : cfg.msCols ≤ port ∧ port - cfg.msCols < layer.rowsOf t
    · simp [hTop, hLeft]
    · simp [hTop, hLeft]

end

end OSMeshSDMemory

end Stonne
