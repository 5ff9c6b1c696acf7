import Stonne.Distribution.DSNetwork
import Stonne.Tpu.Channels
import Stonne.Tpu.Gemm

/-!
# Several multiplier inputs on one read port

The constructors of `DSNetworkTop` and `DSNetwork` accept every number of read ports
that leaves a power of two of inputs behind each port.  With two or more of them the
inputs hang on the last level of a tree.  The loop of `Stonne::cycle` does not run the
trees: `dsnet->cycle()` is commented out.  What the memory sends then stays on the read
connections, and only a port with one input, which has a tree without levels, is served.
-/

namespace Stonne

open Dataflow

namespace Tpu

/-- What read port `port` sends in the cycle that starts in `s`. -/
def sent (cfg : Config) (layer : GemmLayer) (s : Tpu) (port : Nat) : List DataPackage :=
  ((s.memIssue cfg layer).mem.readPorts port).next.2

/-- The state in front of the mesh. -/
def beforeMesh (cfg : Config) (layer : GemmLayer) (s : Tpu) : Tpu :=
  (((s.memCycle cfg layer).busCycle cfg).rnCycle cfg).ltCycle

/-- What multiplier input `x` receives in the cycle that starts in `s`. -/
def arrived (cfg : Config) (layer : GemmLayer) (s : Tpu) (x : Nat) : List DataPackage :=
  ((s.beforeMesh cfg layer).conns.receive (cfg.inputConnection x)).1

/-- The state after `n` cycles. -/
def stateAt (cfg : Config) (layer : GemmLayer) (output : Nat → Int) (n : Nat) : Tpu :=
  (cycle cfg layer)^[n] (init output)

/-- The loop of `Stonne::cycle` makes at least `n` rounds. -/
def Unfinished (cfg : Config) (layer : GemmLayer) (output : Nat → Int) (n : Nat) : Prop :=
  ∀ m < n, ¬(stateAt cfg layer output m).isExecutionFinished

/-- The packages for input `x` that its port sent in the first `n` cycles. -/
def sentTo (cfg : Config) (layer : GemmLayer) (output : Nat → Int) (n x : Nat) :
    List DataPackage :=
  (List.range n).flatMap fun m =>
    (sent cfg layer (stateAt cfg layer output m) (x / cfg.msSizePerPort)).filter
      (·.addresses (x % cfg.msSizePerPort))

section

variable {cfg : Config} {layer : GemmLayer} {s : Tpu}

/-! ## One input per port -/

private theorem ltCycle_content_of_ne {w : Wire} (hIn : w ≠ .outputAS) (hOut : w ≠ .outputLT) :
    s.ltCycle.conns.store.content w = s.conns.store.content w := by
  unfold ltCycle
  split
  · simp [Connections.store, Connections.send, Connections.content_receive, hIn, hOut]
  · rfl

/-- Behind ports with one input, every package is for the first and only input. -/
private def SingleInputs (readPorts : Nat → ReadPort) : Prop :=
  ∀ port, ∀ pck ∈ (readPorts port).psumFifo ++ (readPorts port).inputFifo,
    pck.traffic = .unicast 0

private theorem SingleInputs.pushPort {readPorts : Nat → ReadPort}
    (h : SingleInputs readPorts) (port : Nat) {pck : DataPackage}
    (hTraffic : pck.traffic = .unicast 0) :
    SingleInputs (OSMeshSDMemory.pushPort readPorts port pck) := by
  intro other copy hMem
  by_cases hPort : other = port
  · subst hPort
    have hOld := h other copy
    rw [OSMeshSDMemory.pushPort, Function.update_self] at hMem
    split at hMem
    · simp only [List.mem_append, List.mem_singleton] at hMem hOld
      rcases hMem with (hPsum | rfl) | hInput
      · exact hOld (Or.inl hPsum)
      · exact hTraffic
      · exact hOld (Or.inr hInput)
    · simp only [List.mem_append, List.mem_singleton] at hMem hOld
      rcases hMem with hPsum | hInput | rfl
      · exact hOld (Or.inl hPsum)
      · exact hOld (Or.inr hInput)
      · exact hTraffic
  · rw [OSMeshSDMemory.pushPort, Function.update_of_ne hPort] at hMem
    exact h other copy hMem

private theorem SingleInputs.foldl (hSize : cfg.msSizePerPort = 1) {ι : Type*}
    {pcks : ι → DataPackage} (hUnicast : ∀ i, ∃ dest, (pcks i).traffic = .unicast dest)
    (order : List ι) {readPorts : Nat → ReadPort} (h : SingleInputs readPorts) :
    SingleInputs (order.foldl
      (fun ports i => OSMeshSDMemory.sendPackageToInputFifos cfg ports (pcks i)) readPorts) := by
  induction order generalizing readPorts with
  | nil => exact h
  | cons i order ih =>
      apply ih
      obtain ⟨dest, hDest⟩ := hUnicast i
      simp only [OSMeshSDMemory.sendPackageToInputFifos, hDest]
      apply h.pushPort
      simp [hSize, Nat.mod_one]

private theorem SingleInputs.next {readPorts readPorts' : Nat → ReadPort}
    (h : SingleInputs readPorts)
    (hNext : ∀ port, readPorts' port = (readPorts port).next.1 ∨ readPorts' port = readPorts port) :
    SingleInputs readPorts' := by
  intro port pck hMem
  rcases hNext port with hSent | hSame
  · apply h port
    rw [hSent] at hMem
    unfold ReadPort.next at hMem
    split at hMem
    · rename_i hPsum
      rw [hPsum]
      exact List.mem_cons_of_mem _ hMem
    · rename_i hPsum
      split at hMem
      · rename_i hInput
        rw [hPsum, hInput]
        simp only [hPsum, List.nil_append] at hMem ⊢
        exact List.mem_cons_of_mem _ hMem
      · exact hMem
  · exact h port pck (hSame ▸ hMem)

private theorem SingleInputs.memIssue (hSize : cfg.msSizePerPort = 1) (layer : GemmLayer)
    (h : SingleInputs s.mem.readPorts) : SingleInputs (s.memIssue cfg layer).mem.readPorts := by
  unfold Tpu.memIssue
  split
  · exact h
  · have hPorts : (s.mem.distInputs cfg layer).readPorts = s.mem.distributedPorts cfg layer :=
      congrArg OSMeshSDMemory.Frame.readPorts (OSMeshSDMemory.frame_distInputs cfg layer s.mem)
    rw [hPorts]
    exact (h.foldl hSize (fun i => ⟨_, rfl⟩) _).foldl hSize (fun i => ⟨_, rfl⟩) _
  · exact h
  · exact h

private theorem SingleInputs.cycle (hSize : cfg.msSizePerPort = 1)
    (h : SingleInputs s.mem.readPorts) : SingleInputs (s.cycle cfg layer).mem.readPorts := by
  have hMem : (s.cycle cfg layer).mem = ((s.memIssue cfg layer).memTransfer cfg layer).mem := by
    have hLt : ∀ r : Tpu, r.ltCycle.mem = r.mem := by
      intro r
      unfold ltCycle
      split <;> rfl
    simp only [Tpu.cycle, meshCycle, hLt]
    rfl
  rw [hMem]
  apply (h.memIssue hSize layer).next
  intro port
  rw [← writtenMem_readPorts cfg layer (s.memIssue cfg layer)]
  rcases lt_or_ge port cfg.nReadPorts with hPort | hPort
  · exact Or.inl (OSMeshSDMemory.send_readPorts cfg _ hPort)
  · exact Or.inr (OSMeshSDMemory.send_readPorts_of_le cfg _ hPort)

/-- No package is on a connection inside a tree. -/
private def TreesEmpty (conns : Connections Wire) : Prop :=
  ∀ port level pos, conns.store.content (.ds port level pos) = none

private theorem TreesEmpty.receive {conns : Connections Wire} (h : TreesEmpty conns) (w : Wire) :
    TreesEmpty (conns.receive w).2 := by
  intro port level pos
  have hSame := h port level pos
  simp only [Connections.store] at hSame ⊢
  rw [Connections.content_receive, hSame, ite_self]

private theorem TreesEmpty.sendAll {conns : Connections Wire} (h : TreesEmpty conns) {w : Wire}
    (hw : ∀ port level pos, w ≠ .ds port level pos) (data : List DataPackage) :
    TreesEmpty (conns.sendAll w data) := by
  intro port level pos
  have hSame := h port level pos
  simp only [Connections.store] at hSame ⊢
  rw [Connections.content_sendAll, if_neg (fun hAnd => hw port level pos hAnd.1.symm), hSame]

private theorem TreesEmpty.cycleMs {st : (OSMeshMN.Pos → MultiplierOS) × Connections Wire}
    (h : TreesEmpty st.2) (p : OSMeshMN.Pos) : TreesEmpty (OSMeshMN.cycleMs cfg st p).2 := by
  have hReceived := (h.receive (OSMeshMN.links cfg p).left).receive (OSMeshMN.links cfg p).top
  simp only [OSMeshMN.cycleMs, MultiplierOS.cycle]
  split
  · apply TreesEmpty.sendAll
    · apply TreesEmpty.sendAll
      · exact hReceived.sendAll (by simp [OSMeshMN.links]) _
      · simp [OSMeshMN.links]
    · simp [OSMeshMN.links]
  · exact hReceived

private theorem TreesEmpty.beforeMesh (h : TreesEmpty s.conns) :
    TreesEmpty (s.beforeMesh cfg layer).conns := by
  intro port level pos
  rw [Tpu.beforeMesh, ltCycle_content_of_ne (by simp) (by simp),
    rnCycle_content_of_ne (by simp) (by simp), busCycle_content_of_ne (by simp) (by simp),
    memCycle, memTransfer_content_of_ne (by simp) (by simp [OSMeshSDMemory.writeConnections]),
    memIssue_conns]
  exact h port level pos

private theorem TreesEmpty.cycle (h : TreesEmpty s.conns) :
    TreesEmpty (s.cycle cfg layer).conns := by
  have hFold : ∀ (order : List OSMeshMN.Pos) st, TreesEmpty st.2 →
      TreesEmpty (order.foldl (OSMeshMN.cycleMs cfg) st).2 := by
    intro order
    induction order with
    | nil => exact fun _ hSt => hSt
    | cons p order ih => exact fun st hSt => ih _ (hSt.cycleMs p)
  exact hFold _ _ h.beforeMesh

/-- The weight of the first column is in front of port 0. -/
private def FirstWeight (pck : DataPackage) (readPorts : Nat → ReadPort) : Prop :=
  (readPorts 0).psumFifo = [] ∧ ∃ rest, (readPorts 0).inputFifo = pck :: rest

private theorem FirstWeight.send {pck other : DataPackage} {readPorts : Nat → ReadPort}
    (h : FirstWeight pck readPorts) (hType : other.dataType ≠ .psum) {dest : Nat}
    (hTraffic : other.traffic = .unicast dest) :
    FirstWeight pck (OSMeshSDMemory.sendPackageToInputFifos cfg readPorts other) := by
  obtain ⟨hPsum, rest, hInput⟩ := h
  simp only [OSMeshSDMemory.sendPackageToInputFifos, hTraffic, OSMeshSDMemory.pushPort, hType,
    if_false]
  by_cases hPort : dest / cfg.msSizePerPort = 0
  · rw [hPort, FirstWeight, Function.update_self]
    refine ⟨hPsum, rest ++ [{ other with traffic := .unicast (dest % cfg.msSizePerPort) }], ?_⟩
    simp [hInput]
  · rw [FirstWeight, Function.update_of_ne (Ne.symm hPort)]
    exact ⟨hPsum, rest, hInput⟩

private theorem FirstWeight.foldl {pck : DataPackage} {pcks : Nat → DataPackage}
    (hPcks : ∀ i, (pcks i).dataType ≠ .psum ∧ ∃ dest, (pcks i).traffic = .unicast dest)
    (order : List Nat) {readPorts : Nat → ReadPort} (h : FirstWeight pck readPorts) :
    FirstWeight pck (order.foldl
      (fun ports i => OSMeshSDMemory.sendPackageToInputFifos cfg ports (pcks i)) readPorts) := by
  induction order generalizing readPorts with
  | nil => exact h
  | cons i order ih =>
      obtain ⟨dest, hDest⟩ := (hPcks i).2
      exact ih (h.send (hPcks i).1 hDest)

end

end Tpu

end Stonne
