import Stonne.Distribution.DSNetwork
import Stonne.Lib.Table
import Stonne.Tpu.OSMeshSDMemory

/-!
# The read ports of the memory

`SDMemory::sendPackageToInputFifos` splits a package over the ports of the memory.
Each port gets a replica whose destinations count from the first multiplier of the
port, or nothing when no multiplier behind the port is a destination.
-/

namespace Stonne

open Dataflow

/-- The number of read ports, and of the multipliers behind each. -/
structure ReadPorts where
  nReadPorts : Nat
  msSizePerInputPort : Nat
  deriving DecidableEq, Repr

namespace SDMemory

/-- A replica keeps the data and the type.  Only an operand keeps the iteration. -/
def replica (pck : DataPackage) (traffic : Traffic) : DataPackage where
  data := pck.data
  dataType := pck.dataType
  traffic := traffic
  iterationK := if pck.dataType = .psum then 0 else pck.iterationK

/-- The destinations of a multicast package behind one port. -/
def localDest (cfg : ReadPorts) (dest : List Bool) (i : Nat) : List Bool :=
  (List.range cfg.msSizePerInputPort).map fun j =>
    dest.getD (i * cfg.msSizePerInputPort + j) false

def sendPackageToInputFifos (cfg : ReadPorts) (readPorts : Nat → ReadPort)
    (pck : DataPackage) : Nat → ReadPort :=
  match pck.traffic with
  | .broadcast =>
      (List.range cfg.nReadPorts).foldl
        (fun ports i => OSMeshSDMemory.pushPort ports i (replica pck .broadcast))
        readPorts
  | .unicast dest =>
      OSMeshSDMemory.pushPort readPorts (dest / cfg.msSizePerInputPort)
        (replica pck (.unicast (dest % cfg.msSizePerInputPort)))
  | .multicast dest =>
      (List.range cfg.nReadPorts).foldl
        (fun ports i =>
          if (localDest cfg dest i).any id then
            OSMeshSDMemory.pushPort ports i (replica pck (.multicast (localDest cfg dest i)))
          else ports)
        readPorts

end SDMemory

/-- Pushing packages into the fifos of one port. -/
def ReadPort.pushAll (port : ReadPort) (pcks : List DataPackage) : ReadPort where
  inputFifo := port.inputFifo ++ pcks.filter fun pck => pck.dataType ≠ .psum
  psumFifo := port.psumFifo ++ pcks.filter fun pck => pck.dataType = .psum

@[simp]
theorem ReadPort.pushAll_nil (port : ReadPort) : port.pushAll [] = port := by
  simp [ReadPort.pushAll]

theorem OSMeshSDMemory.pushPort_eq (readPorts : Nat → ReadPort) (port : Nat)
    (pck : DataPackage) :
    OSMeshSDMemory.pushPort readPorts port pck =
      Function.update readPorts port ((readPorts port).pushAll [pck]) := by
  rw [OSMeshSDMemory.pushPort]
  congr 1
  split
  · simp [ReadPort.pushAll, *]
  · simp [ReadPort.pushAll, *]

namespace SDMemory

/-- What one port gets of a package. -/
def portPackages (cfg : ReadPorts) (pck : DataPackage) (i : Nat) : List DataPackage :=
  match pck.traffic with
  | .broadcast => [replica pck .broadcast]
  | .unicast dest =>
      if dest / cfg.msSizePerInputPort = i then
        [replica pck (.unicast (dest % cfg.msSizePerInputPort))]
      else []
  | .multicast dest =>
      if (localDest cfg dest i).any id then
        [replica pck (.multicast (localDest cfg dest i))]
      else []

theorem sendPackageToInputFifos_apply (cfg : ReadPorts) (readPorts : Nat → ReadPort)
    (pck : DataPackage) {i : Nat} (hi : i < cfg.nReadPorts) :
    sendPackageToInputFifos cfg readPorts pck i =
      (readPorts i).pushAll (portPackages cfg pck i) := by
  cases hTraffic : pck.traffic with
  | broadcast =>
      have hRound : ∀ ports j,
          OSMeshSDMemory.pushPort ports j (replica pck .broadcast) =
            Function.update ports j ((ports j).pushAll [replica pck .broadcast]) :=
        fun ports j => OSMeshSDMemory.pushPort_eq ports j _
      simp only [sendPackageToInputFifos, portPackages, hTraffic]
      rw [foldl_range_table (fun _ port => port.pushAll [replica pck .broadcast]) hRound,
        if_pos hi]
  | unicast dest =>
      simp only [sendPackageToInputFifos, portPackages, hTraffic]
      rw [OSMeshSDMemory.pushPort_eq]
      split
      · subst i
        rw [Function.update_self]
      · rename_i hPort
        rw [Function.update_of_ne (Ne.symm hPort), ReadPort.pushAll_nil]
  | multicast dest =>
      have hRound : ∀ (ports : Nat → ReadPort) j,
          (if (localDest cfg dest j).any id then
            OSMeshSDMemory.pushPort ports j (replica pck (.multicast (localDest cfg dest j)))
          else ports) =
            Function.update ports j ((ports j).pushAll
              (if (localDest cfg dest j).any id then
                [replica pck (.multicast (localDest cfg dest j))]
              else [])) := by
        intro ports j
        split
        · rw [OSMeshSDMemory.pushPort_eq]
        · rw [ReadPort.pushAll_nil, Function.update_eq_self]
      simp only [sendPackageToInputFifos, portPackages, hTraffic]
      rw [foldl_range_table
        (fun j port => port.pushAll
          (if (localDest cfg dest j).any id then
            [replica pck (.multicast (localDest cfg dest j))]
          else [])) hRound, if_pos hi]

/-- A port only gets packages for its own multipliers. -/
theorem hits_of_mem_portPackages {cfg : ReadPorts} {pck copy : DataPackage} {i : Nat}
    (hSize : 0 < cfg.msSizePerInputPort) (h : copy ∈ portPackages cfg pck i) :
    copy.hits 0 cfg.msSizePerInputPort = true := by
  cases hTraffic : pck.traffic with
  | broadcast =>
      simp only [portPackages, hTraffic, List.mem_singleton] at h
      subst h
      rfl
  | unicast dest =>
      have hLess := Nat.mod_lt dest hSize
      simp only [portPackages, hTraffic, List.mem_ite_nil_right, List.mem_singleton] at h
      rw [h.2]
      simpa [DataPackage.hits, replica] using hLess
  | multicast dest =>
      simp only [portPackages, hTraffic, List.mem_ite_nil_right, List.mem_singleton] at h
      obtain ⟨hAny, rfl⟩ := h
      obtain ⟨_, hMem, hTrue⟩ := List.any_eq_true.mp hAny
      obtain ⟨j, hj, rfl⟩ := List.mem_map.mp hMem
      have hLess := List.mem_range.mp hj
      refine DSwitch.anyDest_iff.mpr ⟨j, Nat.zero_le j, hLess, ?_⟩
      simpa [localDest, hLess] using hTrue

/-- The replicas for one multiplier: one if it is a destination of the package, and
none otherwise. -/
theorem map_filter_portPackages (cfg : ReadPorts) (pck : DataPackage) (i : Nat) {j : Nat}
    (hj : j < cfg.msSizePerInputPort) :
    ((portPackages cfg pck i).filter (·.addresses j)).map
        (fun copy => (copy.data, copy.dataType)) =
      if pck.addresses (i * cfg.msSizePerInputPort + j) then [(pck.data, pck.dataType)]
      else [] := by
  cases hTraffic : pck.traffic with
  | broadcast => simp [portPackages, DataPackage.addresses, replica, hTraffic]
  | unicast dest =>
      have hDest : dest = i * cfg.msSizePerInputPort + j ↔
          dest / cfg.msSizePerInputPort = i ∧ dest % cfg.msSizePerInputPort = j := by
        rw [Nat.div_mod_unique (by omega)]
        constructor
        · intro h
          exact ⟨by rw [h, Nat.mul_comm, Nat.add_comm], hj⟩
        · rintro ⟨h, -⟩
          rw [← h, Nat.mul_comm, Nat.add_comm]
      by_cases hPort : dest / cfg.msSizePerInputPort = i
      · by_cases hLocal : dest % cfg.msSizePerInputPort = j
        · simp [portPackages, DataPackage.addresses, replica, hTraffic, hDest, hPort, hLocal]
        · simp [portPackages, DataPackage.addresses, replica, hTraffic, hDest, hPort, hLocal]
      · simp [portPackages, DataPackage.addresses, hTraffic, hDest, hPort]
  | multicast dest =>
      have hLocal : (localDest cfg dest i).getD j false =
          dest.getD (i * cfg.msSizePerInputPort + j) false := by
        simp [localDest, hj]
      cases hHere : dest.getD (i * cfg.msSizePerInputPort + j) false with
      | true =>
          have hAny : (localDest cfg dest i).any id = true :=
            List.any_eq_true.mpr
              ⟨true, List.mem_map.mpr ⟨j, List.mem_range.mpr hj, hHere⟩, rfl⟩
          rw [hHere] at hLocal
          simp only [portPackages, DataPackage.addresses, replica, hTraffic, hAny, hHere, if_true,
            hLocal, List.filter_cons, List.filter_nil, List.map_cons, List.map_nil]
      | false =>
          rw [hHere] at hLocal
          simp only [portPackages, DataPackage.addresses, replica, hTraffic, hHere]
          split
          · rw [List.filter_cons_of_neg (by simp [-List.getD_eq_getElem?_getD, hLocal])]
            rfl
          · simp

end SDMemory

end Stonne
