import Stonne.Distribution.ReadPorts

/-!
# The distribution network

`DSNetworkTop` is one tree for each read port of the memory.  A cycle takes the
packages that the ports put on the top connections to the connections of the
multipliers, and every multiplier receives what is on its own.

A multiplier gets the packages that entered its port with it as a destination, in
order.  This rests on the middle of every switch being exact in a `float`.
-/

namespace Stonne

open Dataflow

/-- One tree for each port. -/
structure DSNetworkTop where
  nInputPorts : Nat
  msSizePerPort : Nat
  deriving DecidableEq, Repr

/-- The connections of all the trees, and what every multiplier has received. -/
structure Distribution where
  trees : Nat → Connections DSLink := fun _ => .idle
  received : Nat → List DataPackage := fun _ => []

namespace DSNetworkTop

def dsnetwork (top : DSNetworkTop) : DSNetwork :=
  ⟨top.msSizePerPort⟩

/-- The ports send on the top connections. -/
def send (top : DSNetworkTop) (entering : Nat → List DataPackage)
    (trees : Nat → Connections DSLink) : Nat → Connections DSLink :=
  (List.range top.nInputPorts).foldl
    (fun trees i => Function.update trees i ((trees i).sendAll .input (entering i))) trees

def cycle (top : DSNetworkTop) (trees : Nat → Connections DSLink) :
    Nat → Connections DSLink :=
  (List.range top.nInputPorts).foldl
    (fun trees i => Function.update trees i (top.dsnetwork.cycle (trees i))) trees

/-- Multiplier `index` receives from connection `index` of `getLastLevelConnections`. -/
def receive (top : DSNetworkTop) (st : Distribution) (index : Nat) : Distribution :=
  let port := index / top.msSizePerPort
  let taken := (st.trees port).receive
    (top.dsnetwork.lastLevelConnection (index % top.msSizePerPort))
  { trees := Function.update st.trees port taken.2
    received := Function.update st.received index (st.received index ++ taken.1) }

/-- A cycle of the network, with the packages `entering` from the ports. -/
def step (top : DSNetworkTop) (st : Distribution) (entering : Nat → List DataPackage) :
    Distribution :=
  (List.range (top.nInputPorts * top.msSizePerPort)).foldl top.receive
    { st with trees := top.cycle (top.send entering st.trees) }

def run (top : DSNetworkTop) (cycles : List (Nat → List DataPackage)) : Distribution :=
  cycles.foldl top.step {}

/-! ## One cycle -/

/-- No package is in a tree, and none was overwritten. -/
def Idle (top : DSNetworkTop) (st : Distribution) : Prop :=
  ∀ i, DSNetwork.Holds top.dsnetwork [] 0 0 (st.trees i)

variable {top : DSNetworkTop} {st : Distribution} {k : Nat}

private theorem expected_nil (net : DSNetwork) (w : DSLink) :
    DSNetwork.expected net [] 0 0 w = none := by
  cases w with
  | input => simp [DSNetwork.expected, filled]
  | branch level pos => simp [DSNetwork.expected]

private theorem lastLevelConnection_inj (hSize : top.msSizePerPort = 2 ^ k) {a b : Nat}
    (ha : a < top.msSizePerPort) (hb : b < top.msSizePerPort)
    (h : top.dsnetwork.lastLevelConnection a = top.dsnetwork.lastLevelConnection b) :
    a = b := by
  have hLevels : top.dsnetwork.nlevels = k := by
    rw [DSNetwork.nlevels, dsnetwork, hSize, Nat.log2_two_pow]
  cases k with
  | zero => omega
  | succ level => simpa [DSNetwork.lastLevelConnection, hLevels] using h

/-- The trees carry the packages down. -/
private theorem Idle.cycle_send (h : top.Idle st) (entering : Nat → List DataPackage) {i : Nat}
    (hi : i < top.nInputPorts) :
    DSNetwork.Holds top.dsnetwork (entering i) top.dsnetwork.nlevels 0
      (top.cycle (top.send entering st.trees) i) := by
  have hSend : top.send entering st.trees i = (st.trees i).sendAll .input (entering i) := by
    rw [send, foldl_range_table
      (fun i (conns : Connections DSLink) => conns.sendAll .input (entering i))
      (fun _ _ => rfl), if_pos hi]
  have hCycle : top.cycle (top.send entering st.trees) i =
      top.dsnetwork.cycle (top.send entering st.trees i) := by
    rw [cycle, foldl_range_table (fun _ conns => top.dsnetwork.cycle conns)
      (fun _ _ => rfl), if_pos hi]
  rw [hCycle]
  apply DSNetwork.Holds.cycle
  have hNone : ∀ w, ((st.trees i) w).content = none := fun w =>
    ((h i).content w).trans (expected_nil _ w)
  rw [hSend]
  constructor
  · intro w
    rw [Connections.content_sendAll, hNone]
    cases w with
    | input =>
        by_cases hNil : entering i = []
        · simp [DSNetwork.expected, filled, hNil]
        · simp [DSNetwork.expected, filled, hNil]
    | branch level pos => simp [DSNetwork.expected]
  · intro w
    rw [Connections.overwritten_sendAll, hNone, (h i).overwritten]
    simp

/-- The connection of multiplier `m` in its tree. -/
def ownConnection (top : DSNetworkTop) (st : Distribution) (m : Nat) : Connection :=
  st.trees (m / top.msSizePerPort)
    (top.dsnetwork.lastLevelConnection (m % top.msSizePerPort))

/-- In `st'` the multipliers before `j` have received what `st` has for them. -/
private structure Served (top : DSNetworkTop) (st st' : Distribution) (j : Nat) : Prop where
  received : ∀ m, st'.received m =
    st.received m ++ (if m < j then (top.ownConnection st m).content.getD [] else [])
  content : ∀ i w, (st'.trees i w).content =
    if ∃ a < top.msSizePerPort, i * top.msSizePerPort + a < j ∧
        w = top.dsnetwork.lastLevelConnection a then none
    else (st.trees i w).content
  overwritten : ∀ i w, (st'.trees i w).overwritten = (st.trees i w).overwritten

private theorem Served.receive {st' : Distribution} {j : Nat}
    (hSize : top.msSizePerPort = 2 ^ k) (h : Served top st st' j) :
    Served top st (top.receive st' j) (j + 1) := by
  have hPos : 0 < top.msSizePerPort := by
    rw [hSize]
    exact Nat.two_pow_pos k
  have hLess : j % top.msSizePerPort < top.msSizePerPort := Nat.mod_lt j hPos
  have hSplit : j / top.msSizePerPort * top.msSizePerPort + j % top.msSizePerPort = j := by
    rw [Nat.mul_comm]
    exact Nat.div_add_mod j _
  have hUnread : (top.ownConnection st' j).content = (top.ownConnection st j).content := by
    rw [ownConnection, h.content, if_neg]
    · rfl
    · rintro ⟨a, ha, hBefore, hSame⟩
      have hEq := lastLevelConnection_inj hSize hLess ha hSame
      omega
  constructor
  · intro m
    have hReceived : (top.receive st' j).received =
        Function.update st'.received j
          (st'.received j ++ (top.ownConnection st' j).content.getD []) := by
      simp only [DSNetworkTop.receive, Connections.receive_fst]
      rfl
    rw [hReceived]
    rcases lt_trichotomy m j with hm | rfl | hm
    · rw [Function.update_of_ne (by omega), h.received, if_pos hm, if_pos (by omega)]
    · rw [Function.update_self, h.received, if_neg (by omega), if_pos (by omega),
        List.append_nil, hUnread]
    · rw [Function.update_of_ne (by omega), h.received, if_neg (by omega), if_neg (by omega)]
  · intro i w
    by_cases hi : i = j / top.msSizePerPort
    · have hTree : (top.receive st' j).trees i =
          ((st'.trees i).receive
            (top.dsnetwork.lastLevelConnection (j % top.msSizePerPort))).2 := by
        simp [DSNetworkTop.receive, hi]
      rw [hTree, Connections.content_receive, h.content]
      by_cases hw : w = top.dsnetwork.lastLevelConnection (j % top.msSizePerPort)
      · rw [if_pos hw, if_pos ⟨_, hLess, by rw [hi]; omega, hw⟩]
      · rw [if_neg hw]
        congr 1
        apply propext
        constructor
        · rintro ⟨a, ha, hBefore, hSame⟩
          exact ⟨a, ha, by omega, hSame⟩
        · rintro ⟨a, ha, hBefore, hSame⟩
          refine ⟨a, ha, ?_, hSame⟩
          by_contra hNot
          have hEq : a = j % top.msSizePerPort := by
            rw [hi] at hBefore hNot
            omega
          exact hw (hEq ▸ hSame)
    · have hTree : (top.receive st' j).trees i = st'.trees i := by
        simp [DSNetworkTop.receive, hi]
      rw [hTree, h.content]
      congr 1
      apply propext
      constructor
      · rintro ⟨a, ha, hBefore, hSame⟩
        exact ⟨a, ha, by omega, hSame⟩
      · rintro ⟨a, ha, hBefore, hSame⟩
        refine ⟨a, ha, ?_, hSame⟩
        by_contra hNot
        have hEq : i * top.msSizePerPort + a = j := by omega
        apply hi
        rw [← hEq, Nat.mul_comm, Nat.mul_add_div hPos, Nat.div_eq_of_lt ha, Nat.add_zero]
  · intro i w
    by_cases hi : i = j / top.msSizePerPort
    · have hTree : (top.receive st' j).trees i =
          ((st'.trees i).receive
            (top.dsnetwork.lastLevelConnection (j % top.msSizePerPort))).2 := by
        simp [DSNetworkTop.receive, hi]
      rw [hTree, Connections.overwritten_receive, h.overwritten]
    · have hTree : (top.receive st' j).trees i = st'.trees i := by
        simp [DSNetworkTop.receive, hi]
      rw [hTree, h.overwritten]

private theorem served (hSize : top.msSizePerPort = 2 ^ k) (st : Distribution) (j : Nat) :
    Served top st ((List.range j).foldl top.receive st) j := by
  induction j with
  | zero => exact ⟨by simp, by simp, by simp⟩
  | succ j ih =>
      rw [List.range_succ, List.foldl_append]
      exact ih.receive hSize

private theorem lastLevelConnection_content {net : DSNetwork} {entered : List DataPackage}
    {conns : Connections DSLink} (hSize : net.msSize = 2 ^ k)
    (h : DSNetwork.Holds net entered net.nlevels 0 conns) {a : Nat} (ha : a < net.msSize) :
    (conns (net.lastLevelConnection a)).content =
      filled (DSNetwork.carried net entered k a) := by
  have hLevels : net.nlevels = k := by
    rw [DSNetwork.nlevels, hSize, Nat.log2_two_pow]
  rw [h.content]
  cases k with
  | zero => simp [DSNetwork.lastLevelConnection, DSNetwork.expected, DSNetwork.carried, hLevels]
  | succ level =>
      rw [hSize] at ha
      simp [DSNetwork.lastLevelConnection, DSNetwork.expected, hLevels, ha]

private theorem expected_of_not_last {net : DSNetwork} {entered : List DataPackage}
    (hSize : net.msSize = 2 ^ k) {w : DSLink}
    (hw : ∀ a < net.msSize, w ≠ net.lastLevelConnection a) :
    DSNetwork.expected net entered net.nlevels 0 w = none := by
  have hLevels : net.nlevels = k := by
    rw [DSNetwork.nlevels, hSize, Nat.log2_two_pow]
  rw [hSize] at hw
  cases w with
  | input =>
      cases k with
      | zero =>
          have hFirst := hw 0 (Nat.two_pow_pos 0)
          simp [DSNetwork.lastLevelConnection, hLevels] at hFirst
      | succ level => simp [DSNetwork.expected, hLevels]
  | branch level pos =>
      rw [DSNetwork.expected, if_neg]
      rintro (⟨hLevel, -, hPos⟩ | ⟨-, hPos⟩)
      · rw [hLevels] at hLevel hPos
        have hOwn := hw pos hPos
        simp [DSNetwork.lastLevelConnection, hLevels, ← hLevel] at hOwn
      · omega

/-- After a cycle the trees are empty again. -/
theorem Idle.step (hSize : top.msSizePerPort = 2 ^ k) (h : top.Idle st)
    (entering : Nat → List DataPackage) : top.Idle (top.step st entering) := by
  have hServed := served hSize { st with trees := top.cycle (top.send entering st.trees) }
    (top.nInputPorts * top.msSizePerPort)
  intro i
  rcases lt_or_ge i top.nInputPorts with hi | hi
  · have hHolds := h.cycle_send entering hi
    constructor
    · intro w
      rw [DSNetworkTop.step, hServed.content, expected_nil]
      split
      · rfl
      · rename_i hOther
        refine (hHolds.content w).trans (expected_of_not_last hSize fun a ha hOwn => ?_)
        refine hOther ⟨a, ha, ?_, hOwn⟩
        calc i * top.msSizePerPort + a < i * top.msSizePerPort + top.msSizePerPort :=
            Nat.add_lt_add_left ha _
          _ = (i + 1) * top.msSizePerPort := (Nat.succ_mul _ _).symm
          _ ≤ top.nInputPorts * top.msSizePerPort := Nat.mul_le_mul_right _ hi
    · intro w
      rw [DSNetworkTop.step, hServed.overwritten]
      exact hHolds.overwritten w
  · have hSame : top.cycle (top.send entering st.trees) i = st.trees i := by
      rw [cycle, foldl_range_table (fun _ conns => top.dsnetwork.cycle conns)
        (fun _ _ => rfl), if_neg (by omega), send, foldl_range_table
        (fun i (conns : Connections DSLink) => conns.sendAll .input (entering i))
        (fun _ _ => rfl), if_neg (by omega)]
    constructor
    · intro w
      rw [DSNetworkTop.step, hServed.content, expected_nil]
      split
      · rfl
      · simp only [hSame]
        rw [(h i).content, expected_nil]
    · intro w
      rw [DSNetworkTop.step, hServed.overwritten]
      simp only [hSame]
      exact (h i).overwritten w

/-- A cycle brings multiplier `m` what the switches let through to it. -/
theorem Idle.step_received (hSize : top.msSizePerPort = 2 ^ k) (h : top.Idle st)
    (entering : Nat → List DataPackage) {m : Nat}
    (hm : m < top.nInputPorts * top.msSizePerPort) :
    (top.step st entering).received m = st.received m ++
      DSNetwork.carried top.dsnetwork (entering (m / top.msSizePerPort)) k
        (m % top.msSizePerPort) := by
  have hPos : 0 < top.msSizePerPort := by
    rw [hSize]
    exact Nat.two_pow_pos k
  have hServed := served hSize { st with trees := top.cycle (top.send entering st.trees) }
    (top.nInputPorts * top.msSizePerPort)
  have hPort : m / top.msSizePerPort < top.nInputPorts := by
    rw [Nat.div_lt_iff_lt_mul hPos]
    exact hm
  have hLast := @lastLevelConnection_content k top.dsnetwork _ _ hSize
    (h.cycle_send entering hPort) (m % top.msSizePerPort) (Nat.mod_lt m hPos)
  rw [DSNetworkTop.step, hServed.received, if_pos hm]
  congr 1
  rw [← filled_getD (DSNetwork.carried _ _ _ _), ← hLast]
  rfl

theorem init_idle (top : DSNetworkTop) : top.Idle {} := by
  intro i
  constructor
  · intro w
    rw [expected_nil]
    rfl
  · intro w
    rfl

/-- Over a whole run the switches let the packages of a port through one cycle after the
other. -/
theorem run_received (hSize : top.msSizePerPort = 2 ^ k)
    (cycles : List (Nat → List DataPackage)) {m : Nat}
    (hm : m < top.nInputPorts * top.msSizePerPort) :
    (top.run cycles).received m = cycles.flatMap fun entering =>
      DSNetwork.carried top.dsnetwork (entering (m / top.msSizePerPort)) k
        (m % top.msSizePerPort) := by
  have hRun : ∀ (st : Distribution), top.Idle st →
      (cycles.foldl top.step st).received m = st.received m ++ cycles.flatMap fun entering =>
        DSNetwork.carried top.dsnetwork (entering (m / top.msSizePerPort)) k
          (m % top.msSizePerPort) := by
    induction cycles with
    | nil => simp
    | cons entering cycles ih =>
        intro st hIdle
        rw [List.foldl_cons, ih _ (hIdle.step hSize entering),
          hIdle.step_received hSize entering hm, List.flatMap_cons, List.append_assoc]
  rw [run, hRun {} top.init_idle]
  rfl

end DSNetworkTop

/-! ## Exact distribution -/

/-- `2 ^ P` ports in front of `2 ^ L` multipliers. -/
def ReadPorts.powers (L P : Nat) : ReadPorts where
  nReadPorts := 2 ^ P
  msSizePerInputPort := 2 ^ L / 2 ^ P

def DSNetworkTop.powers (L P : Nat) : DSNetworkTop where
  nInputPorts := 2 ^ P
  msSizePerPort := 2 ^ L / 2 ^ P

/-- The ports after one package was split over their fifos. -/
def splitPackage (L P : Nat) (pck : DataPackage) : Nat → ReadPort :=
  SDMemory.sendPackageToInputFifos (.powers L P) (fun _ => {}) pck

/-- One package is split and every port sends its part. -/
def distribute (L P : Nat) (pck : DataPackage) : Distribution :=
  (DSNetworkTop.powers L P).run [fun port => (splitPackage L P pck port).next.2]

/-- Every multiplier gets what is for it and nothing else, in the order of entry. -/
structure ExactDistribution (L P : Nat) : Prop where
  exact : ∀ pck : DataPackage, pck.WellAddressed (2 ^ L) → ∀ m < 2 ^ L,
    ((distribute L P pck).received m).map (fun copy => (copy.data, copy.dataType)) =
      if pck.addresses m then [(pck.data, pck.dataType)] else []
  inOrder : ∀ cycles : List (Nat → List DataPackage),
    (∀ entering ∈ cycles, ∀ port, ∀ copy ∈ entering port,
      ∃ pck : DataPackage, pck.WellAddressed (2 ^ L) ∧
        copy ∈ (splitPackage L P pck port).next.2) →
    ∀ m < 2 ^ L, ((DSNetworkTop.powers L P).run cycles).received m =
      (cycles.flatMap fun entering => entering (m / (2 ^ L / 2 ^ P))).filter
        (·.addresses (m % (2 ^ L / 2 ^ P)))

section

variable {L P : Nat}

private theorem portSize (h : P ≤ L) : 2 ^ L / 2 ^ P = 2 ^ (L - P) :=
  Nat.pow_div h (by omega)

private theorem ports_mul_portSize (h : P ≤ L) : 2 ^ P * (2 ^ L / 2 ^ P) = 2 ^ L := by
  rw [portSize h, ← pow_add, Nat.add_sub_cancel' h]

/-- A port sends all it got of one package. -/
private theorem next_splitPackage (pck : DataPackage) {port : Nat} (hPort : port < 2 ^ P) :
    (splitPackage L P pck port).next.2 = SDMemory.portPackages (.powers L P) pck port := by
  rw [splitPackage, SDMemory.sendPackageToInputFifos_apply _ _ _ hPort]
  have hOne : ∀ copy : DataPackage,
      (ReadPort.pushAll {} [copy]).next.2 = [copy] := by
    intro copy
    by_cases hPsum : copy.dataType = .psum
    · simp [ReadPort.pushAll, ReadPort.next, hPsum]
    · simp [ReadPort.pushAll, ReadPort.next, hPsum]
  cases hTraffic : pck.traffic with
  | broadcast => simp only [SDMemory.portPackages, hTraffic, hOne]
  | unicast dest =>
      simp only [SDMemory.portPackages, hTraffic]
      split
      · exact hOne _
      · rfl
  | multicast dest =>
      simp only [SDMemory.portPackages, hTraffic]
      split
      · exact hOne _
      · rfl

private theorem hits_one {pck : DataPackage} {m : Nat} :
    pck.hits (m * 2 ^ 0) ((m + 1) * 2 ^ 0) = pck.addresses m := by
  cases hTraffic : pck.traffic with
  | broadcast => simp [DataPackage.hits, DataPackage.addresses, hTraffic]
  | unicast dest =>
      simp only [DataPackage.hits, DataPackage.addresses, hTraffic, pow_zero, mul_one]
      congr 1
      apply propext
      omega
  | multicast dest =>
      rw [Bool.eq_iff_iff]
      simp only [DataPackage.hits, DataPackage.addresses, hTraffic, pow_zero, mul_one,
        DSwitch.anyDest_iff]
      constructor
      · rintro ⟨i, hLow, hHigh, hDest⟩
        have hEq : i = m := by omega
        exact hEq ▸ hDest
      · intro hDest
        exact ⟨m, le_rfl, by omega, hDest⟩

/-- Small trees bring a multiplier exactly its packages. -/
private theorem carried_leaf (h : P ≤ L) (hSmall : 2 ^ L / 2 ^ P ≤ 2 ^ 23) (port : Nat) {m : Nat}
    {entered : List DataPackage}
    (hEntered : ∀ copy ∈ entered, ∃ pck, copy ∈ SDMemory.portPackages (.powers L P) pck port)
    (hm : m < 2 ^ L / 2 ^ P) :
    DSNetwork.carried (DSNetworkTop.powers L P).dsnetwork entered (L - P) m =
      entered.filter (·.addresses m) := by
  have hExp : L - P ≤ 23 := by
    rw [portSize h] at hSmall
    exact (Nat.pow_le_pow_iff_right (by omega)).mp hSmall
  have hHits : ∀ copy ∈ entered, copy.hits 0 (2 ^ (L - P)) = true := by
    intro copy hMem
    obtain ⟨pck, hSplit⟩ := hEntered copy hMem
    rw [← portSize h]
    have hPos : 0 < 2 ^ L / 2 ^ P := Nat.zero_lt_of_lt hm
    exact SDMemory.hits_of_mem_portPackages hPos hSplit
  have hSize : (DSNetworkTop.powers L P).dsnetwork.msSize = 2 ^ (L - P) := portSize h
  rw [DSNetwork.carried_eq hSize hExp hHits le_rfl (by rwa [← portSize h])]
  apply List.filter_congr
  intro copy _
  rw [Nat.sub_self, hits_one]

/-- In a larger tree the middle of the last switch over `2 ^ 23` and `2 ^ 23 + 1` is
rounded to `2 ^ 23`. -/
private theorem routesLeft_rounded {s : DSwitch} (hFirst : s.firstMsToRoute = 2 ^ 23)
    (hCount : s.nMsToRoute = 2) {pck : DataPackage} (hTraffic : pck.traffic = .unicast (2 ^ 23)) :
    s.routesLeft pck = false := by
  have hHalf : s.halfMsToRoute = 2 ^ 23 := by
    rw [DSwitch.halfMsToRoute, hFirst, hCount, Binary32.round_of_log (e := 23)]
    · norm_num [Binary32.roundEven]
    · norm_num
    · norm_num
  have hDest := Binary32.round_natCast (n := 2 ^ 23) (by norm_num)
  simp only [DSwitch.routesLeft, hTraffic, hHalf, hDest]
  norm_num

/-- No package for it comes to multiplier `2 ^ 23` of a larger tree. -/
private theorem carried_rounded {net : DSNetwork} {d : Nat} (hSize : net.msSize = 2 ^ (d + 1))
    {entered : List DataPackage}
    (hEntered : ∀ pck ∈ entered, pck.traffic = .unicast (2 ^ 23)) :
    DSNetwork.carried net entered (d + 1) (2 ^ 23) = [] := by
  have hSubset : ∀ i p, ∀ pck ∈ DSNetwork.carried net entered i p, pck ∈ entered := by
    intro i
    induction i with
    | zero => exact fun p pck hMem => hMem
    | succ i ih => exact fun p pck hMem => ih _ pck (List.mem_filter.mp hMem).1
  have hCount : DSwitch.nMsToRoute ⟨d, 2 ^ 23 / 2, net.msSize⟩ = 2 := by
    simp only [DSwitch.nMsToRoute, hSize, Nat.shiftRight_eq_div_pow]
    rw [Nat.pow_div (by omega) (by omega), Nat.add_sub_cancel_left, pow_one]
  have hFirst : DSwitch.firstMsToRoute ⟨d, 2 ^ 23 / 2, net.msSize⟩ = 2 ^ 23 := by
    rw [DSwitch.firstMsToRoute, hCount]
    norm_num
  rw [DSNetwork.carried, if_pos (by norm_num), List.filter_eq_nil_iff]
  intro pck hMem
  have hRouted := routesLeft_rounded hFirst hCount (hEntered pck (hSubset _ _ pck hMem))
  exact Bool.eq_false_iff.mp hRouted

private theorem exactDistribution_of_le (h : P ≤ L) (hSmall : 2 ^ L / 2 ^ P ≤ 2 ^ 23) :
    ExactDistribution L P := by
  have hSize : (DSNetworkTop.powers L P).msSizePerPort = 2 ^ (L - P) := portSize h
  have hPos : 0 < 2 ^ L / 2 ^ P := by
    rw [portSize h]
    exact Nat.two_pow_pos _
  have hPort : ∀ {m}, m < 2 ^ L → m / (2 ^ L / 2 ^ P) < 2 ^ P := by
    intro m hm
    rw [Nat.div_lt_iff_lt_mul hPos, ports_mul_portSize h]
    exact hm
  have hRun : ∀ cycles : List (Nat → List DataPackage), ∀ m < 2 ^ L,
      ((DSNetworkTop.powers L P).run cycles).received m = cycles.flatMap fun entering =>
        DSNetwork.carried (DSNetworkTop.powers L P).dsnetwork
          (entering (m / (2 ^ L / 2 ^ P))) (L - P) (m % (2 ^ L / 2 ^ P)) := by
    intro cycles m hm
    exact DSNetworkTop.run_received hSize cycles ((ports_mul_portSize h).symm ▸ hm)
  constructor
  · intro pck hPck m hm
    have hLocal := Nat.mod_lt m hPos
    have hSplit : m / (2 ^ L / 2 ^ P) * (2 ^ L / 2 ^ P) + m % (2 ^ L / 2 ^ P) = m := by
      rw [Nat.mul_comm]
      exact Nat.div_add_mod m _
    have hOwn := SDMemory.map_filter_portPackages (.powers L P) pck (m / (2 ^ L / 2 ^ P)) hLocal
    have hSent := @next_splitPackage L P pck _ (hPort hm)
    rw [distribute, hRun _ m hm, List.flatMap_singleton]
    simp only [hSent]
    rw [carried_leaf h hSmall _ (fun copy hMem => ⟨pck, hMem⟩) hLocal, hOwn]
    simp only [ReadPorts.powers, hSplit]
  · intro cycles hCycles m hm
    rw [hRun cycles m hm, List.filter_flatMap]
    apply List.flatMap_congr
    intro entering hMem
    refine carried_leaf h hSmall (m / (2 ^ L / 2 ^ P)) (fun copy hCopy => ?_) (Nat.mod_lt m hPos)
    obtain ⟨pck, -, hSent⟩ := hCycles entering hMem _ copy hCopy
    exact ⟨pck, next_splitPackage pck (hPort hm) ▸ hSent⟩

private theorem le_of_exactDistribution (h : P ≤ L) (hExact : ExactDistribution L P) :
    2 ^ L / 2 ^ P ≤ 2 ^ 23 := by
  by_contra hLarge
  have hExp : 24 ≤ L - P := by
    rw [portSize h, not_le] at hLarge
    exact (Nat.pow_lt_pow_iff_right (by omega)).mp hLarge
  obtain ⟨d, hd⟩ : ∃ d, L - P = d + 1 := ⟨L - P - 1, by omega⟩
  have hSize : (DSNetworkTop.powers L P).msSizePerPort = 2 ^ (d + 1) := by
    rw [← hd]
    exact portSize h
  have hLocal : 2 ^ 23 < 2 ^ (d + 1) := Nat.pow_lt_pow_right (by omega) (by omega)
  have hDest : 2 ^ 23 < 2 ^ L := Nat.pow_lt_pow_right (by omega) (by omega)
  have hFits : 2 ^ 23 < (DSNetworkTop.powers L P).msSizePerPort := hSize ▸ hLocal
  let pck : DataPackage := { data := 0, dataType := .weight, traffic := .unicast (2 ^ 23) }
  have hOne := hExact.exact pck (by
    intro dest hTraffic
    obtain rfl : 2 ^ 23 = dest := by simpa [pck] using hTraffic
    exact hDest) (2 ^ 23) hDest
  have hAddressed : pck.addresses (2 ^ 23) = true := by simp [pck, DataPackage.addresses]
  have hPort : 2 ^ 23 / (DSNetworkTop.powers L P).msSizePerPort = 0 := Nat.div_eq_of_lt hFits
  have hOwn : 2 ^ 23 % (DSNetworkTop.powers L P).msSizePerPort = 2 ^ 23 := Nat.mod_eq_of_lt hFits
  have hSent : ∀ copy ∈ (splitPackage L P pck 0).next.2, copy.traffic = .unicast (2 ^ 23) := by
    intro copy hMem
    rw [next_splitPackage pck (Nat.two_pow_pos P)] at hMem
    have hFirst : 2 ^ 23 / (ReadPorts.powers L P).msSizePerInputPort = 0 := hPort
    have hLast : 2 ^ 23 % (ReadPorts.powers L P).msSizePerInputPort = 2 ^ 23 := hOwn
    simp only [SDMemory.portPackages, pck, hFirst, hLast, if_true, List.mem_singleton] at hMem
    rw [hMem]
    rfl
  rw [if_pos hAddressed, distribute, DSNetworkTop.run_received hSize _ (by
    rw [DSNetworkTop.powers, ports_mul_portSize h]
    exact hDest), List.flatMap_singleton, hPort, hOwn] at hOne
  have hNone := @carried_rounded (DSNetworkTop.powers L P).dsnetwork d hSize _ hSent
  simp only [hNone, List.map_nil] at hOne
  cases hOne

/-- A distribution network over `2 ^ L` multipliers and `2 ^ P` ports is exact if and only
if no port has more than `2 ^ 23` multipliers. -/
theorem exactDistribution_iff {L P : Nat} (h : P ≤ L) :
    ExactDistribution L P ↔ 2 ^ L / 2 ^ P ≤ 2 ^ 23 :=
  ⟨le_of_exactDistribution h, exactDistribution_of_le h⟩

/-- Sixteen multipliers on four ports. -/
theorem exactDistribution_iff_sixteen : ExactDistribution 4 2 ↔ 2 ^ 4 / 2 ^ 2 ≤ 2 ^ 23 :=
  exactDistribution_iff (by decide)

/-- One port in front of `2 ^ 24` multipliers. -/
theorem not_exactDistribution_one_port : ¬ExactDistribution 24 0 := fun hExact =>
  absurd (le_of_exactDistribution (Nat.zero_le 24) hExact) (by norm_num)

end

end Stonne
