import Stonne.Reduction.Contracts

/-!
# Runs of the reduction tree

In every cycle the components behind the tree take what stands on their connections, the adders
have their cycle, and the multipliers send their products.  A multiplier may send none, one or
several at a time: `delivered t m` is how many the multiplier `m` has sent before cycle `t`.
-/

namespace Stonne

open Dataflow LevelState

/-- A connection that leaves the tree. -/
def ReduceWire.isOutlet : ReduceWire → Bool
  | .memory _ _ => true
  | .output => true
  | _ => false

/-- The tree with what has been taken from its outlets. -/
structure TreeState where
  switches : SwitchId → ASwitch := fun _ => {}
  conns : Connections ReduceWire := Connections.idle
  emitted : ReduceWire → List DataPackage := fun _ => []

namespace TreeState

/-- The outlets are read. -/
def drain (conns : Connections ReduceWire) : Connections ReduceWire :=
  ⟨fun w => if w.isOutlet && (conns w).existPendingData then (conns w).receive.2 else conns w⟩

/-- The packages of the multipliers, by the connection on which they are sent. -/
def arrivals (nlevels : Nat) (products : Nat → List DataPackage) :
    ReduceWire → List DataPackage
  | .input l m => if l + 1 = nlevels then products m else []
  | _ => []

/-- The multipliers send. -/
def deliver (conns : Connections ReduceWire) (new : ReduceWire → List DataPackage) :
    Connections ReduceWire :=
  ⟨fun w => if (new w).isEmpty then conns w else (conns w).send (new w)⟩

def cycle (net : ASNetwork) (products : Nat → List DataPackage) (st : TreeState) : TreeState :=
  let stepped := net.cycle (st.switches, drain st.conns)
  { switches := stepped.1
    conns := deliver stepped.2 (arrivals net.nlevels products)
    emitted := fun w =>
      if w.isOutlet then st.emitted w ++ (st.conns w).receive.1 else st.emitted w }

end TreeState

/-- How many products the multipliers have sent before each cycle. -/
structure Deliveries (used : Nat) where
  delivered : Nat → Nat → Nat
  start : ∀ m, delivered 0 m = 0
  mono : ∀ t m, delivered t m ≤ delivered (t + 1) m
  unused : ∀ t m, used ≤ m → delivered t m = 0

/-- Every multiplier in use sends one product in a cycle. -/
def Deliveries.steady (used : Nat) : Deliveries used where
  delivered t m := if m < used then t else 0
  start _ := ite_self 0
  mono t m := by split <;> omega
  unused _ _ hm := if_neg (Nat.not_lt_of_le hm)

/-- The products of a cycle: those of the waves that the multiplier has now finished. -/
def Deliveries.products {used : Nat} (d : Deliveries used) (vnOf : Nat → Nat)
    (x : Nat → Nat → Int) (t m : Nat) : List DataPackage :=
  seg (fun w => psumPackage (vnOf m) (x m w)) (d.delivered t m) (d.delivered (t + 1) m)

/-- The state before cycle `t`. -/
def TreeState.run (net : ASNetwork) (products : Nat → Nat → List DataPackage) : Nat → TreeState
  | 0 => {}
  | t + 1 => (TreeState.run net products t).cycle net (products t)

namespace TreeState

section

variable {conns : Connections ReduceWire} {new : ReduceWire → List DataPackage}

theorem store_drain : (drain conns).store = conns.store.take ReduceWire.isOutlet := by
  refine Store.ext (funext fun w => ?_) (funext fun w => ?_)
  · simp only [Connections.store, Store.take, drain]
    cases hOutlet : w.isOutlet with
    | false => rfl
    | true =>
        rw [Bool.true_and, Connection.existPendingData_eq]
        cases hContent : (conns w).content with
        | none => exact hContent
        | some data => exact Connection.content_receive _
  · simp only [Connections.store, Store.take, drain]
    split
    · exact Connection.overwritten_receive _
    · rfl

theorem store_deliver : (deliver conns new).store = conns.store.supply new := by
  refine Store.ext (funext fun w => ?_) (funext fun w => ?_)
  · simp only [Connections.store, Store.supply, deliver]
    cases hNew : new w with
    | nil => rfl
    | cons pck rest => exact Connection.content_send _ _
  · simp only [Connections.store, Store.supply, deliver]
    cases hNew : new w with
    | nil => simp
    | cons pck rest =>
        simp only [List.isEmpty_cons, Bool.false_eq_true, if_false, ne_eq, reduceCtorEq,
          not_false_eq_true, true_and, Bool.decide_eq_true]
        exact Connection.overwritten_send _ _

end

/-- A state of the tree as a network. -/
def net (st : TreeState) : Net SwitchId ReduceWire ASwitch DataPackage :=
  toNet (st.switches, st.conns)

/-- A cycle is a round of the network. -/
theorem net_cycle {net : ASNetwork} (hPaired : net.Paired) (products : Nat → List DataPackage)
    (st : TreeState) : (st.cycle net products).net =
      st.net.round net.wiring net.program net.cycleOrder ReduceWire.isOutlet
        (arrivals net.nlevels products) := by
  have hCycle := ASNetwork.cycle_eq_step hPaired (st.switches, drain st.conns)
  have hDrained : toNet (st.switches, drain st.conns) = st.net.take ReduceWire.isOutlet := by
    rw [toNet, store_drain]
    rfl
  rw [hDrained] at hCycle
  rw [Net.round, ← hCycle, TreeState.net, cycle, toNet, store_deliver]
  rfl

/-- The histories of the connections before cycle `t`. -/
def history (net : ASNetwork) (products : Nat → Nat → List DataPackage) :
    Nat → History ReduceWire DataPackage
  | 0 => ⟨fun _ => [], fun _ => []⟩
  | t + 1 => (history net products t).round net.wiring net.program net.cycleOrder
      ReduceWire.isOutlet (arrivals net.nlevels (products t)) (run net products t).net

end TreeState

namespace Layout

variable {L : Nat}

/-- What holds of a run before every cycle. -/
structure RunState (layout : Layout L) (net : ASNetwork) (x : Nat → Nat → Int)
    (fed : Nat → List DataPackage) (st : TreeState) (h : History ReduceWire DataPackage) :
    Prop where
  keeps : Keeps net.cycleOrder (layout.Rel net x) (layout.Sound x) Fits st.net h
  emitted : ∀ w, w.isOutlet = true → h.received w = st.emitted w
  inside : ∀ w, w.isOutlet = false → st.emitted w = []
  sent : ∀ m < layout.shift layout.numVNs, h.sent (.input (L - 1) m) = fed m
  kept : ∀ w, (st.conns w).overwritten = false
  others : ∀ id ∉ net.cycleOrder, st.switches id = {}

section

variable {layout : Layout L} {net : ASNetwork} {x : Nat → Nat → Int} {k l p v : Nat}

theorem mem_order (hNet : layout.Configured net) (hL : 0 < L) {id : SwitchId} :
    id ∈ net.cycleOrder ↔ id.1 < L ∧ id.2 < 2 ^ id.1 := by
  rw [ASNetwork.mem_cycleOrder (paired_of_configured hNet) (by rw [hNet.1]; exact hL),
    ASNetwork.IsAdder, hNet.1]

theorem mem_ins_half (l c : Nat) : ReduceWire.input l c ∈ net.wiring.ins (l, c / 2) := by
  rw [ASNetwork.mem_ins]
  rcases Nat.mod_two_eq_zero_or_one c with hEven | hOdd
  · exact .inl (by congr 1; omega)
  · exact .inr (.inl (by congr 1; omega))

/-- Every connection inside the tree is read in every cycle. -/
theorem closed (hNet : layout.Configured net) (hL : 0 < L) {id : SwitchId}
    (hId : id ∈ net.cycleOrder) {w : ReduceWire} (hw : w ∈ net.wiring.outs id) :
    Drained net.wiring net.cycleOrder w ∨ w.isOutlet = true := by
  obtain ⟨l, p⟩ := id
  obtain ⟨hl, hp⟩ := (mem_order hNet hL).mp hId
  simp only at hl hp
  rcases ASNetwork.mem_outs.mp hw with rfl | ⟨hSends, rfl⟩
  · rcases ASNetwork.out_cases l p (net.config (l, p)) with hOut | ⟨-, hOut⟩ | ⟨hPos, hOut⟩
    · rw [hOut]
      exact .inr rfl
    · rw [hOut]
      exact .inr rfl
    · rw [hOut]
      obtain ⟨j, rfl⟩ := Nat.exists_eq_succ_of_ne_zero hPos.ne'
      refine .inl ⟨(j, p / 2), (mem_order hNet hL).mpr ⟨by simp only; omega, ?_⟩,
        mem_ins_half j p⟩
      rw [Nat.succ_eq_add_one, pow_succ] at hp
      simp only
      omega
  · -- the neighbour receives
    have hLevel : L - (L - l - 1) - 1 = l := by omega
    have hWants := (sends_iff hNet (k := L - l - 1) (by omega) p).mp (by rwa [hLevel])
    obtain ⟨hPos, -⟩ := wants_inside (k := L - l - 1) (by omega) (.inl hWants)
    have hOther := (layout.wants_partner _ hPos).1.mp hWants
    have hReceives := (receives_iff hNet (k := L - l - 1) (by omega) (partner p)).mpr hOther
    have hInside := (wants_inside (k := L - l - 1) (by omega) (.inr hOther)).2
    rw [hLevel] at hReceives hInside
    refine .inl ⟨(l, partner p), (mem_order hNet hL).mpr ⟨hl, by simp only; omega⟩, ?_⟩
    rw [ASNetwork.mem_ins, pairRight_partner hPos]
    exact .inr (.inr ⟨hReceives, rfl⟩)

/-- The connections of the multipliers that are used. -/
def Inlet (layout : Layout L) (w : ReduceWire) : Prop :=
  ∃ m < layout.shift layout.numVNs, w = .input (L - 1) m

/-- The tree takes products from the multipliers and sends sums to memory. -/
theorem border (hNet : layout.Configured net) (hL : 0 < L) :
    Border net.wiring net.cycleOrder ReduceWire.isOutlet layout.Inlet where
  unread := by
    rintro ⟨l, p⟩ - w hw
    rcases ASNetwork.mem_ins.mp hw with rfl | rfl | ⟨-, rfl⟩ <;> rfl
  closed _ hId _ hw := closed hNet hL hId hw
  read := by
    rintro w ⟨m, hUsed, rfl⟩
    have hFits : m < 2 ^ L := hUsed.trans_le layout.fits
    have hDouble : 2 ^ L = 2 * 2 ^ (L - 1) := by
      rw [← pow_succ', Nat.sub_add_cancel hL]
    refine ⟨(L - 1, m / 2), (mem_order hNet hL).mpr ⟨by simp only; omega, ?_⟩,
      mem_ins_half (L - 1) m⟩
    simp only
    omega
  unwritten := by
    rintro w ⟨m, -, rfl⟩ ⟨l, p⟩ hId hw
    have hl := ((mem_order hNet hL).mp hId).1
    rcases ASNetwork.mem_outs.mp hw with hOut | ⟨-, hOut⟩
    · rcases ASNetwork.out_cases l p (net.config (l, p)) with hCase | ⟨-, hCase⟩ | ⟨hPos, hCase⟩
      · rw [hCase] at hOut
        cases hOut
      · rw [hCase] at hOut
        cases hOut
      · rw [hCase, ReduceWire.input.injEq] at hOut
        simp only at hl
        omega
    · cases hOut

/-- What the multiplier `m` has sent before cycle `t`. -/
def fed (d : Deliveries (layout.shift layout.numVNs)) (vnOf : Nat → Nat) (x : Nat → Nat → Int)
    (t m : Nat) : List DataPackage :=
  seg (fun w => psumPackage (vnOf m) (x m w)) 0 (d.delivered t m)

/-- Products come from multipliers in use only. -/
theorem inlet_of_arrivals (hNet : layout.Configured net) (hL : 0 < L)
    (d : Deliveries (layout.shift layout.numVNs)) {vnOf : Nat → Nat} {t : Nat} {w : ReduceWire}
    (hw : TreeState.arrivals net.nlevels (d.products vnOf x t) w ≠ []) : layout.Inlet w := by
  rcases w with ⟨l, m⟩ | ⟨l, j⟩ | ⟨l, j⟩ | _
  · rw [TreeState.arrivals, hNet.1] at hw
    split at hw
    · refine ⟨m, ?_, by congr 1; omega⟩
      by_contra hOver
      refine hw ?_
      rw [Deliveries.products, d.unused t m (Nat.le_of_not_lt hOver),
        d.unused (t + 1) m (Nat.le_of_not_lt hOver), seg_self]
    · exact absurd rfl hw
  · exact absurd rfl hw
  · exact absurd rfl hw
  · exact absurd rfl hw

theorem fed_succ (hNet : layout.Configured net) (hL : 0 < L)
    (d : Deliveries (layout.shift layout.numVNs)) (vnOf : Nat → Nat) (t m : Nat) :
    fed d vnOf x t m ++
        TreeState.arrivals net.nlevels (d.products vnOf x t) (.input (L - 1) m) =
      fed d vnOf x (t + 1) m := by
  rw [TreeState.arrivals, hNet.1, if_pos (Nat.sub_add_cancel hL), fed, Deliveries.products,
    seg_append _ (Nat.zero_le _) (d.mono t m), fed]

/-- The products of the multipliers are those that the adders expect. -/
theorem carries_fed (d : Deliveries (layout.shift layout.numVNs)) {vnOf : Nat → Nat}
    (hVn : ∀ v < layout.numVNs, ∀ m, layout.Covers v 0 m → vnOf m = v) (t : Nat) {m : Nat}
    (hm : m < layout.shift layout.numVNs) : layout.Carries x 0 m (fed d vnOf x t m) where
  covered v hv _ hCovers := by
    have hSame : (fun w => psumPackage (vnOf m) (x m w)) = layout.carried x v 0 m := by
      funext w
      rw [hVn v hv m hCovers]
      rfl
    rw [fed, hSame, length_seg, Nat.sub_zero]
  empty hNone := by
    obtain ⟨v, hv, hCovers⟩ := exists_covers (Nat.le_refl _) hm
    exact absurd hCovers (hNone v hv (.inl rfl))

theorem RunState.start (hNet : layout.Configured net) (hL : 0 < L)
    (d : Deliveries (layout.shift layout.numVNs)) (vnOf : Nat → Nat)
    (products : Nat → Nat → List DataPackage) :
    layout.RunState net x (fed d vnOf x 0) (TreeState.run net products 0)
      (TreeState.history net products 0) where
  keeps := by
    refine ⟨fun _ => rfl, fun id _ => ?_, fun w => ?_, (contract hNet hL x).nothing⟩
    · have hFlow : net.flowOf (TreeState.history net products 0) id = {} := by
        simp only [ASNetwork.flowOf, TreeState.history, ite_self]
      rw [Rel, hFlow]
      exact AdderState.start
    · rcases w with - | - | - | -
      · exact Carries.nothing
      · exact fun _ _ _ _ _ _ => rfl
      · exact ⟨fun _ => rfl, fun _ hPck => absurd hPck List.not_mem_nil, fun _ _ _ _ => rfl⟩
      · rfl
  emitted _ _ := rfl
  inside _ _ := rfl
  sent m _ := by
    rw [fed, d.start m, seg_self]
    rfl
  kept _ := rfl
  others _ _ := rfl

theorem RunState.step (hNet : layout.Configured net) (hL : 0 < L)
    (d : Deliveries (layout.shift layout.numVNs)) {vnOf : Nat → Nat}
    (hVn : ∀ v < layout.numVNs, ∀ m, layout.Covers v 0 m → vnOf m = v) {t : Nat}
    {st : TreeState} {h : History ReduceWire DataPackage}
    (hState : layout.RunState net x (fed d vnOf x t) st h) :
    layout.RunState net x (fed d vnOf x (t + 1)) (st.cycle net (d.products vnOf x t))
      (h.round net.wiring net.program net.cycleOrder ReduceWire.isOutlet
        (TreeState.arrivals net.nlevels (d.products vnOf x t)) st.net) := by
  have hPaired := paired_of_configured hNet
  have hOrder := ASNetwork.readersFirst hPaired
  have hBorder := border hNet hL
  have hInlet : ∀ w, TreeState.arrivals net.nlevels (d.products vnOf x t) w ≠ [] →
      layout.Inlet w := fun _ hw => inlet_of_arrivals hNet hL d hw
  have hNext := TreeState.net_cycle hPaired (d.products vnOf x t) st
  refine ⟨?_, fun w hOutlet => ?_, fun w hInner => ?_, fun m hm => ?_, fun w => ?_,
    fun id hId => ?_⟩
  · rw [hNext]
    refine hState.keeps.round (contract hNet hL x) hOrder hBorder hInlet ?_ ?_
    · rintro w ⟨m, hm, rfl⟩
      rw [hState.sent m hm, fed_succ hNet hL, Sound, show L - (L - 1) - 1 = 0 by omega]
      exact carries_fed d hVn (t + 1) hm
    · rintro w ⟨m, -, rfl⟩
      trivial
  · rw [hState.keeps.round_taken hBorder hOutlet, hState.keeps.queued w, hState.emitted w hOutlet]
    simp only [TreeState.cycle, if_pos hOutlet, Connection.receive_fst]
    rfl
  · simp only [TreeState.cycle, hInner, Bool.false_eq_true, if_false]
    exact hState.inside w hInner
  · rw [hBorder.round_supplied ⟨m, hm, rfl⟩, hState.sent m hm, fed_succ hNet hL]
  · have hClobbered : (st.cycle net (d.products vnOf x t)).net.store.clobbered w =
        st.net.store.clobbered w := by
      rw [hNext]
      exact hBorder.round_clobbered hOrder hInlet w
    exact hClobbered.trans (hState.kept w)
  · have hNode : (st.cycle net (d.products vnOf x t)).net.node id = st.net.node id := by
      rw [hNext]
      exact Net.round_node_of_not_mem hId
    exact hNode.trans (hState.others id hId)

/-- The state before every cycle. -/
theorem run_state (hNet : layout.Configured net) (hL : 0 < L)
    (d : Deliveries (layout.shift layout.numVNs)) {vnOf : Nat → Nat}
    (hVn : ∀ v < layout.numVNs, ∀ m, layout.Covers v 0 m → vnOf m = v) (t : Nat) :
    layout.RunState net x (fed d vnOf x t) (TreeState.run net (d.products vnOf x) t)
      (TreeState.history net (d.products vnOf x) t) := by
  induction t with
  | zero => exact RunState.start hNet hL d vnOf _
  | succ t ih => exact ih.step hNet hL d hVn

end

end Layout

end Stonne
