import Stonne.Maeri.Order

/-!
# The links replace the memory

With the links in use a multiplier needs the same column of the input as its right
neighbour one window earlier.  So the plan in which every multiplier multiplies what whole
windows would bring it is linked, and the memory leaves out exactly the values that the
plan takes from the links.
-/

namespace Stonne

open Dataflow

namespace Maeri

variable (mach : Maeri)

/-- The plan in which every multiplier multiplies what whole windows would bring it. -/
def plan (sig : Signals) : StreamPlan where
  folds := mach.iterations.folds
  windows := mach.iterations.iterY
  rows := mach.iterations.iterN * mach.iterations.iterG * mach.iterations.iterK *
    mach.iterations.iterX
  taps m := CompilerMSN.forwardingPsumEnabled mach.tile m == some false
  receives := sig.fwReceive
  sends := sig.fwSend
  value m j := (mach.wholeWindow (Counters.digits mach.iterations j) m).headD 0

/-- The tiles for which the links replace the memory exactly.  The tile does not spread over
batches and groups at once, the loop over the windows of a row makes as many rounds as the
multipliers count, and so does the loop over the folds. -/
structure LinksFit : Prop where
  groups : mach.tile.tN = 1 ∨ mach.tile.tG = 1
  windows : Binary32.ceilDiv mach.layer.outY mach.tile.tY = mach.layer.outY
  folds : mach.nFolding = mach.iterations.folds

section

variable {mach : Maeri}

theorem plan_total (sig : Signals) : (mach.plan sig).total = mach.iterations.steps := by
  rw [StreamPlan.total, plan, Iterations.steps, Iterations.positions]
  ring

/-- A whole window has one activation for each tap. -/
theorem wholeWindow_multiplier (hPorts : mach.P ≤ mach.L)
    (hTile : mach.tile.Accepted mach.numMs) (hStrides : 1 ≤ mach.layer.strides)
    (hGroups : mach.tile.tN = 1 ∨ mach.tile.tG = 1) (cnt : Counters) {v : Neuron}
    (hv : v.InTile mach.tile) {t : Tap} (ht : t.InTile mach.tile) :
    mach.wholeWindow cnt (mach.tile.multiplier v t) =
      [SDMemory.inputData mach.layer mach.tile mach.inputAddress cnt
        (v.x * mach.layer.strides + t.r) (v.y * mach.layer.strides + t.s) v.n v.g t.c] := by
  rw [wholeWindow, ports, numMs, SDMemory.operandsFor_inputs hPorts hTile hStrides hGroups _ _ _
    hv ht, if_pos (Nat.zero_le _)]
  rfl

theorem plan_value (hPorts : mach.P ≤ mach.L) (hTile : mach.tile.Accepted mach.numMs)
    (hStrides : 1 ≤ mach.layer.strides) (hGroups : mach.tile.tN = 1 ∨ mach.tile.tG = 1)
    (sig : Signals) {v : Neuron} (hv : v.InTile mach.tile) {t : Tap} (ht : t.InTile mach.tile)
    (j : Nat) : (mach.plan sig).value (mach.tile.multiplier v t) j =
      SDMemory.inputData mach.layer mach.tile mach.inputAddress
        (Counters.digits mach.iterations j) (v.x * mach.layer.strides + t.r)
        (v.y * mach.layer.strides + t.s) v.n v.g t.c := by
  simp only [plan, wholeWindow_multiplier hPorts hTile hStrides hGroups _ hv ht, List.headD_cons]

theorem resent_multiplier (hPorts : mach.P ≤ mach.L)
    (hTile : mach.tile.Accepted mach.numMs) (hStrides : 1 ≤ mach.layer.strides)
    (hGroups : mach.tile.tN = 1 ∨ mach.tile.tG = 1) (sig : Signals) {v : Neuron}
    (hv : v.InTile mach.tile) {t : Tap} (ht : t.InTile mach.tile) :
    mach.resent (mach.tile.multiplier v t) =
      (List.range (mach.plan sig).total).map
        ((mach.plan sig).value (mach.tile.multiplier v t)) := by
  rw [resent, plan_total, List.map_eq_flatMap]
  apply List.flatMap_congr
  intro j _
  simp only [plan, wholeWindow_multiplier hPorts hTile hStrides hGroups _ hv ht]
  rfl

/-- The window that an iteration belongs to. -/
theorem currentY_digits (it : Iterations) (j : Nat) :
    (Counters.digits it j).currentY = j / it.folds % it.iterY := by
  rw [Counters.digits, Iterations.folds, ← Nat.div_div_eq_div_mul, ← Nat.div_div_eq_div_mul]

/-- One window further in the row. -/
theorem digits_add_folds {it : Iterations} (hIt : it.Positive) {j : Nat}
    (hRow : (Counters.digits it j).currentY + 1 < it.iterY) :
    Counters.digits it (it.folds + j) =
      { Counters.digits it j with currentY := (Counters.digits it j).currentY + 1 } := by
  have hStep : ∀ {b : Nat} (a q : Nat), 0 < b → (b * a + q) % b = q % b ∧
      (b * a + q) / b = a + q / b := fun a q hb =>
    ⟨Nat.mul_add_mod _ _ _, Nat.mul_add_div hb _ _⟩
  obtain ⟨hModS, hDivS⟩ := hStep (it.iterR * it.iterC) j hIt.iterS
  obtain ⟨hModR, hDivR⟩ := hStep it.iterC (j / it.iterS) hIt.iterR
  obtain ⟨hModC, hDivC⟩ := hStep 1 (j / it.iterS / it.iterR) hIt.iterC
  rw [Nat.mul_one, Nat.add_comm 1] at hDivC
  rw [Nat.mul_one] at hModC
  simp only [Counters.digits] at hRow
  obtain ⟨hModY, hDivY⟩ := succ_of_lt hRow
  simp [Counters.digits, Iterations.folds, Nat.mul_assoc, *]

/-- The next tap of a row of the filter is that of the right neighbour. -/
theorem multiplier_succ (tile : Tile) (v : Neuron) (t : Tap) :
    tile.multiplier v { t with s := t.s + 1 } = tile.multiplier v t + 1 := by
  rw [Tile.multiplier, Tile.multiplier, Tile.tapIndex, Tile.tapIndex]
  ring

theorem fwReceive_iff (hLinks : SDMemory.linksEnabled mach.layer mach.tile = true) (m : Nat) :
    mach.signals.fwReceive m = true ↔ ∃ v : Neuron, ∃ t : Tap, v.InTile mach.tile ∧
      t.InTile mach.tile ∧ mach.tile.multiplier v t = m ∧ t.s < mach.tile.tS - 1 := by
  simp only [signals, CompilerMSN.msFwreceiveEnabled, CompilerMSN.msFwEnabled_iff hLinks,
    decide_eq_true_eq]

theorem fwSend_iff (hLinks : SDMemory.linksEnabled mach.layer mach.tile = true) (m : Nat) :
    mach.signals.fwSend m = true ↔ ∃ v : Neuron, ∃ t : Tap, v.InTile mach.tile ∧
      t.InTile mach.tile ∧ mach.tile.multiplier v t = m ∧ 0 < t.s := by
  simp only [signals, CompilerMSN.msFwsendEnabled, CompilerMSN.msFwEnabled_iff hLinks,
    decide_eq_true_eq]

/-- A tap receives unless it is the last one of its row. -/
theorem fwReceive_multiplier (hLinks : SDMemory.linksEnabled mach.layer mach.tile = true)
    {v : Neuron} (hv : v.InTile mach.tile) {t : Tap} (ht : t.InTile mach.tile) :
    mach.signals.fwReceive (mach.tile.multiplier v t) = decide (t.s < mach.tile.tS - 1) := by
  rw [Bool.eq_iff_iff, fwReceive_iff hLinks, decide_eq_true_eq]
  constructor
  · rintro ⟨v', t', hv', ht', hSame, hLess⟩
    obtain ⟨-, rfl⟩ := Tile.multiplier_inj hv' hv ht' ht hSame
    exact hLess
  · intro hLess
    exact ⟨v, t, hv, ht, rfl, hLess⟩

/-- The links join neighbouring taps. -/
structure Wired (mach : Maeri) (sig : Signals) : Prop where
  neighbour : ∀ m, sig.fwReceive m = true ↔ sig.fwSend (m + 1) = true
  first : sig.fwSend 0 = false
  tap : ∀ m, sig.fwReceive m = true →
    CompilerMSN.forwardingPsumEnabled mach.tile m = some false ∧
      CompilerMSN.forwardingPsumEnabled mach.tile (m + 1) = some false

/-- With the links out of use none is enabled. -/
theorem not_fwReceive (hTile : mach.tile.Accepted mach.numMs) (hStrides : 1 ≤ mach.layer.strides)
    (hLinks : SDMemory.linksEnabled mach.layer mach.tile = false) (m : Nat) :
    mach.signals.fwReceive m = false ∧ mach.signals.fwSend m = false := by
  constructor
  · apply CompilerMSN.msFwEnabled_of_disabled hTile hStrides hLinks
    intro s hs hOne
    rw [decide_eq_false_iff_not]
    omega
  · apply CompilerMSN.msFwEnabled_of_disabled hTile hStrides hLinks
    intro s hs hOne
    rw [decide_eq_false_iff_not]
    omega

theorem wired_signals (hTile : mach.tile.Accepted mach.numMs)
    (hStrides : 1 ≤ mach.layer.strides) : Wired mach mach.signals := by
  cases hLinks : SDMemory.linksEnabled mach.layer mach.tile with
  | false =>
      have hNone := not_fwReceive hTile hStrides hLinks
      refine ⟨fun m => ?_, (hNone 0).2, fun m hm => ?_⟩
      · rw [(hNone m).1, (hNone (m + 1)).2]
      · rw [(hNone m).1] at hm
        cases hm
  | true =>
      have hNext : ∀ {t : Tap}, t.InTile mach.tile → t.s < mach.tile.tS - 1 →
          Tap.InTile { t with s := t.s + 1 } mach.tile := fun ht hLess =>
        ⟨ht.c, ht.r, by simp only; omega⟩
      have hTap : ∀ {v : Neuron} {t : Tap}, v.InTile mach.tile → t.InTile mach.tile →
          CompilerMSN.forwardingPsumEnabled mach.tile (mach.tile.multiplier v t) = some false :=
        fun hv ht => CompilerMSN.forwardingPsumEnabled_eq_false_iff.mpr ⟨_, _, hv, ht, rfl⟩
      refine ⟨fun m => ?_, ?_, fun m hm => ?_⟩
      · rw [fwReceive_iff hLinks, fwSend_iff hLinks]
        constructor
        · rintro ⟨v, t, hv, ht, rfl, hLess⟩
          exact ⟨v, _, hv, hNext ht hLess, multiplier_succ _ _ _, Nat.succ_pos _⟩
        · rintro ⟨v, ⟨c, r, s⟩, hv, ht, hSame, hPos⟩
          obtain ⟨s, rfl⟩ := Nat.exists_eq_succ_of_ne_zero hPos.ne'
          have hLess := ht.s
          have hOwn := (multiplier_succ mach.tile v ⟨c, r, s⟩).symm.trans hSame
          exact ⟨v, ⟨c, r, s⟩, hv, ⟨ht.c, ht.r, by simp only at hLess ⊢; omega⟩, by omega,
            by simp only at hLess ⊢; omega⟩
      · rw [Bool.eq_false_iff]
        intro hFirst
        obtain ⟨v, t, hv, ht, hZero, hPos⟩ := (fwSend_iff hLinks 0).mp hFirst
        rw [Tile.multiplier, Tile.tapIndex] at hZero
        omega
      · obtain ⟨v, t, hv, ht, rfl, hLess⟩ := (fwReceive_iff hLinks m).mp hm
        rw [← multiplier_succ]
        exact ⟨hTap hv ht, hTap hv (hNext ht hLess)⟩

/-- The column of a tap is that of the next tap one window earlier.  As `T_S` divides `S`, both
are in the layer or none is. -/
theorem inputData_shift {layer : DNNLayer} {tile : Tile} (hS : 0 < layer.S)
    (hLinks : SDMemory.linksEnabled layer tile = true) (inputAddress : Nat → Int)
    (cnt : Counters) {s : Nat} (hs : s < tile.tS - 1) (x n g c : Nat) :
    SDMemory.inputData layer tile inputAddress { cnt with currentY := cnt.currentY + 1 } x s n g c =
      SDMemory.inputData layer tile inputAddress cnt x (s + 1) n g c := by
  simp only [SDMemory.linksEnabled, Bool.and_eq_true, decide_eq_true_eq] at hLinks
  obtain ⟨⟨⟨hY, -⟩, hStrides⟩, hRemainder⟩ := hLinks
  obtain ⟨q, hq⟩ := Nat.dvd_of_mod_eq_zero hRemainder
  have hGuard : cnt.currentS * tile.tS + s < SDMemory.outputYInputs layer tile ↔
      cnt.currentS * tile.tS + (s + 1) < SDMemory.outputYInputs layer tile := by
    have hInputs : SDMemory.outputYInputs layer tile = q * tile.tS := by
      rw [SDMemory.outputYInputs, hY, Nat.mul_comm, ← hq]
      omega
    rw [hInputs]
    constructor
    · intro hLess
      have hFold : cnt.currentS < q := by
        apply Nat.lt_of_mul_lt_mul_right
        exact lt_of_le_of_lt (Nat.le_add_right _ s) hLess
      exact radix_lt hFold (by omega)
    · intro hLess
      omega
  have hColumn : (cnt.currentY + 1) * tile.tY * layer.strides + s =
      cnt.currentY * tile.tY * layer.strides + (s + 1) := by
    rw [hY, hStrides]
    ring
  simp only [SDMemory.inputData, hGuard, hColumn]

/-- With the links in use the plan is linked. -/
theorem plan_linked (hPorts : mach.P ≤ mach.L) (hLayer : mach.layer.Positive)
    (hTile : mach.tile.Accepted mach.numMs)
    (hLinks : SDMemory.linksEnabled mach.layer mach.tile = true)
    (hGroups : mach.tile.tN = 1 ∨ mach.tile.tG = 1) : (mach.plan mach.signals).Linked := by
  have hIt : mach.iterations.Positive := Iterations.ofTile_positive hLayer hTile
  obtain ⟨hNeighbour, hFirst, hTap⟩ := wired_signals hTile hLayer.strides
  refine ⟨hIt.folds, hIt.iterY, hNeighbour, hFirst, fun m hm => ?_, fun m j hm hSent => ?_⟩
  · simp only [plan, beq_iff_eq]
    exact hTap m hm
  · obtain ⟨v, t, hv, ht, rfl, hLess⟩ := (fwReceive_iff hLinks m).mp hm
    have hNext : Tap.InTile { t with s := t.s + 1 } mach.tile :=
      ⟨ht.c, ht.r, by simp only; omega⟩
    rw [StreamPlan.toLink, Bool.and_eq_true, decide_eq_true_eq] at hSent
    have hRow : (Counters.digits mach.iterations j).currentY + 1 < mach.iterations.iterY := by
      have hWindow : j / mach.iterations.folds % mach.iterations.iterY <
        mach.iterations.iterY - 1 := hSent.1
      rw [currentY_digits]
      omega
    have hOnly : v.y = 0 := by
      have hLess := hv.y
      simp only [SDMemory.linksEnabled, Bool.and_eq_true, decide_eq_true_eq] at hLinks
      omega
    rw [← multiplier_succ, plan_value hPorts hTile hLayer.strides hGroups _ hv ht,
      plan_value hPorts hTile hLayer.strides hGroups _ hv hNext, hOnly, Nat.zero_mul,
      Nat.zero_add, Nat.zero_add]
    change SDMemory.inputData _ _ _ (Counters.digits mach.iterations (mach.iterations.folds + j))
      _ _ _ _ _ = _
    rw [digits_add_folds hIt hRow]
    exact inputData_shift hLayer.S hLinks _ _ hLess _ _ _ _

/-- Without links every plan is linked. -/
theorem plan_linksDisabled_linked (hLayer : mach.layer.Positive)
    (hTile : mach.tile.Accepted mach.numMs) : (mach.plan linksDisabled).Linked := by
  have hIt : mach.iterations.Positive := Iterations.ofTile_positive hLayer hTile
  refine ⟨hIt.folds, hIt.iterY, fun m => Iff.rfl, rfl, fun m hm => ?_, fun m j hm => ?_⟩
  · cases hm
  · cases hm

/-- The multipliers count as the loops do. -/
theorem plan_fits (hFit : mach.LinksFit) (sig : Signals) : Fits mach sig (mach.plan sig) where
  folds := hFit.folds
  windows := hFit.windows.symm
  taps m := by simp [plan]
  receives _ := rfl
  sends _ := rfl

/-! ## What the memory sends -/

/-- The memory, the compiler and the multipliers agree about the use of the links. -/
structure Agrees (mach : Maeri) (sig : Signals) : Prop where
  linked : (mach.plan sig).Linked
  fits : Fits mach sig (mach.plan sig)
  memory : ∀ v : Neuron, v.InTile mach.tile → ∀ t : Tap, t.InTile mach.tile → ∀ j,
    sig.yInit (Counters.digits mach.iterations j) ≤ v.y * mach.layer.strides + t.s ↔
      (mach.plan sig).fromMemory (mach.tile.multiplier v t) j = true

theorem agrees_signals (hPorts : mach.P ≤ mach.L) (hLayer : mach.layer.Positive)
    (hTile : mach.tile.Accepted mach.numMs)
    (hLinks : SDMemory.linksEnabled mach.layer mach.tile = true) (hFit : mach.LinksFit) :
    Agrees mach mach.signals := by
  refine ⟨plan_linked hPorts hLayer hTile hLinks hFit.groups, plan_fits hFit _, ?_⟩
  intro v hv t ht j
  have hReceives : (mach.plan mach.signals).receives (mach.tile.multiplier v t) =
      decide (t.s < mach.tile.tS - 1) := fwReceive_multiplier hLinks hv ht
  have hWindow : j / (mach.plan mach.signals).folds % (mach.plan mach.signals).windows =
      (Counters.digits mach.iterations j).currentY := (currentY_digits _ _).symm
  have hColumn := ht.s
  rw [StreamPlan.fromMemory, StreamPlan.fromLink, hReceives, hWindow]
  simp only [signals, SDMemory.yInit, hLinks, if_true]
  simp only [SDMemory.linksEnabled, Bool.and_eq_true, decide_eq_true_eq] at hLinks
  obtain ⟨⟨⟨hY, -⟩, -⟩, -⟩ := hLinks
  have hOnly := hv.y
  rw [hY, Nat.lt_one_iff] at hOnly
  rw [SDMemory.yInputs, hY, hOnly]
  simp only [Nat.sub_self, Nat.zero_mul, Nat.add_zero, Nat.zero_add, Bool.not_eq_true',
    Bool.and_eq_false_iff, decide_eq_false_iff_not]
  split
  · omega
  · omega

theorem agrees_linksDisabled (hLayer : mach.layer.Positive)
    (hTile : mach.tile.Accepted mach.numMs) (hFit : mach.LinksFit) :
    Agrees mach linksDisabled :=
  ⟨plan_linksDisabled_linked hLayer hTile, plan_fits hFit _, fun _ _ _ _ _ =>
    ⟨fun _ => rfl, fun _ => Nat.zero_le _⟩⟩

/-- With agreement the memory sends the values of the plan that no link brings. -/
theorem sentActivations_eq_picked (hPorts : mach.P ≤ mach.L)
    (hTile : mach.tile.Accepted mach.numMs) (hStrides : 1 ≤ mach.layer.strides)
    (hGroups : mach.tile.tN = 1 ∨ mach.tile.tG = 1) {sig : Signals} (hAgrees : Agrees mach sig)
    {v : Neuron} (hv : v.InTile mach.tile) {t : Tap} (ht : t.InTile mach.tile) (n : Nat) :
    mach.sentActivations sig (mach.tile.multiplier v t) n =
      picked ((mach.plan sig).fromMemory (mach.tile.multiplier v t))
        ((mach.plan sig).value (mach.tile.multiplier v t)) n := by
  induction n with
  | zero => rfl
  | succ n ih =>
      rw [sentActivations_succ, picked_succ, ih]
      congr 1
      rw [windowFrom, ports, numMs, SDMemory.operandsFor_inputs hPorts hTile hStrides hGroups _ _ _
        hv ht, plan_value hPorts hTile hStrides hGroups _ hv ht]
      simp only [← hAgrees.memory v hv t ht]
      split
      · rfl
      · rfl

/-! ## Every run -/

variable {sig : Signals}

/-- In every run the memory sends values of the plan. -/
theorem run_fed (hPorts : mach.P ≤ mach.L) (hLayer : mach.layer.Positive)
    (hTile : mach.tile.Accepted mach.numMs) (hGroups : mach.tile.tN = 1 ∨ mach.tile.tG = 1)
    (hAgrees : Agrees mach sig) (events : List (Bool × (Nat → Delivery))) :
    MSNetwork.Fed (mach.plan sig) fun m =>
      activationsOf ((mach.run sig events).operands mach m) := by
  intro m hm
  obtain ⟨v, t, hv, ht, rfl⟩ :=
    CompilerMSN.forwardingPsumEnabled_eq_false_iff.mp ((hAgrees.fits.taps m).mp hm)
  have hSent := run_sent hPorts (Iterations.ofTile_positive hLayer hTile) hTile sig events hv ht
  simp only [hSent.activations,
    sentActivations_eq_picked hPorts hTile hLayer.strides hGroups hAgrees hv ht, plan_total]
  exact picked_mono _ _ hSent.log_le

/-- In every run the multipliers follow the plan. -/
theorem run_streams (hPorts : mach.P ≤ mach.L) (hLayer : mach.layer.Positive)
    (hTile : mach.tile.Accepted mach.numMs) (hGroups : mach.tile.tN = 1 ∨ mach.tile.tG = 1)
    (hAgrees : Agrees mach sig) (events : List (Bool × (Nat → Delivery))) :
    InStep mach (mach.plan sig) (mach.run sig events) := by
  apply run_inStep hPorts hTile hAgrees.linked hAgrees.fits
  exact run_fed hPorts hLayer hTile hGroups hAgrees events

theorem taps_multiplier (hAgrees : Agrees mach sig) {v : Neuron} (hv : v.InTile mach.tile)
    {t : Tap} (ht : t.InTile mach.tile) :
    (mach.plan sig).taps (mach.tile.multiplier v t) = true :=
  (hAgrees.fits.taps _).mpr
    (CompilerMSN.forwardingPsumEnabled_eq_false_iff.mpr ⟨v, t, hv, ht, rfl⟩)

/-- What has been multiplied is a part of the plan. -/
theorem popped_of_streams {plan : StreamPlan} {msSize : Nat} {arrived : Nat → List Int}
    {nWeights : Nat → Nat} {st : MSNetwork}
    (h : MSNetwork.Streams plan msSize arrived nWeights st) {m : Nat} (hTap : plan.taps m = true) :
    (st.1 m).log.popped.map (·.data) <+: (List.range plan.total).map (plan.value m) := by
  obtain ⟨_, _, _, hFollows, -⟩ := (h.taps m hTap).2.follows
  rw [hFollows.popped, ← picked_all, ← picked_all]
  exact picked_mono _ _ hFollows.bounded

/-- With agreement every multiplier gets whole windows. -/
theorem Agrees.multiplies (hPorts : mach.P ≤ mach.L) (hLayer : mach.layer.Positive)
    (hTile : mach.tile.Accepted mach.numMs) (hGroups : mach.tile.tN = 1 ∨ mach.tile.tG = 1)
    (hAgrees : Agrees mach sig) : mach.Multiplies sig mach.resent := by
  have hIt : mach.iterations.Positive := Iterations.ofTile_positive hLayer hTile
  refine ⟨fun events v hv t ht => ?_, fun events hDistributed => ?_⟩
  · have hRun := run_streams hPorts hLayer hTile hGroups hAgrees events
    rw [resent_multiplier hPorts hTile hLayer.strides hGroups sig hv ht]
    exact popped_of_streams hRun.streams (taps_multiplier hAgrees hv ht)
  · have hRun := run_streams hPorts hLayer hTile hGroups hAgrees events
    have hAll : ∀ m, (mach.plan sig).taps m = true →
        ((mach.run sig events).operands mach m).take ((mach.run sig events).delivered m) =
          (mach.run sig events).operands mach m := by
      intro m hm
      exact List.take_of_length_le (hDistributed.arrived m (hRun.streams.taps m hm).1).ge
    have hArrived : ∀ m, (mach.plan sig).taps m = true → activationsOf
        (((mach.run sig events).operands mach m).take ((mach.run sig events).delivered m)) =
          picked ((mach.plan sig).fromMemory m) ((mach.plan sig).value m)
            (mach.plan sig).total := by
      intro m hm
      obtain ⟨v, t, hv, ht, rfl⟩ :=
        CompilerMSN.forwardingPsumEnabled_eq_false_iff.mp ((hAgrees.fits.taps m).mp hm)
      have hSent := run_sent hPorts hIt hTile sig events hv ht
      rw [hAll _ hm, hSent.activations, hSent.phased.inStep.finished hDistributed.finished,
        sentActivations_eq_picked hPorts hTile hLayer.strides hGroups hAgrees hv ht, plan_total]
    have hWeights : ∀ m, (mach.plan sig).taps m = true → ∃ phases, 0 < phases ∧ weightsOf
        (((mach.run sig events).operands mach m).take ((mach.run sig events).delivered m)) =
          phases * (mach.plan sig).folds := by
      intro m hm
      obtain ⟨v, t, hv, ht, rfl⟩ :=
        CompilerMSN.forwardingPsumEnabled_eq_false_iff.mp ((hAgrees.fits.taps m).mp hm)
      have hSent := run_sent hPorts hIt hTile sig events hv ht
      rw [hAll _ hm, hSent.phased.ended hDistributed.finished]
      exact ⟨mach.iterations.phases, hIt.phases, rfl⟩
    obtain ⟨cycles, hStreams, hComplete⟩ :=
      hRun.streams.complete hAgrees.linked hArrived hWeights
    refine ⟨cycles, fun v hv t ht => ?_⟩
    have hTap := taps_multiplier hAgrees hv ht
    rw [resent_multiplier hPorts hTile hLayer.strides hGroups sig hv ht]
    apply (popped_of_streams hStreams hTap).eq_of_length_le
    rw [List.length_map, List.length_map, List.length_range]
    exact hComplete _ hTap

/-- The values on a link, wherever they are. -/
theorem link_values (hPorts : mach.P ≤ mach.L) (hLayer : mach.layer.Positive)
    (hTile : mach.tile.Accepted mach.numMs) (hGroups : mach.tile.tN = 1 ∨ mach.tile.tG = 1)
    (hAgrees : Agrees mach sig) (events : List (Bool × (Nat → Delivery))) {m : Nat}
    (hReceives : sig.fwReceive m = true) :
    let msnet := (mach.run sig events).msnet
    let plan := mach.plan sig
    (msnet.1 m).log.fromLink.map (·.data) =
        picked (plan.fromLink m) (plan.value m) (msnet.1 m).log.popped.length ∧
      picked (plan.fromLink m) (plan.value m) (msnet.1 m).log.popped.length ++
          (msnet.1 m).forwardingInputFifo.map (·.data) ++
          (msnet.2.store.recv (.forwarding m)).map (·.data) =
        (msnet.1 (m + 1)).log.forwarded.map (·.data) ∧
      (msnet.1 (m + 1)).log.forwarded.map (·.data) =
        picked (plan.toLink (m + 1)) (plan.value (m + 1)) (msnet.1 (m + 1)).log.popped.length ∧
      (msnet.1 (m + 1)).log.popped.map (·.data) =
        (List.range (msnet.1 (m + 1)).log.popped.length).map (plan.value (m + 1)) ∧
      (msnet.2 (.forwarding m)).overwritten = false := by
  intro msnet plan
  have hRun := (run_streams hPorts hLayer hTile hGroups hAgrees events).streams
  obtain ⟨hTap, hNextTap⟩ := hAgrees.linked.tap m hReceives
  have hStream := (hRun.taps m hTap).2
  obtain ⟨_, _, _, hFollows, -, hLinked, -⟩ := hStream.follows
  obtain ⟨_, _, _, hNext, -⟩ := (hRun.taps (m + 1) hNextTap).2.follows
  refine ⟨hFollows.fromLink, ?_, hNext.forwarded, hNext.popped, hStream.overwritten hReceives⟩
  rw [hFollows.link hReceives]
  exact hLinked hReceives

/-- At the end of a row the next values from the link are a window away. -/
theorem picked_fromLink_row {plan : StreamPlan} {m p : Nat}
    (hRow : p % (plan.windows * plan.folds) = 0) :
    picked (plan.fromLink m) (plan.value m) (plan.folds + p) =
      picked (plan.fromLink m) (plan.value m) p := by
  obtain ⟨row, rfl⟩ := Nat.dvd_of_mod_eq_zero hRow
  rw [Nat.add_comm, picked_add]
  have hNone : picked (fun j => plan.fromLink m (plan.windows * plan.folds * row + j))
      (fun j => plan.value m (plan.windows * plan.folds * row + j)) plan.folds =
        picked (fun _ => false) (plan.value m) plan.folds := by
    apply picked_congr
    · intro j hj
      have hSplit : plan.windows * plan.folds * row + j = row * plan.windows * plan.folds + j := by
        ring
      rw [StreamPlan.fromLink, hSplit, radix_div hj, Nat.mul_mod_left]
      simp
    · intro j hj hLink
      have hSplit : plan.windows * plan.folds * row + j = row * plan.windows * plan.folds + j := by
        ring
      rw [StreamPlan.fromLink, hSplit, radix_div hj, Nat.mul_mod_left] at hLink
      simp at hLink
  rw [hNone, picked_none, List.append_nil]

/-- At the end of a row the link only carries values that the neighbour has multiplied since. -/
theorem onWay_sublist {plan : StreamPlan} (hPlan : plan.Linked) {m p p' : Nat}
    (hReceives : plan.receives m = true) (hRow : p % (plan.windows * plan.folds) = 0)
    {fifo slot popped : List Int}
    (hOnWay : picked (plan.fromLink m) (plan.value m) p ++ fifo ++ slot =
      picked (plan.toLink (m + 1)) (plan.value (m + 1)) p')
    (hPopped : popped = (List.range p').map (plan.value (m + 1))) :
    (fifo ++ slot).Sublist (popped.drop p) := by
  have hBefore : picked (plan.fromLink m) (plan.value m) p =
      picked (plan.toLink (m + 1)) (plan.value (m + 1)) p := by
    rw [← hPlan.picked_fromLink hReceives, picked_fromLink_row hRow]
  rw [hBefore, List.append_assoc] at hOnWay
  rcases Nat.le_total p p' with hAhead | hBehind
  · obtain ⟨d, rfl⟩ := Nat.exists_eq_add_of_le hAhead
    rw [picked_add, List.append_cancel_left_eq] at hOnWay
    have hRest : popped.drop p = (List.range d).map fun j => plan.value (m + 1) (p + j) := by
      rw [hPopped, ← picked_all, picked_add, picked_all, picked_all]
      exact List.drop_left' (by simp)
    rw [hOnWay, hRest]
    exact picked_sublist _ _ d
  · have hLength := congrArg List.length hOnWay
    have hLess := (picked_mono (plan.toLink (m + 1)) (plan.value (m + 1)) hBehind).length_le
    rw [List.length_append] at hLength
    have hNone : fifo ++ slot = [] := by
      apply List.eq_nil_of_length_eq_zero
      omega
    rw [hNone]
    exact List.nil_sublist _

/-- The links replace what the memory leaves out whenever the loops fit. -/
theorem linksExact_of_linksFit (hPorts : mach.P ≤ mach.L) (hLayer : mach.layer.Positive)
    (hTile : mach.tile.Accepted mach.numMs)
    (hLinks : SDMemory.linksEnabled mach.layer mach.tile = true) (hFit : mach.LinksFit) :
    mach.LinksExact := by
  have hAgrees := agrees_signals hPorts hLayer hTile hLinks hFit
  have hValues := fun events m => @link_values mach mach.signals hPorts hLayer hTile hFit.groups
    hAgrees events m
  refine ⟨hAgrees.multiplies hPorts hLayer hTile hFit.groups,
    (agrees_linksDisabled hLayer hTile hFit).multiplies hPorts hLayer hTile hFit.groups,
    fun events m hm => ?_, fun events m hm => ?_, fun events m hm => ?_⟩
  · obtain ⟨hFromLink, hOnWay, -⟩ := hValues events m hm
    simp only
    rw [hFromLink]
    exact hOnWay
  · exact (hValues events m hm).2.2.2.2
  · simp only
    intro hRow
    obtain ⟨-, hOnWay, hForwarded, hPopped, -⟩ := hValues events m hm
    rw [hFit.folds, ← hFit.windows] at hRow
    exact onWay_sublist hAgrees.linked hm hRow (hOnWay.trans hForwarded) hPopped

/-- Unless a row has `2 ^ 24` windows or a window as many folds, only the first condition
counts. -/
theorem linksFit_of_lt (hLayer : mach.layer.Positive)
    (hGroups : mach.tile.tN = 1 ∨ mach.tile.tG = 1) (hY : mach.tile.tY = 1)
    (hWindows : mach.layer.outY < 2 ^ 24)
    (hFolds : mach.iterations.iterR * mach.iterations.iterS * mach.iterations.iterC < 2 ^ 24)
    (hC : 0 < mach.iterations.iterC) : mach.LinksFit := by
  refine ⟨hGroups, ?_, ?_⟩
  · have hUpper := Binary32.ceilDiv_le hLayer.outY Nat.one_pos hWindows.le
      (show mach.layer.outY ≤ mach.layer.outY * 1 by omega)
    have hLower := Binary32.le_ceilDiv_mul hLayer.outY Nat.one_pos hWindows.le
    rw [hY]
    omega
  · have hLess : mach.iterations.iterR * mach.iterations.iterS < 2 ^ 24 :=
      (Nat.le_mul_of_pos_right _ hC).trans_lt hFolds
    have hProduct : (mach.iterations.iterR : ℚ) * mach.iterations.iterS =
        ((mach.iterations.iterR * mach.iterations.iterS : ℕ) : ℚ) := by push_cast; rfl
    rw [nFolding, hProduct, Binary32.round_natCast hLess, ← Nat.cast_mul,
      Binary32.round_natCast hFolds, Nat.floor_natCast, Iterations.folds]
    ring

/-- Two folds of two columns, for three windows. -/
theorem linksExact_of_linksFit_two_folds :
    let mach : Maeri :=
      { L := 2
        P := 1
        layer := { R := 1, S := 4, C := 1, K := 1, G := 1, N := 1, X := 1, Y := 6, strides := 1 }
        tile :=
          { tR := 1, tS := 2, tC := 1, tK := 1, tG := 1, tN := 1, tX := 1, tY := 1,
            folding := true }
        filterAddress := fun i => i
        inputAddress := fun i => i }
    mach.LinksExact := by
  intro mach
  have hLayer : mach.layer.Positive :=
    ⟨by decide, by decide, by decide, by decide, by decide, by decide, by decide⟩
  have hTile : mach.tile.Accepted mach.numMs :=
    ⟨by decide, by decide, by decide, by decide, by decide, by decide, by decide, by decide,
      by decide⟩
  exact linksExact_of_linksFit (by decide) hLayer hTile (by decide)
    (linksFit_of_lt hLayer (Or.inl rfl) rfl (by decide +kernel) (by decide +kernel)
      (by decide +kernel))

/-- A tile over two batches and two groups: the second neuron gets the activations of two of
them, and its links bring it a column too early. -/
theorem not_linksExact_two_batches :
    let mach : Maeri :=
      { L := 3
        P := 0
        layer := { R := 1, S := 2, C := 1, K := 1, G := 2, N := 2, X := 1, Y := 3, strides := 1 }
        tile :=
          { tR := 1, tS := 2, tC := 1, tK := 1, tG := 2, tN := 2, tX := 1, tY := 1,
            folding := false }
        filterAddress := fun i => i
        inputAddress := fun i => i }
    ¬mach.LinksExact := by
  intro mach hExact
  have hPopped := hExact.withLinks.popped (List.replicate 4 (true, fun _ => .operand))
    ⟨0, 1, 0, 0, 0⟩ ⟨by decide, by decide, by decide, by decide, by decide⟩ ⟨0, 0, 0⟩
    ⟨by decide, by decide, by decide⟩
  have hResent : mach.resent 2 = [1, 6, 3, 8] := by decide +kernel
  have hRun : ((mach.run mach.signals (List.replicate 4 (true, fun _ => .operand))).msnet.1
      2).log.popped.map (·.data) = [1, 3] := by decide +kernel
  have hTap : mach.tile.multiplier ⟨0, 1, 0, 0, 0⟩ ⟨0, 0, 0⟩ = 2 := by decide
  rw [hTap, hRun, hResent] at hPopped
  revert hPopped
  decide

end

end Maeri

end Stonne
