import Stonne.Reduction.Firing
import Stonne.Reduction.Jobs

/-!
# The neurons at an adder

Every neuron has its own stream of packages, one for each wave of products.  Between two cycles an
adder has used equally many packages of a neuron from each of its inputs, and has sent one sum of
the neuron for each of them.
-/

namespace Stonne

open Dataflow LevelState ASwitch

/-- Everything that an adder has received and sent. -/
structure Flow where
  left : List DataPackage := []
  right : List DataPackage := []
  forward : List DataPackage := []
  link : List DataPackage := []
  psum : List DataPackage := []

namespace Flow

def arrive (flow : Flow) (left right forward : List DataPackage) : Flow :=
  { flow with
    left := flow.left ++ left
    right := flow.right ++ right
    forward := flow.forward ++ forward }

def emit (flow : Flow) (out : Output) : Flow :=
  { flow with
    link := flow.link ++ out.fw
    psum := flow.psum ++ out.psum }

theorem emit_nothing (flow : Flow) : flow.emit { fw := [], psum := [] } = flow := by
  rw [emit, List.append_nil, List.append_nil]

end Flow

namespace Layout

variable {L : Nat}

/-- The stream of a neuron at the bit `c`: what it carries in each wave. -/
def carried (layout : Layout L) (x : Nat → Nat → Int) (v k c w : Nat) : DataPackage :=
  psumPackage v (layout.value (fun m => x m w) v k c)

/-- The stream of a neuron over the forwarding link of the adder `p`. -/
def linked (layout : Layout L) (x : Nat → Nat → Int) (v k p w : Nat) : DataPackage :=
  psumPackage v (layout.below (fun m => x m w) v k p)

/-- The stream of a connection below the adders of height `k`. -/
structure Carries (layout : Layout L) (x : Nat → Nat → Int) (k c : Nat)
    (stream : List DataPackage) : Prop where
  covered : ∀ v < layout.numVNs, layout.Live v k → layout.Covers v k c →
    stream = seg (layout.carried x v k c) 0 stream.length
  empty : (∀ v < layout.numVNs, layout.Live v k → ¬layout.Covers v k c) → stream = []

/-- The stream of the forwarding link over which the adder `p` sends. -/
def LinkCarries (layout : Layout L) (x : Nat → Nat → Int) (k p : Nat)
    (stream : List DataPackage) : Prop :=
  ∀ v < layout.numVNs, layout.Live v k → layout.roleAt v k p = .send →
    stream = seg (layout.linked x v k p) 0 stream.length

/-- `n` sums of a neuron have been sent. -/
structure Lane (layout : Layout L) (x : Nat → Nat → Int) (k p v n : Nat) (s : ASwitch)
    (flow : Flow) : Prop where
  left : layout.Covers v k (2 * p) →
    Waiting (layout.carried x v k (2 * p)) n flow.left s.inputPsumLeftFifo
  right : layout.Covers v k (2 * p + 1) →
    Waiting (layout.carried x v k (2 * p + 1)) n flow.right s.inputPsumRightFifo
  forward : layout.roleAt v k p = .receive →
    Waiting (layout.linked x v k (partner p)) n flow.forward s.inputFwFifo
  link : layout.roleAt v k p = .send → flow.link = seg (layout.linked x v k p) 0 n
  psum : layout.roleAt v k p ≠ .send →
    flow.psum.filter (fun pck => pck.vn = v) = seg (layout.carried x v (k + 1) p) 0 n

/-- An adder between two cycles. -/
structure AdderState (layout : Layout L) (x : Nat → Nat → Int) (k p : Nat) (s : ASwitch)
    (flow : Flow) : Prop where
  waits : s = waiting s.inputPsumLeftFifo s.inputPsumRightFifo s.inputFwFifo
  lane : ∀ v < layout.numVNs, layout.Live v k → layout.roleAt v k p ≠ .absent →
    ∃ n, layout.Lane x k p v n s flow
  left : (∀ v < layout.numVNs, layout.Live v k → ¬layout.Covers v k (2 * p)) →
    s.inputPsumLeftFifo = []
  right : (∀ v < layout.numVNs, layout.Live v k → ¬layout.Covers v k (2 * p + 1)) →
    s.inputPsumRightFifo = []
  own : ∀ pck ∈ flow.psum, ∃ v < layout.numVNs, layout.Live v k ∧ layout.Covers v (k + 1) p ∧
    pck.vn = v

/-- How many sums of a neuron an adder has sent. -/
def sums (layout : Layout L) (k p v : Nat) (flow : Flow) : Nat :=
  if layout.roleAt v k p = .send then flow.link.length
  else (flow.psum.filter (fun pck => pck.vn = v)).length

/-- `m` packages of a neuron have come at every input. -/
structure Arrived (layout : Layout L) (k p v m : Nat) (flow : Flow) : Prop where
  left : layout.Covers v k (2 * p) → m ≤ flow.left.length
  right : layout.Covers v k (2 * p + 1) → m ≤ flow.right.length
  forward : layout.roleAt v k p = .receive → m ≤ flow.forward.length

section

variable {layout : Layout L} {x : Nat → Nat → Int} {k p u v n c : Nat} {s : ASwitch}
  {flow : Flow} {cfg : ASwitchConfig}

theorem Lane.sums_eq (h : layout.Lane x k p v n s flow) : layout.sums k p v flow = n := by
  unfold sums
  split
  · rename_i hSend
    rw [h.link hSend, length_seg, Nat.sub_zero]
  · rename_i hNot
    rw [h.psum hNot, length_seg, Nat.sub_zero]

theorem Carries.nothing : layout.Carries x k c [] :=
  ⟨fun _ _ _ _ => rfl, fun _ => rfl⟩

/-- An adder that has received nothing. -/
theorem AdderState.start : layout.AdderState x k p {} {} where
  waits := rfl
  lane _ _ _ _ := ⟨0, fun _ => Waiting.start _, fun _ => Waiting.start _,
    fun _ => Waiting.start _, fun _ => rfl, fun _ => rfl⟩
  left _ := rfl
  right _ := rfl
  own _ hPck := absurd hPck List.not_mem_nil

/-! ## What arrives -/

/-- A lane takes what arrives. -/
theorem Lane.arrive (h : layout.Lane x k p v n s flow) (hv : v < layout.numVNs)
    (hLive : layout.Live v k) {left right forward : List DataPackage}
    (hLeft : layout.Carries x k (2 * p) (flow.left ++ left))
    (hRight : layout.Carries x k (2 * p + 1) (flow.right ++ right))
    (hForward : layout.roleAt v k p = .receive →
      layout.LinkCarries x k (partner p) (flow.forward ++ forward)) :
    layout.Lane x k p v n (waiting (s.inputPsumLeftFifo ++ left)
      (s.inputPsumRightFifo ++ right) (s.inputFwFifo ++ forward))
      (flow.arrive left right forward) where
  left hCovers := (h.left hCovers).arrive (hLeft.covered v hv hLive hCovers)
  right hCovers := (h.right hCovers).arrive (hRight.covered v hv hLive hCovers)
  forward hRole := (h.forward hRole).arrive
    (hForward hRole v hv hLive ((role_partner hv).1 hRole))
  link := h.link
  psum := h.psum

theorem AdderState.arrive (h : layout.AdderState x k p s flow)
    {left right forward : List DataPackage}
    (hLeft : layout.Carries x k (2 * p) (flow.left ++ left))
    (hRight : layout.Carries x k (2 * p + 1) (flow.right ++ right))
    (hForward : ∀ v < layout.numVNs, layout.Live v k → layout.roleAt v k p = .receive →
      layout.LinkCarries x k (partner p) (flow.forward ++ forward)) :
    layout.AdderState x k p (waiting (s.inputPsumLeftFifo ++ left)
      (s.inputPsumRightFifo ++ right) (s.inputFwFifo ++ forward))
      (flow.arrive left right forward) where
  waits := rfl
  lane v hv hLive hRole := by
    obtain ⟨n, hLane⟩ := h.lane v hv hLive hRole
    exact ⟨n, hLane.arrive hv hLive hLeft hRight (hForward v hv hLive)⟩
  left hNone := by
    change s.inputPsumLeftFifo ++ left = []
    rw [h.left hNone, (List.append_eq_nil_iff.mp (hLeft.empty hNone)).2, List.append_nil]
  right hNone := by
    change s.inputPsumRightFifo ++ right = []
    rw [h.right hNone, (List.append_eq_nil_iff.mp (hRight.empty hNone)).2, List.append_nil]
  own := h.own

/-! ## What is sent -/

/-- What an adder sends of a neuron. -/
structure Sends (layout : Layout L) (x : Nat → Nat → Int) (k p v n n' : Nat) (out : Output) :
    Prop where
  link : layout.roleAt v k p = .send → out.fw = seg (layout.linked x v k p) n n'
  psum : layout.roleAt v k p ≠ .send →
    out.psum.filter (fun pck => pck.vn = v) = seg (layout.carried x v (k + 1) p) n n'

theorem Lane.emit (h : layout.Lane x k p v n s flow) {s' : ASwitch} {out : Output} {n' : Nat}
    (hMore : n ≤ n') (hSends : layout.Sends x k p v n n' out)
    (hLeft : layout.Covers v k (2 * p) →
      Waiting (layout.carried x v k (2 * p)) n' flow.left s'.inputPsumLeftFifo)
    (hRight : layout.Covers v k (2 * p + 1) →
      Waiting (layout.carried x v k (2 * p + 1)) n' flow.right s'.inputPsumRightFifo)
    (hForward : layout.roleAt v k p = .receive →
      Waiting (layout.linked x v k (partner p)) n' flow.forward s'.inputFwFifo) :
    layout.Lane x k p v n' s' (flow.emit out) where
  left := hLeft
  right := hRight
  forward := hForward
  link hRole := by
    change flow.link ++ out.fw = _
    rw [h.link hRole, hSends.link hRole, seg_append _ (Nat.zero_le n) hMore]
  psum hRole := by
    change (flow.psum ++ out.psum).filter _ = _
    rw [List.filter_append, h.psum hRole, hSends.psum hRole, seg_append _ (Nat.zero_le n) hMore]

/-- What a cycle makes of an adder to which packages have come. -/
structure Routed (layout : Layout L) (x : Nat → Nat → Int) (k p : Nat) (flow : Flow)
    (result : ASwitch × Output) : Prop where
  state : layout.AdderState x k p result.1 (flow.emit result.2)
  progress : ∀ v < layout.numVNs, layout.Live v k → layout.roleAt v k p ≠ .absent →
    ∀ m, layout.Arrived k p v m flow →
      min (layout.sums k p v flow + 1) m ≤ layout.sums k p v (flow.emit result.2)
  single : result.2.fw.length ≤ 1

/-- An adder that waits: an input of every neuron has been used up. -/
theorem AdderState.rest (h : layout.AdderState x k p s flow)
    (hUsed : ∀ v < layout.numVNs, layout.Live v k → layout.roleAt v k p ≠ .absent →
      ∀ m, layout.Arrived k p v m flow → m ≤ layout.sums k p v flow) :
    layout.Routed x k p flow (s, { fw := [], psum := [] }) where
  state := by
    rw [Flow.emit_nothing]
    exact h
  progress v hv hLive hRole m hArrived := by
    rw [Flow.emit_nothing]
    exact (Nat.min_le_right _ _).trans (hUsed v hv hLive hRole m hArrived)
  single := Nat.zero_le 1

theorem not_covers_of_absent (hu : u < layout.numVNs) (h : layout.roleAt u k p = .absent) :
    ¬layout.Covers u k (2 * p) ∧ ¬layout.Covers u k (2 * p + 1) := by
  rw [← not_or]
  intro hCovers
  rcases roleAt_cases hu hCovers with ⟨hRole, -⟩ | ⟨hRole, -⟩ | ⟨hRole, -⟩ <;>
    · rw [h] at hRole
      cases hRole

/-- An adder that works for one neuron sends one more sum. -/
theorem AdderState.advance (h : layout.AdderState x k p s flow) (hv : v < layout.numVNs)
    (hLive : layout.Live v k)
    (hOthers : ∀ u < layout.numVNs, u ≠ v → layout.roleAt u k p = .absent)
    (hLane : layout.Lane x k p v n s flow) {left right forward : Fifo} {out : Output}
    (hSends : layout.Sends x k p v n (n + 1) out)
    (hOwn : ∀ pck ∈ out.psum, layout.Covers v (k + 1) p ∧ pck.vn = v)
    (hSingle : out.fw.length ≤ 1)
    (hLeft : layout.Covers v k (2 * p) →
      Waiting (layout.carried x v k (2 * p)) (n + 1) flow.left left)
    (hLeft' : ¬layout.Covers v k (2 * p) → left = [])
    (hRight : layout.Covers v k (2 * p + 1) →
      Waiting (layout.carried x v k (2 * p + 1)) (n + 1) flow.right right)
    (hRight' : ¬layout.Covers v k (2 * p + 1) → right = [])
    (hForward : layout.roleAt v k p = .receive →
      Waiting (layout.linked x v k (partner p)) (n + 1) flow.forward forward) :
    layout.Routed x k p flow (waiting left right forward, out) := by
  have hNew : layout.Lane x k p v (n + 1) (waiting left right forward) (flow.emit out) :=
    hLane.emit (Nat.le_succ n) hSends hLeft hRight hForward
  refine ⟨⟨rfl, fun u hu _ hRole => ?_, fun hNone => hLeft' (hNone v hv hLive),
    fun hNone => hRight' (hNone v hv hLive), fun pck hPck => ?_⟩, fun u hu _ hRole m _ => ?_,
    hSingle⟩
  · rcases eq_or_ne u v with rfl | hNe
    · exact ⟨n + 1, hNew⟩
    · exact absurd (hOthers u hu hNe) hRole
  · rcases List.mem_append.mp hPck with hBefore | hNow
    · exact h.own pck hBefore
    · obtain ⟨hCovers, hVn⟩ := hOwn pck hNow
      exact ⟨v, hv, hLive, hCovers, hVn⟩
  · rcases eq_or_ne u v with rfl | hNe
    · rw [hLane.sums_eq, hNew.sums_eq]
      exact Nat.min_le_left _ _
    · exact absurd (hOthers u hu hNe) hRole

/-- An adder that works for one neuron and waits for one of its inputs. -/
theorem AdderState.rest_one (h : layout.AdderState x k p s flow)
    (hOthers : ∀ u < layout.numVNs, u ≠ v → layout.roleAt u k p = .absent)
    (hLane : layout.Lane x k p v n s flow)
    (hUsed : ∀ m, layout.Arrived k p v m flow → m ≤ n) :
    layout.Routed x k p flow (s, { fw := [], psum := [] }) := by
  refine h.rest fun u hu _ hRole m hArrived => ?_
  rcases eq_or_ne u v with rfl | hNe
  · rw [hLane.sums_eq]
    exact hUsed m hArrived
  · exact absurd (hOthers u hu hNe) hRole

/-! ## One neuron -/

theorem below_both (hLeft : layout.Covers v k (2 * p)) (hRight : layout.Covers v k (2 * p + 1))
    (y : Nat → Int) : layout.below y v k p =
      layout.value y v k (2 * p) + layout.value y v k (2 * p + 1) := by
  rw [below_filter, if_pos hLeft, if_pos hRight]

theorem below_left (hLeft : layout.Covers v k (2 * p))
    (hRight : ¬layout.Covers v k (2 * p + 1)) (y : Nat → Int) :
    layout.below y v k p = layout.value y v k (2 * p) := by
  rw [below_filter, if_pos hLeft, if_neg hRight, add_zero]

theorem below_right (hLeft : ¬layout.Covers v k (2 * p))
    (hRight : layout.Covers v k (2 * p + 1)) (y : Nat → Int) :
    layout.below y v k p = layout.value y v k (2 * p + 1) := by
  rw [below_filter, if_neg hLeft, if_pos hRight, zero_add]

/-- The neighbour or the parent gets what stands below an adder. -/
theorem sends_below (hv : v < layout.numVNs)
    (hRole : layout.roleAt v k p = .plain ∧ cfg.fwEnabled = false ∨
      layout.roleAt v k p = .send ∧ cfg.sends = true) :
    layout.Sends x k p v n (n + 1) (Output.sums cfg [layout.linked x v k p n]) := by
  constructor
  · intro hSend
    have hOn : cfg.fwEnabled = true := by
      rcases hRole with ⟨hPlain, -⟩ | ⟨-, hSends⟩
      · rw [hSend] at hPlain
        cases hPlain
      · exact (Bool.and_eq_true_iff.mp hSends).1
    rw [Output.sums, if_pos hOn, seg_singleton]
  · intro hNot
    obtain ⟨hPlain, hOff⟩ := hRole.resolve_right fun h => hNot h.1
    rw [Output.sums, hOff, seg_singleton, carried, value_plain hv hPlain]
    simp [linked, psumPackage]

theorem sums_own (hv : v < layout.numVNs)
    (hCovers : layout.Covers v k (2 * p) ∨ layout.Covers v k (2 * p + 1))
    (hRole : layout.roleAt v k p = .plain ∧ cfg.fwEnabled = false ∨
      layout.roleAt v k p = .send ∧ cfg.sends = true) :
    ∀ pck ∈ (Output.sums cfg [layout.linked x v k p n]).psum,
      layout.Covers v (k + 1) p ∧ pck.vn = v := by
  intro pck hPck
  rcases hRole with ⟨hPlain, hOff⟩ | ⟨-, hSends⟩
  · rw [Output.sums, hOff] at hPck
    obtain rfl := List.mem_singleton.mp hPck
    refine ⟨?_, rfl⟩
    rcases roleAt_cases hv hCovers with ⟨hRole, -⟩ | ⟨hRole, -⟩ | ⟨-, hKept⟩
    · rw [hPlain] at hRole
      cases hRole
    · rw [hPlain] at hRole
      cases hRole
    · exact hKept
  · have hOn : cfg.fwEnabled = true := (Bool.and_eq_true_iff.mp hSends).1
    rw [Output.sums, if_pos hOn] at hPck
    cases hPck

theorem sums_single (pck : DataPackage) : (Output.sums cfg [pck]).fw.length ≤ 1 := by
  rw [Output.sums]
  split
  · exact Nat.le_refl 1
  · exact Nat.zero_le 1

/-- An adder of two operands that works for one neuron. -/
theorem AdderState.add (h : layout.AdderState x k p s flow) (hv : v < layout.numVNs)
    (hLive : layout.Live v k)
    (hCovers : layout.Covers v k (2 * p) ∨ layout.Covers v k (2 * p + 1))
    (hOthers : ∀ u < layout.numVNs, u ≠ v → layout.roleAt u k p = .absent)
    (hMode : cfg.configMode = .add21)
    (hLeft : cfg.leftChildEnabled = decide (layout.Covers v k (2 * p)))
    (hRight : cfg.rightChildEnabled = decide (layout.Covers v k (2 * p + 1)))
    (hRole : layout.roleAt v k p = .plain ∧ cfg.fwEnabled = false ∨
      layout.roleAt v k p = .send ∧ cfg.sends = true) :
    layout.Routed x k p flow (send cfg (route cfg p s)) := by
  have hSome : layout.roleAt v k p ≠ .absent := by
    rcases hRole with ⟨hPlain, -⟩ | ⟨hSend, -⟩
    · rw [hPlain]
      decide
    · rw [hSend]
      decide
  have hNot : layout.roleAt v k p ≠ .receive := by
    rcases hRole with ⟨hPlain, -⟩ | ⟨hSend, -⟩
    · rw [hPlain]
      decide
    · rw [hSend]
      decide
  have hLink : cfg.fwEnabled = false ∨ cfg.sends = true := hRole.imp And.right And.right
  obtain ⟨n, hLane⟩ := h.lane v hv hLive hSome
  have hOwn := sums_own (x := x) (n := n) hv hCovers hRole
  have hSends := sends_below (x := x) (n := n) hv hRole
  obtain ⟨left, right, forward, rfl⟩ :
      ∃ left right forward, s = waiting left right forward := ⟨_, _, _, h.waits⟩
  have hNone : ∀ {c : Nat}, c = 2 * p ∨ c = 2 * p + 1 → ¬layout.Covers v k c →
      ∀ u < layout.numVNs, layout.Live u k → ¬layout.Covers u k c := by
    intro c hc hFree u hu _
    rcases eq_or_ne u v with rfl | hNe
    · exact hFree
    · obtain ⟨hL, hR⟩ := not_covers_of_absent hu (hOthers u hu hNe)
      rcases hc with rfl | rfl
      · exact hL
      · exact hR
  by_cases hL : layout.Covers v k (2 * p)
  · rw [decide_eq_true hL] at hLeft
    by_cases hR : layout.Covers v k (2 * p + 1)
    · rw [decide_eq_true hR] at hRight
      have hLeftWaits : Waiting _ n flow.left left := hLane.left hL
      rcases hLeftWaits.cases with ⟨hAll, hEmpty⟩ | ⟨-, restLeft, hQueue, hNext⟩
      · rw [add_wait hMode hLeft hRight (.inl hEmpty)]
        exact h.rest_one hOthers hLane fun m hArrived => hAll ▸ hArrived.left hL
      · have hRightWaits : Waiting _ n flow.right right := hLane.right hR
        rcases hRightWaits.cases with ⟨hAll, hEmpty⟩ | ⟨-, restRight, hQueue', hNext'⟩
        · rw [add_wait hMode hLeft hRight (.inr hEmpty)]
          exact h.rest_one hOthers hLane fun m hArrived => hAll ▸ hArrived.right hR
        · obtain rfl : left = _ := hQueue
          obtain rfl : right = _ := hQueue'
          have hVn : (layout.carried x v k (2 * p) n).vn =
              (layout.carried x v k (2 * p + 1) n).vn := rfl
          rw [add_both hMode hLeft hRight hLink hVn]
          have hSum : psumPackage v ((layout.carried x v k (2 * p) n).data +
              (layout.carried x v k (2 * p + 1) n).data) = layout.linked x v k p n := by
            rw [linked, below_both hL hR]
            rfl
          change layout.Routed x k p flow (_, Output.sums cfg [psumPackage v _])
          rw [hSum]
          exact h.advance hv hLive hOthers hLane hSends hOwn (sums_single _) (fun _ => hNext)
            (absurd hL) (fun _ => hNext') (absurd hR) fun hReceive => absurd hReceive hNot
    · rw [decide_eq_false hR] at hRight
      obtain rfl : right = [] := h.right (hNone (.inr rfl) hR)
      have hLeftWaits : Waiting _ n flow.left left := hLane.left hL
      rcases hLeftWaits.cases with ⟨hAll, hEmpty⟩ | ⟨-, restLeft, hQueue, hNext⟩
      · obtain rfl : left = [] := hEmpty
        rw [pass_none hMode]
        exact h.rest_one hOthers hLane fun m hArrived => hAll ▸ hArrived.left hL
      · obtain rfl : left = _ := hQueue
        rw [pass_left hMode hRight hLink]
        have hPass : layout.carried x v k (2 * p) n = layout.linked x v k p n := by
          rw [linked, below_left hL hR, carried]
        rw [hPass]
        exact h.advance hv hLive hOthers hLane hSends hOwn (sums_single _) (fun _ => hNext)
          (absurd hL) (fun hRight => absurd hRight hR) (fun _ => rfl)
          fun hReceive => absurd hReceive hNot
  · have hR := hCovers.resolve_left hL
    rw [decide_eq_false hL] at hLeft
    obtain rfl : left = [] := h.left (hNone (.inl rfl) hL)
    have hRightWaits : Waiting _ n flow.right right := hLane.right hR
    rcases hRightWaits.cases with ⟨hAll, hEmpty⟩ | ⟨-, restRight, hQueue, hNext⟩
    · obtain rfl : right = [] := hEmpty
      rw [pass_none hMode]
      exact h.rest_one hOthers hLane fun m hArrived => hAll ▸ hArrived.right hR
    · obtain rfl : right = _ := hQueue
      rw [pass_right hMode hLeft hLink]
      have hPass : layout.carried x v k (2 * p + 1) n = layout.linked x v k p n := by
        rw [linked, below_right hL hR, carried]
      rw [hPass]
      exact h.advance hv hLive hOthers hLane hSends hOwn (sums_single _)
        (fun hLeft => absurd hLeft hL) (fun _ => rfl) (fun _ => hNext) (absurd hR)
        fun hReceive => absurd hReceive hNot

/-- An adder of three operands. -/
theorem AdderState.gather (h : layout.AdderState x k p s flow) (hv : v < layout.numVNs)
    (hLive : layout.Live v k) (hL : layout.Covers v k (2 * p))
    (hR : layout.Covers v k (2 * p + 1))
    (hOthers : ∀ u < layout.numVNs, u ≠ v → layout.roleAt u k p = .absent)
    (hMode : cfg.configMode = .add31) (hLeft : cfg.leftChildEnabled = true)
    (hRight : cfg.rightChildEnabled = true) (hLink : cfg.receives = true)
    (hRole : layout.roleAt v k p = .receive) :
    layout.Routed x k p flow (send cfg (route cfg p s)) := by
  obtain ⟨n, hLane⟩ := h.lane v hv hLive (by rw [hRole]; decide)
  obtain ⟨left, right, forward, rfl⟩ :
      ∃ left right forward, s = waiting left right forward := ⟨_, _, _, h.waits⟩
  have hKept : layout.Covers v (k + 1) p := by
    rcases roleAt_cases hv (.inl hL) with ⟨hOther, -⟩ | ⟨-, hKept⟩ | ⟨hOther, -⟩
    · rw [hRole] at hOther
      cases hOther
    · exact hKept
    · rw [hRole] at hOther
      cases hOther
  have hLeftWaits : Waiting _ n flow.left left := hLane.left hL
  rcases hLeftWaits.cases with ⟨hAll, hEmpty⟩ | ⟨-, restLeft, hQueue, hNext⟩
  · rw [gather_wait hMode hLeft hRight hLink (.inl hEmpty)]
    exact h.rest_one hOthers hLane fun m hArrived => hAll ▸ hArrived.left hL
  have hRightWaits : Waiting _ n flow.right right := hLane.right hR
  rcases hRightWaits.cases with ⟨hAll, hEmpty⟩ | ⟨-, restRight, hQueue', hNext'⟩
  · rw [gather_wait hMode hLeft hRight hLink (.inr (.inl hEmpty))]
    exact h.rest_one hOthers hLane fun m hArrived => hAll ▸ hArrived.right hR
  have hForwardWaits : Waiting _ n flow.forward forward := hLane.forward hRole
  rcases hForwardWaits.cases with ⟨hAll, hEmpty⟩ | ⟨-, restForward, hQueue'', hNext''⟩
  · rw [gather_wait hMode hLeft hRight hLink (.inr (.inr hEmpty))]
    exact h.rest_one hOthers hLane fun m hArrived => hAll ▸ hArrived.forward hRole
  obtain rfl : left = _ := hQueue
  obtain rfl : right = _ := hQueue'
  obtain rfl : forward = _ := hQueue''
  have hVn : (layout.carried x v k (2 * p) n).vn =
      (layout.carried x v k (2 * p + 1) n).vn := rfl
  have hVn' : (layout.carried x v k (2 * p + 1) n).vn =
      (layout.linked x v k (partner p) n).vn := rfl
  rw [gather_all hMode hLeft hRight hLink hVn hVn']
  have hSum : psumPackage v ((layout.carried x v k (2 * p) n).data +
      (layout.carried x v k (2 * p + 1) n).data +
      (layout.linked x v k (partner p) n).data) = layout.carried x v (k + 1) p n := by
    have hValue := value_receive (x := fun m => x m n) hv hRole
    rw [below_both hL hR] at hValue
    exact (congrArg (psumPackage v) hValue).symm
  change layout.Routed x k p flow (_, { fw := [], psum := [psumPackage v _] })
  rw [hSum]
  refine h.advance hv hLive hOthers hLane ⟨fun hSend => ?_, fun _ => ?_⟩ (fun pck hPck => ?_)
    (Nat.zero_le 1) (fun _ => hNext) (absurd hL) (fun _ => hNext') (absurd hR) fun _ => hNext''
  · rw [hRole] at hSend
    cases hSend
  · rw [seg_singleton]
    simp [carried, psumPackage]
  · obtain rfl := List.mem_singleton.mp hPck
    exact ⟨hKept, rfl⟩

/-! ## Two neurons -/

theorem filter_stream (f : Nat → Int) (v a b : Nat) :
    (seg (fun w => psumPackage v (f w)) a b).filter (fun pck => pck.vn = v) =
      seg (fun w => psumPackage v (f w)) a b := by
  refine List.filter_eq_self.mpr fun pck hPck => ?_
  obtain ⟨w, -, rfl⟩ := List.mem_map.mp hPck
  exact decide_eq_true rfl

theorem filter_other (f : Nat → Int) {u v : Nat} (hNe : u ≠ v) (a b : Nat) :
    (seg (fun w => psumPackage u (f w)) a b).filter (fun pck => pck.vn = v) = [] := by
  refine List.filter_eq_nil_iff.mpr fun pck hPck => ?_
  obtain ⟨w, -, rfl⟩ := List.mem_map.mp hPck
  rw [decide_eq_true_iff]
  exact hNe

/-- An adder that passes on two neurons, each of them from its own child. -/
theorem AdderState.advance_two (h : layout.AdderState x 0 p s flow)
    (hv : v + 1 < layout.numVNs) (hLeft : layout.Covers v 0 (2 * p))
    (hRight : layout.Covers (v + 1) 0 (2 * p + 1))
    (hOthers : ∀ u < layout.numVNs, u ≠ v → u ≠ v + 1 → layout.roleAt u 0 p = .absent)
    (hNot : layout.roleAt v 0 p ≠ .receive ∧ layout.roleAt (v + 1) 0 p ≠ .receive)
    {n' m m' : Nat} (hLane : layout.Lane x 0 p v n s flow)
    (hLane' : layout.Lane x 0 p (v + 1) m s flow) {left right forward : Fifo} {out : Output}
    (hMore : n ≤ n') (hMore' : m ≤ m') (hSends : layout.Sends x 0 p v n n' out)
    (hSends' : layout.Sends x 0 p (v + 1) m m' out)
    (hProgress : min (n + 1) flow.left.length ≤ n')
    (hProgress' : min (m + 1) flow.right.length ≤ m')
    (hOwn : ∀ pck ∈ out.psum, layout.Covers v 1 p ∧ pck.vn = v ∨
      layout.Covers (v + 1) 1 p ∧ pck.vn = v + 1)
    (hSingle : out.fw.length ≤ 1)
    (hWaits : Waiting (layout.carried x v 0 (2 * p)) n' flow.left left)
    (hWaits' : Waiting (layout.carried x (v + 1) 0 (2 * p + 1)) m' flow.right right) :
    layout.Routed x 0 p flow (waiting left right forward, out) := by
  have hv' : v < layout.numVNs := Nat.lt_of_succ_lt hv
  have hNe : v ≠ v + 1 := (Nat.succ_ne_self v).symm
  have hLive : ∀ u, layout.Live u 0 := fun _ => .inl rfl
  have hNew : layout.Lane x 0 p v n' (waiting left right forward) (flow.emit out) :=
    hLane.emit hMore hSends (fun _ => hWaits)
      (fun hOther => absurd hOther (disjoint_zero hv' hv hNe hRight))
      fun hReceive => absurd hReceive hNot.1
  have hNew' : layout.Lane x 0 p (v + 1) m' (waiting left right forward) (flow.emit out) :=
    hLane'.emit hMore' hSends'
      (fun hOther => absurd hOther (disjoint_zero hv hv' hNe.symm hLeft)) (fun _ => hWaits')
      fun hReceive => absurd hReceive hNot.2
  refine ⟨⟨rfl, fun u hu _ hRole => ?_, fun hNone => absurd hLeft (hNone v hv' (hLive v)),
    fun hNone => absurd hRight (hNone (v + 1) hv (hLive _)), fun pck hPck => ?_⟩,
    fun u hu _ hRole i hArrived => ?_, hSingle⟩
  · rcases eq_or_ne u v with rfl | hFirst
    · exact ⟨n', hNew⟩
    · rcases eq_or_ne u (v + 1) with rfl | hSecond
      · exact ⟨m', hNew'⟩
      · exact absurd (hOthers u hu hFirst hSecond) hRole
  · rcases List.mem_append.mp hPck with hBefore | hNow
    · exact h.own pck hBefore
    · rcases hOwn pck hNow with ⟨hCovers, hVn⟩ | ⟨hCovers, hVn⟩
      · exact ⟨v, hv', hLive v, hCovers, hVn⟩
      · exact ⟨v + 1, hv, hLive _, hCovers, hVn⟩
  · rcases eq_or_ne u v with rfl | hFirst
    · have hLength := hArrived.left hLeft
      rw [hLane.sums_eq, hNew.sums_eq]
      omega
    · rcases eq_or_ne u (v + 1) with rfl | hSecond
      · have hLength := hArrived.right hRight
        rw [hLane'.sums_eq, hNew'.sums_eq]
        omega
      · exact absurd (hOthers u hu hFirst hSecond) hRole

/-- What two neurons below an adder of the first level carry. -/
theorem carried_two (hv : v + 1 < layout.numVNs) (hLeft : layout.Covers v 0 (2 * p))
    (hRight : layout.Covers (v + 1) 0 (2 * p + 1)) :
    layout.carried x v 0 (2 * p) = layout.linked x v 0 p ∧
      layout.carried x (v + 1) 0 (2 * p + 1) = layout.linked x (v + 1) 0 p := by
  have hv' : v < layout.numVNs := Nat.lt_of_succ_lt hv
  have hNe : v ≠ v + 1 := (Nat.succ_ne_self v).symm
  have hFree := disjoint_zero hv' hv hNe hRight
  have hFree' := disjoint_zero hv hv' hNe.symm hLeft
  constructor
  · funext w
    rw [linked, below_left hLeft hFree, carried]
  · funext w
    rw [linked, below_right hFree' hRight, carried]

theorem carried_plain (hv : v < layout.numVNs) (hRole : layout.roleAt v k p = .plain) :
    layout.carried x v (k + 1) p = layout.linked x v k p := by
  funext w
  rw [carried, value_plain hv hRole, linked]

/-- What a neuron that keeps an adder sends, next to the package of another one. -/
theorem sends_plain (hv : v < layout.numVNs) (hRole : layout.roleAt v k p = .plain) {n' : Nat}
    {out : Output} (hOut : out.psum.filter (fun pck => pck.vn = v) =
      seg (layout.linked x v k p) n n') : layout.Sends x k p v n n' out where
  link hSend := by
    rw [hRole] at hSend
    cases hSend
  psum _ := by rw [hOut, carried_plain hv hRole]

theorem sends_link (hRole : layout.roleAt v k p = .send) {n' : Nat} {out : Output}
    (hOut : out.fw = seg (layout.linked x v k p) n n') : layout.Sends x k p v n n' out where
  link _ := hOut
  psum hNot := absurd hRole hNot

theorem covers_of_plain (hv : v < layout.numVNs) (hRole : layout.roleAt v k p = .plain) :
    layout.Covers v (k + 1) p := by
  rcases roleAt_cases hv (covers_of_role hv (by rw [hRole]; decide)) with
    ⟨hOther, -⟩ | ⟨hOther, -⟩ | ⟨-, hKept⟩
  · rw [hRole] at hOther
    cases hOther
  · rw [hRole] at hOther
    cases hOther
  · exact hKept

theorem linked_vn {a b : Nat} {pck : DataPackage} (h : pck ∈ seg (layout.linked x v k p) a b) :
    pck.vn = v := by
  obtain ⟨w, -, rfl⟩ := List.mem_map.mp h
  rfl

/-- An adder that one of two neurons leaves over its forwarding link. -/
theorem AdderState.share (h : layout.AdderState x 0 p s flow) (hv : v + 1 < layout.numVNs)
    (hL : layout.Covers v 0 (2 * p)) (hR : layout.Covers (v + 1) 0 (2 * p + 1))
    (hOthers : ∀ u < layout.numVNs, u ≠ v → u ≠ v + 1 → layout.roleAt u 0 p = .absent)
    (hMode : cfg.configMode = .add11PlusFw11) (hLeft : cfg.leftChildEnabled = true)
    (hRight : cfg.rightChildEnabled = true) (hLink : cfg.sends = true)
    (hRoles : p % 2 = 0 ∧ layout.roleAt v 0 p = .send ∧ layout.roleAt (v + 1) 0 p = .plain ∨
      p % 2 = 1 ∧ layout.roleAt v 0 p = .plain ∧ layout.roleAt (v + 1) 0 p = .send) :
    layout.Routed x 0 p flow (send cfg (route cfg p s)) := by
  have hv' : v < layout.numVNs := Nat.lt_of_succ_lt hv
  have hLive : ∀ u, layout.Live u 0 := fun _ => .inl rfl
  obtain ⟨hSame, hSame'⟩ := carried_two (x := x) hv hL hR
  obtain ⟨n, hLane⟩ := h.lane v hv' (.inl rfl) (by
    rcases hRoles with ⟨-, hRole, -⟩ | ⟨-, hRole, -⟩ <;> rw [hRole] <;> decide)
  obtain ⟨m, hLane'⟩ := h.lane (v + 1) hv (.inl rfl) (by
    rcases hRoles with ⟨-, -, hRole⟩ | ⟨-, -, hRole⟩ <;> rw [hRole] <;> decide)
  obtain ⟨left, right, forward, rfl⟩ :
      ∃ left right forward, s = waiting left right forward := ⟨_, _, _, h.waits⟩
  have hWaits : Waiting (layout.carried x v 0 (2 * p)) n flow.left left := hLane.left hL
  have hWaits' : Waiting (layout.carried x (v + 1) 0 (2 * p + 1)) m flow.right right :=
    hLane'.right hR
  have hVn : p % 2 = 0 → ∀ pck ∈ right, pck.vn ≠ 0 := by
    intro _ pck hPck
    rw [hWaits'.queue_eq, hSame'] at hPck
    rw [linked_vn hPck]
    exact Nat.succ_ne_zero v
  obtain ⟨n', hMore, hProgress, hNext, hHead⟩ := hWaits.next
  obtain ⟨m', hMore', hProgress', hNext', hHead'⟩ := hWaits'.next
  rw [hSame] at hHead
  rw [hSame'] at hHead'
  rw [ASwitch.share hMode hLeft hRight hLink hVn]
  rcases hRoles with ⟨hEven, hSend, hPlain⟩ | ⟨hOdd, hPlain, hSend⟩
  · rw [if_pos hEven]
    refine h.advance_two hv hL hR hOthers ⟨by rw [hSend]; decide, by rw [hPlain]; decide⟩ hLane
      hLane' hMore hMore' (sends_link hSend hHead) (sends_plain hv hPlain ?_) hProgress hProgress'
      (fun pck hPck => .inr ⟨covers_of_plain hv hPlain, ?_⟩) (List.length_take_le 1 left) hNext
      hNext'
    · change (right.take 1).filter _ = _
      rw [hHead']
      exact filter_stream _ _ _ _
    · change pck ∈ right.take 1 at hPck
      rw [hHead'] at hPck
      exact linked_vn hPck
  · rw [if_neg (by omega)]
    refine h.advance_two hv hL hR hOthers ⟨by rw [hPlain]; decide, by rw [hSend]; decide⟩ hLane
      hLane' hMore hMore' (sends_plain hv' hPlain ?_) (sends_link hSend hHead') hProgress
      hProgress' (fun pck hPck => .inl ⟨covers_of_plain hv' hPlain, ?_⟩)
      (List.length_take_le 1 right) hNext hNext'
    · change (left.take 1).filter _ = _
      rw [hHead]
      exact filter_stream _ _ _ _
    · change pck ∈ left.take 1 at hPck
      rw [hHead] at hPck
      exact linked_vn hPck

/-- An adder that two neurons of one multiplier keep. -/
theorem AdderState.both (h : layout.AdderState x 0 p s flow) (hv : v + 1 < layout.numVNs)
    (hL : layout.Covers v 0 (2 * p)) (hR : layout.Covers (v + 1) 0 (2 * p + 1))
    (hOthers : ∀ u < layout.numVNs, u ≠ v → u ≠ v + 1 → layout.roleAt u 0 p = .absent)
    (hMode : cfg.configMode = .fw22) (hPlain : layout.roleAt v 0 p = .plain)
    (hPlain' : layout.roleAt (v + 1) 0 p = .plain) :
    layout.Routed x 0 p flow (send cfg (route cfg p s)) := by
  have hv' : v < layout.numVNs := Nat.lt_of_succ_lt hv
  have hNe : v ≠ v + 1 := (Nat.succ_ne_self v).symm
  obtain ⟨hSame, hSame'⟩ := carried_two (x := x) hv hL hR
  obtain ⟨n, hLane⟩ := h.lane v hv' (.inl rfl) (by rw [hPlain]; decide)
  obtain ⟨m, hLane'⟩ := h.lane (v + 1) hv (.inl rfl) (by rw [hPlain']; decide)
  obtain ⟨left, right, forward, rfl⟩ :
      ∃ left right forward, s = waiting left right forward := ⟨_, _, _, h.waits⟩
  have hWaits : Waiting (layout.carried x v 0 (2 * p)) n flow.left left := hLane.left hL
  have hWaits' : Waiting (layout.carried x (v + 1) 0 (2 * p + 1)) m flow.right right :=
    hLane'.right hR
  have hQueue := hWaits.queue_eq
  have hQueue' := hWaits'.queue_eq
  rw [hSame] at hQueue
  rw [hSame'] at hQueue'
  rw [forward_both hMode]
  refine h.advance_two hv hL hR hOthers ⟨by rw [hPlain]; decide, by rw [hPlain']; decide⟩ hLane
    hLane' hWaits.used hWaits'.used (sends_plain hv' hPlain ?_) (sends_plain hv hPlain' ?_)
    (Nat.min_le_right _ _) (Nat.min_le_right _ _) (fun pck hPck => ?_) (Nat.zero_le 1)
    hWaits.all hWaits'.all
  · change (left ++ right).filter _ = _
    rw [hQueue, hQueue', List.filter_append]
    rw [show layout.linked x v 0 p = fun w => psumPackage v _ from rfl, filter_stream,
      show layout.linked x (v + 1) 0 p = fun w => psumPackage (v + 1) _ from rfl,
      filter_other _ hNe.symm, List.append_nil]
  · change (left ++ right).filter _ = _
    rw [hQueue, hQueue', List.filter_append]
    rw [show layout.linked x v 0 p = fun w => psumPackage v _ from rfl, filter_other _ hNe,
      show layout.linked x (v + 1) 0 p = fun w => psumPackage (v + 1) _ from rfl,
      filter_stream, List.nil_append]
  · rcases List.mem_append.mp hPck with hFirst | hSecond
    · rw [hQueue] at hFirst
      exact .inl ⟨covers_of_plain hv' hPlain, linked_vn hFirst⟩
    · rw [hQueue'] at hSecond
      exact .inr ⟨covers_of_plain hv hPlain', linked_vn hSecond⟩

/-- An adder without an incomplete neuron below it. -/
theorem AdderState.idle (h : layout.AdderState x k p s flow)
    (hEmpty : ∀ v < layout.numVNs, layout.Live v k →
      ¬layout.Covers v k (2 * p) ∧ ¬layout.Covers v k (2 * p + 1))
    (hMode : cfg.configMode = .add21 ∨ cfg.configMode = .fw22) :
    layout.Routed x k p flow (send cfg (route cfg p s)) := by
  have hLeft := h.left fun v hv hLive => (hEmpty v hv hLive).1
  have hRight := h.right fun v hv hLive => (hEmpty v hv hLive).2
  have hRest : send cfg (route cfg p s) = (s, { fw := [], psum := [] }) := by
    rw [h.waits, hLeft, hRight]
    rcases hMode with hMode | hMode
    · exact pass_none hMode
    · exact forward_both hMode
  rw [hRest]
  refine h.rest fun v hv hLive hRole => ?_
  exact absurd (covers_of_role hv hRole) (not_or.mpr (hEmpty v hv hLive))

/-- Every adder of the compiled tree does its job. -/
theorem AdderState.routed (h : layout.AdderState x k p s flow) (hJob : layout.Job k p cfg) :
    layout.Routed x k p flow (send cfg (route cfg p s)) := by
  rcases hJob with ⟨hEmpty, -, hMode⟩ |
    ⟨v, hv, hLive, hCovers, hOthers, hMode, hLeft, hRight, hRole⟩ |
    ⟨v, hv, hLive, hL, hR, hOthers, hMode, hLeft, hRight, hLink, hRole, -⟩ |
    ⟨v, hv, rfl, hL, hR, hOthers, hMode, hLeft, hRight, hLink, hRoles⟩ |
    ⟨v, hv, rfl, hL, hR, hPlain, hPlain', -, -, hOthers, hMode, -, -⟩
  · exact h.idle hEmpty hMode
  · refine h.add hv hLive hCovers hOthers hMode hLeft hRight (hRole.imp ?_ id)
    exact fun ⟨hPlain, hOff, _⟩ => ⟨hPlain, hOff⟩
  · exact h.gather hv hLive hL hR hOthers hMode hLeft hRight hLink hRole
  · refine h.share hv hL hR hOthers hMode hLeft hRight hLink (hRoles.imp ?_ ?_)
    · exact fun ⟨hEven, hSend, hPlain, _⟩ => ⟨hEven, hSend, hPlain⟩
    · exact fun ⟨hOdd, hPlain, hSend, _⟩ => ⟨hOdd, hPlain, hSend⟩
  · exact h.both hv hL hR hOthers hMode hPlain hPlain'

end

end Layout

end Stonne
