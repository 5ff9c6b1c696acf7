import Stonne.Reduction.Lanes
import Stonne.Reduction.Reduce

/-!
# The contracts of the adders

Every connection of the tree carries the stream of at most one incomplete neuron, except that two
neurons of one multiplier each may share a connection to memory.  An adder keeps this for the
connections that it writes if it holds for those that it reads.
-/

namespace Stonne

open Dataflow LevelState

namespace ASNetwork

/-- What an adder has received and sent. -/
def flowOf (net : ASNetwork) (h : History ReduceWire DataPackage) (id : SwitchId) : Flow where
  left := h.received (links id).left
  right := h.received (links id).right
  forward := if (net.config id).receives then h.received (links id).forwarding else []
  link := if (net.config id).sends then h.sent (links id).forwarding else []
  psum := h.sent ((links id).out (net.config id))

section

variable {net : ASNetwork} {id : SwitchId} {h h' : History ReduceWire DataPackage}
  {arrived : ReduceWire → List DataPackage}

theorem left_mem (net : ASNetwork) (id : SwitchId) : (links id).left ∈ net.wiring.ins id :=
  List.mem_cons_self

theorem right_mem (net : ASNetwork) (id : SwitchId) : (links id).right ∈ net.wiring.ins id :=
  List.mem_cons_of_mem _ List.mem_cons_self

theorem forwarding_mem_ins (hReceives : (net.config id).receives = true) :
    (links id).forwarding ∈ net.wiring.ins id := by
  simp [wiring, ASwitch.Links.ins, hReceives]

theorem out_mem (net : ASNetwork) (id : SwitchId) :
    (links id).out (net.config id) ∈ net.wiring.outs id :=
  List.mem_cons_self

theorem forwarding_mem_outs (hSends : (net.config id).sends = true) :
    (links id).forwarding ∈ net.wiring.outs id := by
  simp [wiring, ASwitch.Links.outs, hSends]

theorem flowOf_congr (hIn : ∀ w ∈ net.wiring.ins id, h'.received w = h.received w)
    (hOut : ∀ w ∈ net.wiring.outs id, h'.sent w = h.sent w) :
    net.flowOf h' id = net.flowOf h id := by
  rw [flowOf, flowOf, hIn _ (left_mem net id), hIn _ (right_mem net id), hOut _ (out_mem net id)]
  congr 1
  · split
    · rename_i hReceives
      exact hIn _ (forwarding_mem_ins hReceives)
    · rfl
  · split
    · rename_i hSends
      exact hOut _ (forwarding_mem_outs hSends)
    · rfl

/-- What an adder reads of its forwarding link. -/
def readForwarding (net : ASNetwork) (id : SwitchId) (arrived : ReduceWire → List DataPackage) :
    List DataPackage :=
  if (net.config id).receives then arrived (links id).forwarding else []

/-- A cycle of an adder, with the histories of its connections. -/
theorem flowOf_fire {out : ASwitch.Output}
    (hIn : ∀ w ∈ net.wiring.ins id, h'.received w = h.received w ++ arrived w)
    (hOut : ∀ w ∈ net.wiring.outs id,
      h'.sent w = h.sent w ++ out.on (links id) (net.config id) w)
    (hOff : (net.config id).sends = false → out.fw = []) :
    net.flowOf h' id = ((net.flowOf h id).arrive (arrived (links id).left)
      (arrived (links id).right) (net.readForwarding id arrived)).emit out := by
  have hSeparate := links_separate id (net.config id)
  rw [flowOf, hIn _ (left_mem net id), hIn _ (right_mem net id), hOut _ (out_mem net id),
    ASwitch.Output.on, if_pos rfl]
  simp only [Flow.emit, Flow.arrive, flowOf, readForwarding, Flow.mk.injEq, true_and, and_true]
  constructor
  · split
    · rename_i hReceives
      exact hIn _ (forwarding_mem_ins hReceives)
    · rfl
  · split
    · rename_i hSends
      rw [hOut _ (forwarding_mem_outs hSends), ASwitch.Output.on,
        if_neg hSeparate.outForwarding.symm, if_pos rfl]
    · rename_i hNot
      rw [hOff (eq_false_of_ne_true hNot), List.append_nil]

end

end ASNetwork

namespace Layout

variable {L : Nat}

/-- The stream of a connection to memory: each neuron that is complete there has its own sums in
their order. -/
structure Collected (layout : Layout L) (x : Nat → Nat → Int) (k p : Nat)
    (stream : List DataPackage) : Prop where
  own : ∀ pck ∈ stream, ∃ v < layout.numVNs, layout.Live v k ∧ layout.span v (k + 1) = (p, p) ∧
    pck.vn = v
  sums : ∀ v < layout.numVNs, layout.Live v k → layout.span v (k + 1) = (p, p) →
    stream.filter (fun pck => pck.vn = v) = seg (layout.carried x v (k + 1) p) 0
      (stream.filter (fun pck => pck.vn = v)).length

/-- What is sent on a connection of the tree. -/
def Sound (layout : Layout L) (x : Nat → Nat → Int) : ReduceWire → List DataPackage → Prop
  | .input l c, stream => layout.Carries x (L - l - 1) c stream
  | .forwarding l j, stream =>
      ∀ p, ASNetwork.pairRight p = j → layout.LinkCarries x (L - l - 1) p stream
  | .memory l p, stream => (L ≤ l → stream = []) ∧ layout.Collected x (L - l - 1) p stream
  | .output, stream => stream = []

/-- A forwarding link takes one package in a cycle. -/
def Fits : ReduceWire → List DataPackage → Prop
  | .forwarding _ _, new => new.length ≤ 1
  | _, _ => True

/-- An adder with the histories of its connections. -/
def Rel (layout : Layout L) (net : ASNetwork) (x : Nat → Nat → Int) (id : SwitchId) (s : ASwitch)
    (h : History ReduceWire DataPackage) : Prop :=
  layout.AdderState x (L - id.1 - 1) id.2 s (net.flowOf h id)

section

variable {layout : Layout L} {net : ASNetwork} {x : Nat → Nat → Int} {k l p v : Nat}
  {s : ASwitch} {h : History ReduceWire DataPackage} {arrived : ReduceWire → List DataPackage}

theorem job_at (hNet : layout.Configured net) (hl : l < L) (p : Nat) :
    layout.Job (L - l - 1) p (net.config (l, p)) := by
  have hJob := job_of_configured hNet (k := L - l - 1) (by omega) p
  rwa [show L - (L - l - 1) - 1 = l by omega] at hJob

/-- The sum of a neuron goes to memory from the adder where it is complete. -/
theorem Job.forward_iff {cfg : ASwitchConfig} (h : layout.Job k p cfg) (hv : v < layout.numVNs)
    (hLive : layout.Live v k) (hCovers : layout.Covers v (k + 1) p) :
    cfg.forwardToMemory = true ↔ layout.span v (k + 1) = (p, p) := by
  have hRole := roleAt_of_covers hv hCovers
  have hSome : layout.roleAt v k p ≠ .absent := by
    rcases hRole with hRole | hRole <;> rw [hRole] <;> decide
  have hNot : layout.roleAt v k p ≠ .send := by
    rcases hRole with hRole | hRole <;> rw [hRole] <;> decide
  rcases h with ⟨hEmpty, -, -⟩ | ⟨u, hu, -, -, hOthers, -, -, -, hRoles⟩ |
    ⟨u, hu, -, -, -, hOthers, -, -, -, -, -, hForward⟩ |
    ⟨u, hu, rfl, -, -, hOthers, -, -, -, -, hRoles⟩ |
    ⟨u, hu, rfl, -, -, -, -, hSpan, hSpan', hOthers, -, -, hForward⟩
  · exact absurd (covers_of_role hv hSome) (not_or.mpr (hEmpty v hv hLive))
  · obtain rfl : v = u := by_contra fun hNe => hSome (hOthers v hv hNe)
    rcases hRoles with ⟨-, -, hForward⟩ | ⟨hSend, -⟩
    · rw [hForward, decide_eq_true_iff]
    · exact absurd hSend hNot
  · obtain rfl : v = u := by_contra fun hNe => hSome (hOthers v hv hNe)
    rw [hForward, decide_eq_true_iff]
  · have hOne : v = u ∨ v = u + 1 := by
      by_contra hNe
      rw [not_or] at hNe
      exact hSome (hOthers v hv hNe.1 hNe.2)
    rcases hRoles with ⟨-, hSend, -, hForward⟩ | ⟨-, -, hSend, hForward⟩
    · rcases hOne with rfl | rfl
      · exact absurd hSend hNot
      · rw [hForward, decide_eq_true_iff]
    · rcases hOne with rfl | rfl
      · rw [hForward, decide_eq_true_iff]
      · exact absurd hSend hNot
  · have hOne : v = u ∨ v = u + 1 := by
      by_contra hNe
      rw [not_or] at hNe
      exact hSome (hOthers v hv hNe.1 hNe.2)
    rw [hForward]
    rcases hOne with rfl | rfl
    · exact iff_of_true rfl hSpan
    · exact iff_of_true rfl hSpan'

/-- A neuron that is not complete at an adder that keeps it goes on. -/
theorem live_succ (hCovers : layout.Covers v (k + 1) p)
    (hNot : layout.span v (k + 1) ≠ (p, p)) : layout.Live v (k + 1) := by
  obtain ⟨hFirst, hLast⟩ := hCovers
  refine .inr ?_
  by_contra hOver
  exact hNot (Prod.ext (by omega) (by omega))

/-- What an adder sends up is as its parent, or the memory, expects. -/
theorem AdderState.sound_out (hState : layout.AdderState x (L - l - 1) p s (net.flowOf h (l, p)))
    (hNet : layout.Configured net) (hl : l < L) :
    layout.Sound x ((ASNetwork.links (l, p)).out (net.config (l, p)))
      (h.sent ((ASNetwork.links (l, p)).out (net.config (l, p)))) := by
  have hJob := job_at hNet hl p
  have hOwn := hState.own
  have hLanes : ∀ v < layout.numVNs, layout.Live v (L - l - 1) →
      layout.Covers v (L - l - 1 + 1) p → ∃ n,
        (net.flowOf h (l, p)).psum.filter (fun pck => pck.vn = v) =
          seg (layout.carried x v (L - l - 1 + 1) p) 0 n := by
    intro v hv hLive hCovers
    have hRole := roleAt_of_covers hv hCovers
    obtain ⟨n, hLane⟩ := hState.lane v hv hLive (by
      rcases hRole with hRole | hRole <;> rw [hRole] <;> decide)
    exact ⟨n, hLane.psum (by rcases hRole with hRole | hRole <;> rw [hRole] <;> decide)⟩
  have hPsum : h.sent ((ASNetwork.links (l, p)).out (net.config (l, p))) =
      (net.flowOf h (l, p)).psum := rfl
  rw [hPsum]
  generalize (net.flowOf h (l, p)).psum = psum at *
  by_cases hForward : (net.config (l, p)).forwardToMemory = true
  · rw [ASwitch.Links.out, if_pos hForward]
    refine ⟨fun hOver => absurd hl (Nat.not_lt_of_le hOver), fun pck hPck => ?_,
      fun v hv hLive hSpan => ?_⟩
    · obtain ⟨v, hv, hLive, hCovers, hVn⟩ := hOwn pck hPck
      exact ⟨v, hv, hLive, (hJob.forward_iff hv hLive hCovers).mp hForward, hVn⟩
    · obtain ⟨n, hStream⟩ := hLanes v hv hLive (covers_of_span hSpan)
      rw [hStream, length_seg, Nat.sub_zero]
  · -- every neuron that is kept here is incomplete
    have hGoesOn : ∀ pck ∈ psum, ∃ v < layout.numVNs, layout.Live v (L - l - 1) ∧
        layout.Live v (L - l - 1 + 1) ∧ layout.Covers v (L - l - 1 + 1) p ∧ pck.vn = v := by
      intro pck hPck
      obtain ⟨v, hv, hLive, hCovers, hVn⟩ := hOwn pck hPck
      refine ⟨v, hv, hLive, live_succ hCovers fun hSpan => ?_, hCovers, hVn⟩
      exact hForward ((hJob.forward_iff hv hLive hCovers).mpr hSpan)
    rw [ASwitch.Links.out, if_neg hForward]
    rcases Nat.eq_zero_or_pos l with rfl | hPos
    · change psum = []
      refine List.eq_nil_iff_forall_not_mem.mpr fun pck hPck => ?_
      obtain ⟨v, hv, -, hLive, -, -⟩ := hGoesOn pck hPck
      have hLast : (layout.span v L).2 < 2 ^ (L - L) := span_lt hv (Nat.le_refl L)
      rw [show L - 0 - 1 + 1 = L by omega] at hLive
      rw [Nat.sub_self, pow_zero] at hLast
      have hLess := hLive.resolve_left (by omega)
      omega
    · have hHeight : L - (l - 1) - 1 = L - l - 1 + 1 := by omega
      have hParent : (ASNetwork.links (l, p)).parent = .input (l - 1) p :=
        if_neg (Nat.pos_iff_ne_zero.mp hPos)
      rw [hParent, Sound, hHeight]
      refine ⟨fun v hv hLive hCovers => ?_, fun hNone => ?_⟩
      · have hSame : psum.filter (fun pck => pck.vn = v) = psum := by
          refine List.filter_eq_self.mpr fun pck hPck => decide_eq_true ?_
          obtain ⟨u, hu, -, -, hCoversU, hVn⟩ := hGoesOn pck hPck
          by_contra hNe
          rw [hVn] at hNe
          exact disjoint hu hv hNe hLive hCovers hCoversU
        obtain ⟨n, hStream⟩ := hLanes v hv (hLive.pred hv) hCovers
        rw [hSame] at hStream
        rw [hStream, length_seg, Nat.sub_zero]
      · refine List.eq_nil_iff_forall_not_mem.mpr fun pck hPck => ?_
        obtain ⟨v, hv, -, hLive, hCovers, -⟩ := hGoesOn pck hPck
        exact hNone v hv hLive hCovers

/-- What an adder sends over its forwarding link is as its neighbour expects. -/
theorem AdderState.sound_forwarding
    (hState : layout.AdderState x (L - l - 1) p s (net.flowOf h (l, p)))
    (hNet : layout.Configured net) (hl : l < L) (hSends : (net.config (l, p)).sends = true) :
    layout.Sound x (.forwarding l (ASNetwork.pairRight p))
      (h.sent (.forwarding l (ASNetwork.pairRight p))) := by
  intro q hPair v hv hLive hRole
  have hWants : layout.Wants (L - l - 1) q .send := ⟨v, hv, hLive, hRole⟩
  have hLevel : L - (L - l - 1) - 1 = l := by omega
  -- the other adder of the pair does not send
  obtain rfl : q = p := by
    by_contra hNe
    have hOther : q = partner p := by
      unfold ASNetwork.pairRight at hPair
      unfold partner
      split at hPair <;> split at hPair <;> split <;> omega
    have hSender := (sends_iff hNet (k := L - l - 1) (by omega) p).mp (by rwa [hLevel])
    obtain ⟨u, hu, hLiveU, hRoleU⟩ := hSender
    have hReceiver : layout.Wants (L - l - 1) q .receive :=
      ⟨u, hu, hLiveU, by rw [hOther]; exact (role_partner hu).2 hRoleU⟩
    rcases link_cases hNet (k := L - l - 1) (by omega) q with
      ⟨-, hNot, -⟩ | ⟨-, -, hNot⟩ | ⟨-, hNot, -⟩
    · exact hNot hWants
    · exact hNot hReceiver
    · exact hNot hWants
  obtain ⟨n, hLane⟩ := hState.lane v hv hLive (by rw [hRole]; decide)
  have hLink := hLane.link hRole
  have hFlow : (net.flowOf h (l, q)).link = h.sent (.forwarding l (ASNetwork.pairRight q)) :=
    if_pos hSends
  rw [hFlow] at hLink
  rw [hLink, length_seg, Nat.sub_zero]

theorem pairRight_partner (hp : 0 < p) :
    ASNetwork.pairRight (partner p) = ASNetwork.pairRight p := by
  unfold partner ASNetwork.pairRight
  split <;> split <;> omega

/-- What comes to an adder is as it expects. -/
theorem Rel.arrive (hRel : layout.Rel net x (l, p) s h) (hNet : layout.Configured net)
    (hl : l < L)
    (hSound : ∀ w ∈ net.wiring.ins (l, p), layout.Sound x w (h.received w ++ arrived w)) :
    layout.AdderState x (L - l - 1) p
      (ASwitch.waiting (s.inputPsumLeftFifo ++ arrived (ASNetwork.links (l, p)).left)
        (s.inputPsumRightFifo ++ arrived (ASNetwork.links (l, p)).right)
        (s.inputFwFifo ++ net.readForwarding (l, p) arrived))
      ((net.flowOf h (l, p)).arrive (arrived (ASNetwork.links (l, p)).left)
        (arrived (ASNetwork.links (l, p)).right) (net.readForwarding (l, p) arrived)) := by
  have hLeft := hSound _ (ASNetwork.left_mem net (l, p))
  have hRight := hSound _ (ASNetwork.right_mem net (l, p))
  change layout.Carries x (L - l - 1) (p * 2) _ at hLeft
  change layout.Carries x (L - l - 1) (p * 2 + 1) _ at hRight
  rw [Nat.mul_comm p 2] at hLeft hRight
  refine AdderState.arrive hRel hLeft hRight fun v hv hLive hRole => ?_
  have hWants : layout.Wants (L - l - 1) p .receive := ⟨v, hv, hLive, hRole⟩
  have hReceives := (receives_iff hNet (k := L - l - 1) (by omega) p).mpr hWants
  rw [show L - (L - l - 1) - 1 = l by omega] at hReceives
  have hForwarding := hSound _ (ASNetwork.forwarding_mem_ins hReceives)
  have hRead : (net.flowOf h (l, p)).forward ++ net.readForwarding (l, p) arrived =
      h.received (.forwarding l (ASNetwork.pairRight p)) ++
        arrived (.forwarding l (ASNetwork.pairRight p)) := by
    simp only [ASNetwork.flowOf, ASNetwork.readForwarding, if_pos hReceives]
    rfl
  rw [hRead]
  exact hForwarding (partner p)
    (pairRight_partner (wants_inside (k := L - l - 1) (by omega) (.inr hWants)).1)

/-- What an adder does in a cycle, with the histories of its connections. -/
theorem Rel.fire {h' : History ReduceWire DataPackage} (hRel : layout.Rel net x (l, p) s h)
    (hNet : layout.Configured net) (hl : l < L)
    (hIn : ∀ w ∈ net.wiring.ins (l, p), h'.received w = h.received w ++ arrived w)
    (hOut : ∀ w ∈ net.wiring.outs (l, p),
      h'.sent w = h.sent w ++ (net.program (l, p) s arrived).2 w)
    (hSound : ∀ w ∈ net.wiring.ins (l, p), layout.Sound x w (h'.received w))
    (hFits : ∀ w ∈ net.wiring.ins (l, p), Fits w (arrived w)) :
    ∃ out flow, (net.program (l, p) s arrived).2 =
        (fun w => ASwitch.Output.on out (ASNetwork.links (l, p)) (net.config (l, p)) w) ∧
      flow = (net.flowOf h (l, p)).arrive (arrived (ASNetwork.links (l, p)).left)
        (arrived (ASNetwork.links (l, p)).right) (net.readForwarding (l, p) arrived) ∧
      net.flowOf h' (l, p) = flow.emit out ∧
      layout.Routed x (L - l - 1) p flow ((net.program (l, p) s arrived).1, out) := by
  have hArrive := hRel.arrive hNet hl fun w hw => hIn w hw ▸ hSound w hw
  have hRouted := hArrive.routed (job_at hNet hl p)
  have hSingle : (net.readForwarding (l, p) arrived).length ≤ 1 := by
    unfold ASNetwork.readForwarding
    split
    · rename_i hReceives
      exact hFits _ (ASNetwork.forwarding_mem_ins hReceives)
    · exact Nat.zero_le 1
  have hFire : ASwitch.fireLinks (net.config (l, p)) p (ASNetwork.links (l, p)) s arrived =
      ASwitch.send (net.config (l, p)) (ASwitch.route (net.config (l, p)) p
        (ASwitch.waiting (s.inputPsumLeftFifo ++ arrived (ASNetwork.links (l, p)).left)
          (s.inputPsumRightFifo ++ arrived (ASNetwork.links (l, p)).right)
          (s.inputFwFifo ++ net.readForwarding (l, p) arrived))) := by
    have hWaits : s = ASwitch.waiting _ _ _ := AdderState.waits hRel
    rw [ASwitch.fireLinks]
    nth_rewrite 1 [hWaits]
    refine ASwitch.fire_waiting hSingle fun hOff => ?_
    rw [hOff]
    rfl
  rw [← hFire] at hRouted
  refine ⟨_, _, rfl, rfl, ASNetwork.flowOf_fire hIn hOut fun hOff => ?_, hRouted⟩
  exact ASwitch.fire_fw _ _ _ hOff

theorem fits_on {out : ASwitch.Output} (hSingle : out.fw.length ≤ 1) {w : ReduceWire}
    (hw : w ∈ net.wiring.outs (l, p)) :
    Fits w (out.on (ASNetwork.links (l, p)) (net.config (l, p)) w) := by
  rw [ASNetwork.mem_outs] at hw
  rcases hw with rfl | ⟨-, rfl⟩
  · rcases ASNetwork.out_cases l p (net.config (l, p)) with hOut | ⟨-, hOut⟩ | ⟨-, hOut⟩
    · rw [hOut]
      trivial
    · rw [hOut]
      trivial
    · rw [hOut]
      trivial
  · have hSeparate := ASNetwork.links_separate (l, p) (net.config (l, p))
    have hOther : ReduceWire.forwarding l (ASNetwork.pairRight p) ≠
        (ASNetwork.links (l, p)).out (net.config (l, p)) := hSeparate.outForwarding.symm
    change (ASwitch.Output.on out _ _ _).length ≤ 1
    rw [ASwitch.Output.on, if_neg hOther]
    split
    · exact hSingle
    · exact Nat.zero_le 1

/-- The adders of the compiled tree keep the contracts of its connections. -/
theorem contract (hNet : layout.Configured net) (hL : 0 < L) (x : Nat → Nat → Int) :
    Contract net.wiring net.program net.cycleOrder (layout.Rel net x) (layout.Sound x) Fits := by
  have hInside : ∀ {id : SwitchId}, id ∈ net.cycleOrder → id.1 < L := by
    intro id hId
    rw [← hNet.1]
    exact ((ASNetwork.mem_cycleOrder (paired_of_configured hNet) (by rw [hNet.1]; exact hL)).mp
      hId).1
  refine ⟨?_, ?_, ?_, ?_⟩
  · rintro ⟨l, p⟩ s h h' hIn hOut hRel
    rw [Rel, ASNetwork.flowOf_congr hIn hOut]
    exact hRel
  · rintro ⟨l, p⟩ s h h' arrived hId hRel hIn hOut - hSound hFits
    obtain ⟨out, flow, hSent, -, hFlow, hRouted⟩ :=
      hRel.fire hNet (hInside hId) hIn hOut hSound hFits
    refine ⟨?_, fun w hw => ?_⟩
    · rw [Rel, hFlow]
      exact hRouted.state
    · rw [hSent]
      exact fits_on hRouted.single hw
  · rintro ⟨l, p⟩ s h hId hRel w hw
    have hState : layout.AdderState x (L - l - 1) p s (net.flowOf h (l, p)) := hRel
    rcases ASNetwork.mem_outs.mp hw with rfl | ⟨hSends, rfl⟩
    · exact hState.sound_out hNet (hInside hId)
    · exact hState.sound_forwarding hNet (hInside hId) hSends
  · rintro (- | - | - | -)
    · trivial
    · exact Nat.zero_le 1
    · trivial
    · trivial

end

end Layout

end Stonne
