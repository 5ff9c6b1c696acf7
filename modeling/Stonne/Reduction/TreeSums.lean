import Stonne.Reduction.TreeRun

/-!
# The sums of a run

In every run the tree sends the sums of a neuron to memory from one adder, one for each wave and
in their order, as soon as the multipliers of the neuron have sent their products of the wave.
-/

namespace Stonne

open Dataflow LevelState

/-- The tree adds up the products of `numVNs` neurons, wave by wave. -/
structure AddsUp (run : Nat → TreeState) (delivered : Nat → Nat → Nat) (x : Nat → Nat → Int)
    (numVNs : Nat) (first size : Nat → Nat) : Prop where
  /-- No assertion fails. -/
  holds : ∀ t id, ((run t).switches id).failed = false
  /-- No package is overwritten. -/
  kept : ∀ t w, ((run t).conns w).overwritten = false
  own : ∀ t w, ∀ pck ∈ (run t).emitted w, pck.vn < numVNs
  /-- Only neurons of one multiplier come out at the same place. -/
  apart : ∀ t w, ∀ pck ∈ (run t).emitted w, ∀ pck' ∈ (run t).emitted w,
    pck.vn ≠ pck'.vn → size pck.vn = 1 ∧ size pck'.vn = 1
  /-- The sums of a neuron come out at one place, in the order of the waves and not before their
  products. -/
  sums : ∀ v < numVNs, ∃ exit, ∀ t, ∃ n, (∀ m < size v, n ≤ delivered t (first v + m)) ∧
    ∀ w, ((run t).emitted w).filter (fun pck => pck.vn = v) =
      if w = exit then
        (List.range n).map fun i => psumPackage v (∑ m ∈ Finset.range (size v), x (first v + m) i)
      else []
  /-- Every wave whose products are sent comes out. -/
  complete : ∀ v < numVNs, ∀ n, (∀ m < size v, ∃ t, n ≤ delivered t (first v + m)) →
    ∃ t w, n ≤ (((run t).emitted w).filter (fun pck => pck.vn = v)).length

namespace Layout

variable {L : Nat}

/-- The bit at height `k` that takes up the product of a multiplier. -/
def trace (layout : Layout L) (v m : Nat) : Nat → Nat
  | 0 => m
  | k + 1 => layout.into v k (layout.trace v m k)

section

variable {layout : Layout L} {v k c p m : Nat}

theorem covers_into (hv : v < layout.numVNs) (c : Nat) :
    layout.Covers v (k + 1) (layout.into v k c) := by
  have hOrder := span_ordered hv (k + 1)
  unfold Covers into
  omega

theorem covers_trace (hv : v < layout.numVNs) (hm : layout.Covers v 0 m) (k : Nat) :
    layout.Covers v k (layout.trace v m k) := by
  cases k with
  | zero => exact hm
  | succ k => exact covers_into hv _

/-- A bit is taken up by the adder above it, or by the neighbour of this adder. -/
theorem into_cases (hv : v < layout.numVNs) (hc : layout.Covers v k c) :
    layout.into v k c = c / 2 ∨
      layout.roleAt v k (layout.into v k c) = .receive ∧
        c / 2 = partner (layout.into v k c) := by
  rcases roleAt_of_covers hv (covers_into hv c) with hRole | hRole
  · rcases (into_receive hv hRole hc).mp rfl with hSame | hPartner
    · exact .inl hSame.symm
    · exact .inr ⟨hRole, hPartner⟩
  · exact .inl ((into_plain hv hRole hc).mp rfl).symm

/-- The sum of a neuron is complete at one height. -/
theorem exists_exit (hL : 0 < L) (hv : v < layout.numVNs) :
    ∃ k < L, layout.Live v k ∧ ∃ p, layout.span v (k + 1) = (p, p) := by
  have hComplete : ∀ k, k ≤ L → layout.Live v k ∨
      ∃ k' < k, layout.Live v k' ∧ ∃ p, layout.span v (k' + 1) = (p, p) := by
    intro k
    induction k with
    | zero => exact fun _ => .inl (.inl rfl)
    | succ k ih =>
        intro hk
        rcases ih (Nat.le_of_succ_le hk) with hLive | ⟨k', hLess, hExit⟩
        · by_cases hNext : layout.Live v (k + 1)
          · exact .inl hNext
          · have hOrder := span_ordered hv (k + 1)
            refine .inr ⟨k, Nat.lt_succ_self k, hLive, (layout.span v (k + 1)).1, ?_⟩
            have hNot : ¬(layout.span v (k + 1)).1 < (layout.span v (k + 1)).2 :=
              fun hLess => hNext (.inr hLess)
            exact Prod.ext rfl (by simp only; omega)
        · exact .inr ⟨k', hLess.trans (Nat.lt_succ_self k), hExit⟩
  rcases hComplete L (Nat.le_refl L) with hLive | hExit
  · have hLast : (layout.span v L).2 < 2 ^ (L - L) := span_lt hv (Nat.le_refl L)
    rw [Nat.sub_self, pow_zero] at hLast
    have hLess := hLive.resolve_left hL.ne'
    omega
  · exact hExit

theorem Live.mono (hv : v < layout.numVNs) {j : Nat} (hj : j ≤ k) (h : layout.Live v k) :
    layout.Live v j := by
  induction k with
  | zero => exact .inl (Nat.le_zero.mp hj)
  | succ k ih =>
      rcases Nat.eq_or_lt_of_le hj with rfl | hLess
      · exact h
      · exact ih (Nat.le_of_lt_succ hLess) (h.pred hv)

/-- Neurons whose sums are complete at the same adder have one multiplier each. -/
theorem exit_shared {u : Nat} (hu : u < layout.numVNs) (hv : v < layout.numVNs) (hNe : u ≠ v)
    (hLive : layout.Live v k) (hLive' : layout.Live u k)
    (hSpan : layout.span v (k + 1) = (p, p)) (hSpan' : layout.span u (k + 1) = (p, p)) :
    layout.size u = 1 ∧ layout.size v = 1 := by
  have hChild := (covers_of_span hSpan).child hv
  have hChild' := (covers_of_span hSpan').child hu
  have hBoth : ∀ {u v : Nat}, v + 1 < layout.numVNs → u = v + 1 →
      layout.shift (v + 1) = 2 * p + 1 → layout.span v 1 = (p, p) →
      layout.span (v + 1) 1 = (p, p) → layout.size u = 1 ∧ layout.size v = 1 := by
    rintro u v hu rfl hBoundary hSpan hSpan'
    rcases shared_zero hu hBoundary with
      ⟨-, -, -, hNot⟩ | ⟨-, -, -, hNot⟩ | ⟨-, -, -, -, hSingle, hSingle'⟩
    · exact absurd (covers_of_span hSpan) hNot
    · exact absurd (covers_of_span hSpan') hNot
    · exact ⟨hSingle', hSingle⟩
  rcases Nat.eq_zero_or_pos k with rfl | hPos
  · rcases hChild with hLeft | hRight
    · have hRight := hChild'.resolve_left (disjoint_zero hu hv hNe hLeft)
      obtain ⟨rfl, hBoundary⟩ := neighbours hu hv hNe hLeft hRight
      exact hBoth hu rfl hBoundary hSpan hSpan'
    · have hLeft := hChild'.resolve_right (disjoint_zero hu hv hNe hRight)
      obtain ⟨rfl, hBoundary⟩ := neighbours hv hu hNe.symm hLeft hRight
      exact (hBoth hv rfl hBoundary hSpan' hSpan).symm
  · obtain ⟨hEven, hOdd⟩ := hLive.even_odd hv hPos
    have hCovers : layout.Covers v k (2 * p) ∧ layout.Covers v k (2 * p + 1) := by
      unfold Covers at *
      omega
    exact absurd hChild' (not_or.mpr
      ⟨disjoint hu hv hNe hLive hCovers.1, disjoint hu hv hNe hLive hCovers.2⟩)

theorem exit_unique (hv : v < layout.numVNs) {k' p' : Nat} (hLive : layout.Live v k)
    (hSpan : layout.span v (k + 1) = (p, p)) (hLive' : layout.Live v k')
    (hSpan' : layout.span v (k' + 1) = (p', p')) : k = k' ∧ p = p' := by
  have hNot : ∀ {j q : Nat}, layout.span v (j + 1) = (q, q) → ¬layout.Live v (j + 1) := by
    intro j q hSame hNext
    have hLess := hNext.resolve_left (Nat.succ_ne_zero j)
    rw [hSame] at hLess
    exact Nat.lt_irrefl q hLess
  have hEq : k = k' := by
    rcases Nat.lt_trichotomy k k' with hLess | hEq | hMore
    · exact absurd (hLive'.mono hv hLess) (hNot hSpan)
    · exact hEq
    · exact absurd (hLive.mono hv hMore) (hNot hSpan')
  subst hEq
  exact ⟨rfl, congrArg Prod.fst (hSpan.symm.trans hSpan')⟩

end

section

variable {layout : Layout L} {net : ASNetwork} {x : Nat → Nat → Int}
  {d : Deliveries (layout.shift layout.numVNs)} {vnOf : Nat → Nat} {t k l v c p m n : Nat}

/-- The sums of a neuron that an adder has sent before cycle `t`. -/
def sumsAt (layout : Layout L) (net : ASNetwork) (h : History ReduceWire DataPackage)
    (k p v : Nat) : Nat :=
  layout.sums k p v (net.flowOf h (L - k - 1, p))

/-- What is sent stays sent. -/
theorem sent_mono (net : ASNetwork) (products : Nat → Nat → List DataPackage) (t : Nat)
    (w : ReduceWire) :
    ∃ more, (TreeState.history net products (t + 1)).sent w =
      (TreeState.history net products t).sent w ++ more :=
  ⟨_, List.append_assoc _ _ _⟩

theorem length_sent_mono (products : Nat → Nat → List DataPackage) (w : ReduceWire) :
    Monotone fun t => ((TreeState.history net products t).sent w).length := by
  refine monotone_nat_of_le_succ fun t => ?_
  obtain ⟨more, hMore⟩ := sent_mono net products t w
  simp only [hMore, List.length_append]
  exact Nat.le_add_right _ _

theorem sumsAt_mono (products : Nat → Nat → List DataPackage) (k p v : Nat) :
    Monotone fun t => layout.sumsAt net (TreeState.history net products t) k p v := by
  refine monotone_nat_of_le_succ fun t => ?_
  simp only [sumsAt, sums, ASNetwork.flowOf]
  split
  · split
    · exact length_sent_mono products _ (Nat.le_succ t)
    · exact Nat.le_refl _
  · obtain ⟨more, hMore⟩ := sent_mono net products t
      ((ASNetwork.links (L - k - 1, p)).out (net.config (L - k - 1, p)))
    rw [hMore, List.filter_append, List.length_append]
    exact Nat.le_add_right _ _

/-- An adder of the compiled tree is visited in every cycle. -/
theorem mem_order_of_role (hNet : layout.Configured net) (hk : k < L) (hv : v < layout.numVNs)
    (hRole : layout.roleAt v k p ≠ .absent) : (L - k - 1, p) ∈ net.cycleOrder :=
  (mem_order hNet (by omega)).mpr ⟨by simp only; omega, lt_of_role hk hv hRole⟩

theorem lane_at (hNet : layout.Configured net)
    (hVn : ∀ v < layout.numVNs, ∀ m, layout.Covers v 0 m → vnOf m = v) (hk : k < L)
    (hv : v < layout.numVNs) (hLive : layout.Live v k) (hRole : layout.roleAt v k p ≠ .absent)
    (t : Nat) : ∃ s, layout.Lane x k p v
      (layout.sumsAt net (TreeState.history net (d.products vnOf x) t) k p v) s
      (net.flowOf (TreeState.history net (d.products vnOf x) t) (L - k - 1, p)) := by
  have hRel := (run_state (x := x) hNet (by omega) d hVn t).keeps.related _
    (mem_order_of_role hNet hk hv hRole)
  rw [Rel] at hRel
  simp only [show L - (L - k - 1) - 1 = k by omega] at hRel
  obtain ⟨n, hLane⟩ := hRel.lane v hv hLive hRole
  rw [sumsAt, hLane.sums_eq]
  exact ⟨_, hLane⟩

/-- The packages that have been sent to the bit `c` at height `k` before cycle `t`. -/
def sentTo (L : Nat) (h : History ReduceWire DataPackage) (k c : Nat) : Nat :=
  (h.sent (.input (L - k - 1) c)).length

theorem received_le (hNet : layout.Configured net) (hL : 0 < L)
    (hVn : ∀ v < layout.numVNs, ∀ m, layout.Covers v 0 m → vnOf m = v) (t : Nat)
    (w : ReduceWire) :
    ((TreeState.history net (d.products vnOf x) t).received w).length ≤
      ((TreeState.history net (d.products vnOf x) t).sent w).length := by
  rw [(run_state (x := x) hNet hL d hVn t).keeps.queued w, List.length_append]
  exact Nat.le_add_right _ _

/-! ### Sums follow their operands -/

theorem sumsAt_le (hNet : layout.Configured net)
    (hVn : ∀ v < layout.numVNs, ∀ m, layout.Covers v 0 m → vnOf m = v) (hk : k < L)
    (hv : v < layout.numVNs) (hLive : layout.Live v k) (hc : layout.Covers v k c) (t : Nat) :
    layout.sumsAt net (TreeState.history net (d.products vnOf x) t) k (c / 2) v ≤
      sentTo L (TreeState.history net (d.products vnOf x) t) k c := by
  have hCovers : layout.Covers v k (2 * (c / 2)) ∧ c = 2 * (c / 2) ∨
      layout.Covers v k (2 * (c / 2) + 1) ∧ c = 2 * (c / 2) + 1 := by
    rcases Nat.mod_two_eq_zero_or_one c with hEven | hOdd
    · have hSame : c = 2 * (c / 2) := by omega
      exact .inl ⟨hSame ▸ hc, hSame⟩
    · have hSame : c = 2 * (c / 2) + 1 := by omega
      exact .inr ⟨hSame ▸ hc, hSame⟩
  have hRole : layout.roleAt v k (c / 2) ≠ .absent := by
    intro hAbsent
    obtain ⟨hLeft, hRight⟩ := not_covers_of_absent hv hAbsent
    exact hCovers.elim (fun h => hLeft h.1) fun h => hRight h.1
  obtain ⟨s, hLane⟩ := lane_at (x := x) (d := d) hNet hVn hk hv hLive hRole t
  have hRead := received_le (x := x) (d := d) hNet (by omega) hVn t (.input (L - k - 1) c)
  refine le_trans ?_ hRead
  rcases hCovers with ⟨hLeft, hSame⟩ | ⟨hRight, hSame⟩
  · have hUsed := (hLane.left hLeft).used
    change _ ≤ (History.received _ (ReduceWire.input (L - k - 1) (c / 2 * 2))).length at hUsed
    rwa [Nat.mul_comm, ← hSame] at hUsed
  · have hUsed := (hLane.right hRight).used
    change _ ≤ (History.received _ (ReduceWire.input (L - k - 1) (c / 2 * 2 + 1))).length at hUsed
    rwa [Nat.mul_comm, ← hSame] at hUsed

theorem pos_of_receive (hk : k < L) (hv : v < layout.numVNs) (hLive : layout.Live v k)
    (hRole : layout.roleAt v k p = .receive) : 0 < p :=
  (wants_inside hk (.inr ⟨v, hv, hLive, hRole⟩)).1

/-- What is sent over the forwarding link of a joined pair. -/
theorem sumsAt_partner (hNet : layout.Configured net) (hk : k < L) (hv : v < layout.numVNs)
    (hLive : layout.Live v k) (hRole : layout.roleAt v k p = .receive)
    (h : History ReduceWire DataPackage) : layout.sumsAt net h k (partner p) v =
      (h.sent (.forwarding (L - k - 1) (ASNetwork.pairRight p))).length := by
  have hSend := (role_partner hv).1 hRole
  have hSends := (sends_iff hNet hk (partner p)).mpr ⟨v, hv, hLive, hSend⟩
  rw [sumsAt, sums, if_pos hSend, ASNetwork.flowOf]
  simp only [hSends, if_true]
  rw [ASNetwork.links, pairRight_partner (pos_of_receive hk hv hLive hRole)]

theorem sumsAt_le_partner (hNet : layout.Configured net)
    (hVn : ∀ v < layout.numVNs, ∀ m, layout.Covers v 0 m → vnOf m = v) (hk : k < L)
    (hv : v < layout.numVNs) (hLive : layout.Live v k)
    (hRole : layout.roleAt v k p = .receive) (t : Nat) :
    layout.sumsAt net (TreeState.history net (d.products vnOf x) t) k p v ≤
      layout.sumsAt net (TreeState.history net (d.products vnOf x) t) k (partner p) v := by
  obtain ⟨s, hLane⟩ := lane_at (x := x) (d := d) (p := p) hNet hVn hk hv hLive
    (by rw [hRole]; decide) t
  have hReceives := (receives_iff hNet hk p).mpr ⟨v, hv, hLive, hRole⟩
  have hUsed := (hLane.forward hRole).used
  rw [sumsAt_partner hNet hk hv hLive hRole]
  refine le_trans ?_ (received_le (x := x) (d := d) hNet (by omega) hVn t _)
  have hFlow : (net.flowOf (TreeState.history net (d.products vnOf x) t)
      (L - k - 1, p)).forward = (TreeState.history net (d.products vnOf x) t).received
        (.forwarding (L - k - 1) (ASNetwork.pairRight p)) := if_pos hReceives
  rwa [hFlow] at hUsed

/-- A sum comes after everything that it takes up. -/
theorem sumsAt_into (hNet : layout.Configured net)
    (hVn : ∀ v < layout.numVNs, ∀ m, layout.Covers v 0 m → vnOf m = v) (hk : k < L)
    (hv : v < layout.numVNs) (hLive : layout.Live v k) (hc : layout.Covers v k c) (t : Nat) :
    layout.sumsAt net (TreeState.history net (d.products vnOf x) t) k (layout.into v k c) v ≤
      sentTo L (TreeState.history net (d.products vnOf x) t) k c := by
  have hSent := sumsAt_le (x := x) (d := d) hNet hVn hk hv hLive hc t
  rcases into_cases hv hc with hSame | ⟨hRole, hPartner⟩
  · rw [hSame]
    exact hSent
  · rw [hPartner] at hSent
    exact (sumsAt_le_partner hNet hVn hk hv hLive hRole t).trans hSent

/-- An adder sends the sums of an incomplete neuron to its parent. -/
theorem sentTo_succ (hNet : layout.Configured net)
    (hVn : ∀ v < layout.numVNs, ∀ m, layout.Covers v 0 m → vnOf m = v) (hk : k + 1 < L)
    (hv : v < layout.numVNs) (hLive : layout.Live v (k + 1))
    (hCovers : layout.Covers v (k + 1) p) (t : Nat) :
    sentTo L (TreeState.history net (d.products vnOf x) t) (k + 1) p =
      layout.sumsAt net (TreeState.history net (d.products vnOf x) t) k p v := by
  have hJob := job_of_configured hNet (k := k) (by omega) p
  have hRole := roleAt_of_covers hv hCovers
  have hNot : layout.roleAt v k p ≠ .send := by
    rcases hRole with hRole | hRole <;> rw [hRole] <;> decide
  have hForward : ¬(net.config (L - k - 1, p)).forwardToMemory = true := by
    rw [hJob.forward_iff hv (hLive.pred hv) hCovers]
    intro hSpan
    have hLess := hLive.resolve_left (Nat.succ_ne_zero k)
    rw [hSpan] at hLess
    exact Nat.lt_irrefl p hLess
  have hOut : (ASNetwork.links (L - k - 1, p)).out (net.config (L - k - 1, p)) =
      .input (L - (k + 1) - 1) p := by
    rw [ASwitch.Links.out, if_neg hForward]
    change (if L - k - 1 = 0 then _ else _) = _
    rw [if_neg (by omega)]
    congr 1
  have hSound := (run_state (x := x) hNet (by omega) d hVn t).keeps.sound
    (.input (L - (k + 1) - 1) p)
  rw [Sound, show L - (L - (k + 1) - 1) - 1 = k + 1 by omega] at hSound
  have hStream := hSound.covered v hv hLive hCovers
  rw [sumsAt, sums, if_neg hNot, ASNetwork.flowOf, hOut, sentTo]
  nth_rewrite 2 [hStream]
  rw [show layout.carried x v (k + 1) p = fun w => psumPackage v _ from rfl, filter_stream,
    length_seg, Nat.sub_zero]

/-- A product comes before the sums that it is taken up in. -/
theorem sentTo_trace (hNet : layout.Configured net)
    (hVn : ∀ v < layout.numVNs, ∀ m, layout.Covers v 0 m → vnOf m = v) (hk : k < L)
    (hv : v < layout.numVNs) (hLive : layout.Live v k) (hm : layout.Covers v 0 m) (t : Nat) :
    sentTo L (TreeState.history net (d.products vnOf x) t) k (layout.trace v m k) ≤
      d.delivered t m := by
  induction k with
  | zero =>
      have hSent := (run_state (x := x) hNet hk d hVn t).sent m (hm.lt_used hv)
      rw [sentTo, trace, Nat.sub_zero, hSent, fed, length_seg, Nat.sub_zero]
  | succ k ih =>
      have hBefore := hLive.pred hv
      rw [sentTo_succ hNet hVn hk hv hLive (covers_trace hv hm (k + 1))]
      exact (sumsAt_into hNet hVn (Nat.lt_of_succ_lt hk) hv hBefore
        (covers_trace hv hm k) t).trans (ih (Nat.lt_of_succ_lt hk) hBefore)

/-! ### Operands become sums -/

/-- An adder to which `n` packages of a neuron have come at every input sends one more sum, as
long as it has not sent `n`. -/
theorem progress (hNet : layout.Configured net)
    (hVn : ∀ v < layout.numVNs, ∀ m, layout.Covers v 0 m → vnOf m = v) (hk : k < L)
    (hv : v < layout.numVNs) (hLive : layout.Live v k) (hRole : layout.roleAt v k p ≠ .absent)
    (hLeft : layout.Covers v k (2 * p) →
      n ≤ sentTo L (TreeState.history net (d.products vnOf x) t) k (2 * p))
    (hRight : layout.Covers v k (2 * p + 1) →
      n ≤ sentTo L (TreeState.history net (d.products vnOf x) t) k (2 * p + 1))
    (hForward : layout.roleAt v k p = .receive →
      n ≤ layout.sumsAt net (TreeState.history net (d.products vnOf x) t) k (partner p) v) :
    min (layout.sumsAt net (TreeState.history net (d.products vnOf x) t) k p v + 1) n ≤
      layout.sumsAt net (TreeState.history net (d.products vnOf x) (t + 1)) k p v := by
  have hState := run_state (x := x) hNet (by omega) d hVn t
  have hNext := run_state (x := x) hNet (by omega) d hVn (t + 1)
  have hOrder := ASNetwork.readersFirst (paired_of_configured hNet)
  have hBorder := border hNet (by omega)
  have hId := mem_order_of_role hNet hk hv hRole
  have hReceived : ∀ w ∈ net.wiring.ins (L - k - 1, p),
      (TreeState.history net (d.products vnOf x) (t + 1)).received w =
        (TreeState.history net (d.products vnOf x) t).received w ++
          inbox net.wiring (TreeState.run net (d.products vnOf x) t).net.store
            (L - k - 1, p) w := fun w hw => hBorder.round_received hId hw
  have hRead : ∀ w ∈ net.wiring.ins (L - k - 1, p),
      (TreeState.history net (d.products vnOf x) (t + 1)).received w =
        (TreeState.history net (d.products vnOf x) t).sent w := by
    intro w hw
    rw [hReceived w hw, inbox, if_pos hw, hState.keeps.queued w]
  obtain ⟨out, flow, -, hFlow, hEmit, hRouted⟩ :=
    Rel.fire (hState.keeps.related _ hId) hNet (by omega) hReceived
      (fun w hw => hBorder.round_sent hOrder (fun _ => inlet_of_arrivals hNet (by omega) d) hId hw)
      (fun w hw => by rw [hRead w hw]; exact hState.keeps.sound w)
      fun w hw => by rw [inbox, if_pos hw]; exact hState.keeps.fits w
  have hInputs : flow.left = (TreeState.history net (d.products vnOf x) t).sent
        (.input (L - k - 1) (2 * p)) ∧
      flow.right = (TreeState.history net (d.products vnOf x) t).sent
        (.input (L - k - 1) (2 * p + 1)) ∧
      ((net.config (L - k - 1, p)).receives = true →
        flow.forward = (TreeState.history net (d.products vnOf x) t).sent
          (.forwarding (L - k - 1) (ASNetwork.pairRight p))) := by
    rw [hFlow, Nat.mul_comm 2 p]
    refine ⟨?_, ?_, fun hReceives => ?_⟩
    · exact (hReceived _ (ASNetwork.left_mem net _)).symm.trans
        (hRead _ (ASNetwork.left_mem net _))
    · exact (hReceived _ (ASNetwork.right_mem net _)).symm.trans
        (hRead _ (ASNetwork.right_mem net _))
    · have hw := ASNetwork.forwarding_mem_ins hReceives
      refine Eq.trans ?_ ((hReceived _ hw).symm.trans (hRead _ hw))
      simp only [Flow.arrive, ASNetwork.flowOf, ASNetwork.readForwarding, if_pos hReceives]
  have hSums : layout.sums k p v flow =
      layout.sumsAt net (TreeState.history net (d.products vnOf x) t) k p v := by
    rw [hFlow]
    rfl
  rw [show L - (L - k - 1) - 1 = k by omega] at hRouted
  have hProgress := hRouted.progress v hv hLive hRole n ⟨fun hCovers => ?_, fun hCovers => ?_,
    fun hReceive => ?_⟩
  · rw [hSums, ← hEmit] at hProgress
    exact hProgress
  · rw [hInputs.1]
    exact hLeft hCovers
  · rw [hInputs.2.1]
    exact hRight hCovers
  · have hReceives := (receives_iff hNet hk p).mpr ⟨v, hv, hLive, hReceive⟩
    rw [hInputs.2.2 hReceives, ← sumsAt_partner hNet hk hv hLive hReceive]
    exact hForward hReceive

/-- An adder to which `n` packages come sends `n` sums. -/
theorem eventually_sums (hNet : layout.Configured net)
    (hVn : ∀ v < layout.numVNs, ∀ m, layout.Covers v 0 m → vnOf m = v) (hk : k < L)
    (hv : v < layout.numVNs) (hLive : layout.Live v k)
    (hSent : ∀ c, layout.Covers v k c →
      ∃ t, n ≤ sentTo L (TreeState.history net (d.products vnOf x) t) k c)
    (hRole : layout.roleAt v k p ≠ .absent)
    (hForward : layout.roleAt v k p = .receive →
      ∃ t, n ≤ layout.sumsAt net (TreeState.history net (d.products vnOf x) t) k (partner p) v) :
    ∃ t, n ≤ layout.sumsAt net (TreeState.history net (d.products vnOf x) t) k p v := by
  have hInput : ∀ c, ∃ start, ∀ t, start ≤ t → layout.Covers v k c →
      n ≤ sentTo L (TreeState.history net (d.products vnOf x) t) k c := by
    intro c
    by_cases hc : layout.Covers v k c
    · obtain ⟨start, hStart⟩ := hSent c hc
      exact ⟨start, fun t ht _ => hStart.trans (length_sent_mono _ _ ht)⟩
    · exact ⟨0, fun t _ hCovers => absurd hCovers hc⟩
  have hLink : ∃ start, ∀ t, start ≤ t → layout.roleAt v k p = .receive →
      n ≤ layout.sumsAt net (TreeState.history net (d.products vnOf x) t) k (partner p) v := by
    by_cases hReceive : layout.roleAt v k p = .receive
    · obtain ⟨start, hStart⟩ := hForward hReceive
      exact ⟨start, fun t ht _ => hStart.trans (sumsAt_mono _ _ _ _ ht)⟩
    · exact ⟨0, fun t _ h => absurd h hReceive⟩
  obtain ⟨left, hLeft⟩ := hInput (2 * p)
  obtain ⟨right, hRight⟩ := hInput (2 * p + 1)
  obtain ⟨link, hLink⟩ := hLink
  refine exists_count (max left (max right link)) fun t ht => ?_
  exact progress hNet hVn hk hv hLive hRole (hLeft t (by omega)) (hRight t (by omega))
    (hLink t (by omega))

theorem eventually_kept (hNet : layout.Configured net)
    (hVn : ∀ v < layout.numVNs, ∀ m, layout.Covers v 0 m → vnOf m = v) (hk : k < L)
    (hv : v < layout.numVNs) (hLive : layout.Live v k)
    (hSent : ∀ c, layout.Covers v k c →
      ∃ t, n ≤ sentTo L (TreeState.history net (d.products vnOf x) t) k c)
    (hRole : layout.roleAt v k p ≠ .absent) :
    ∃ t, n ≤ layout.sumsAt net (TreeState.history net (d.products vnOf x) t) k p v := by
  refine eventually_sums hNet hVn hk hv hLive hSent hRole fun hReceive => ?_
  have hSend := (role_partner hv).1 hReceive
  refine eventually_sums hNet hVn hk hv hLive hSent (by rw [hSend]; decide) fun hOther => ?_
  rw [hSend] at hOther
  cases hOther

/-- All products of a wave come up through the tree. -/
theorem eventually_sent (hNet : layout.Configured net)
    (hVn : ∀ v < layout.numVNs, ∀ m, layout.Covers v 0 m → vnOf m = v) (hk : k < L)
    (hv : v < layout.numVNs) (hLive : layout.Live v k)
    (hDelivered : ∀ m, layout.Covers v 0 m → ∃ t, n ≤ d.delivered t m)
    (hc : layout.Covers v k c) :
    ∃ t, n ≤ sentTo L (TreeState.history net (d.products vnOf x) t) k c := by
  induction k generalizing c with
  | zero =>
      obtain ⟨t, ht⟩ := hDelivered c hc
      have hSent := (run_state (x := x) hNet hk d hVn t).sent c (hc.lt_used hv)
      refine ⟨t, ?_⟩
      rw [sentTo, Nat.sub_zero, hSent, fed, length_seg]
      exact ht
  | succ k ih =>
      have hBefore := hLive.pred hv
      have hRole := roleAt_of_covers hv hc
      obtain ⟨t, ht⟩ := eventually_kept (x := x) (d := d) (p := c) hNet hVn
        (Nat.lt_of_succ_lt hk) hv hBefore (fun c' hc' => ih (Nat.lt_of_succ_lt hk) hBefore hc')
        (by rcases hRole with hRole | hRole <;> rw [hRole] <;> decide)
      refine ⟨t, ?_⟩
      rw [sentTo_succ hNet hVn hk hv hLive hc]
      exact ht

/-! ### What comes out -/

/-- The sums of a neuron that have been sent to memory. -/
theorem sumsAt_exit (hNet : layout.Configured net) (hk : k < L) (hv : v < layout.numVNs)
    (hLive : layout.Live v k) (hSpan : layout.span v (k + 1) = (p, p))
    (h : History ReduceWire DataPackage) : layout.sumsAt net h k p v =
      ((h.sent (.memory (L - k - 1) p)).filter (fun pck => pck.vn = v)).length := by
  have hCovers := covers_of_span hSpan
  have hForward := ((job_of_configured hNet hk p).forward_iff hv hLive hCovers).mpr hSpan
  have hNot : layout.roleAt v k p ≠ .send := by
    rcases role_of_span hv hSpan with hRole | hRole <;> rw [hRole] <;> decide
  have hOut : (ASNetwork.links (L - k - 1, p)).out (net.config (L - k - 1, p)) =
      .memory (L - k - 1) p := if_pos hForward
  rw [sumsAt, sums, if_neg hNot, ASNetwork.flowOf, hOut]

/-- The packages of a neuron come out at its exit only. -/
theorem exit_of_mem (hv : v < layout.numVNs) (hLive : layout.Live v k) (hk : k < L)
    (hSpan : layout.span v (k + 1) = (p, p)) {w : ReduceWire} {stream : List DataPackage}
    (hOutlet : w.isOutlet = true) (hSound : layout.Sound x w stream) {pck : DataPackage}
    (hPck : pck ∈ stream) (hVn' : pck.vn = v) : w = .memory (L - k - 1) p := by
  rcases w with ⟨l, c⟩ | ⟨l, j⟩ | ⟨l, q⟩ | _
  · cases hOutlet
  · cases hOutlet
  · obtain ⟨hOver, hCollected⟩ := hSound
    have hl : l < L := by
      by_contra hNot
      rw [hOver (Nat.le_of_not_lt hNot)] at hPck
      cases hPck
    obtain ⟨u, hu, hLiveU, hSpanU, hVnU⟩ := hCollected.own pck hPck
    obtain rfl : u = v := hVnU.symm.trans hVn'
    obtain ⟨hHeight, rfl⟩ := exit_unique hu hLive hSpan hLiveU hSpanU
    rw [show l = L - k - 1 by omega]
  · rw [show stream = [] from hSound] at hPck
    cases hPck

/-- Nothing has come out that has not been sent. -/
theorem RunState.sent_eq {fed : Nat → List DataPackage} {st : TreeState}
    {h : History ReduceWire DataPackage} (hState : layout.RunState net x fed st h)
    {w : ReduceWire} (hOutlet : w.isOutlet = true) :
    h.sent w = st.emitted w ++ st.net.store.recv w := by
  rw [← hState.emitted w hOutlet]
  exact hState.keeps.queued w

/-- The compiled tree adds up the products of its neurons. -/
theorem addsUp (hNet : layout.Configured net) (hL : 0 < L) (x : Nat → Nat → Int)
    (d : Deliveries (layout.shift layout.numVNs)) {vnOf : Nat → Nat}
    (hVn : ∀ v < layout.numVNs, ∀ m, layout.Covers v 0 m → vnOf m = v) :
    AddsUp (TreeState.run net (d.products vnOf x)) d.delivered x layout.numVNs layout.shift
      layout.size := by
  have hState := run_state (x := x) hNet hL d hVn
  have hMem : ∀ {t w pck}, pck ∈ (TreeState.run net (d.products vnOf x) t).emitted w →
      w.isOutlet = true ∧
        pck ∈ (TreeState.history net (d.products vnOf x) t).sent w := by
    intro t w pck hPck
    cases hOutlet : w.isOutlet with
    | false =>
        rw [(hState t).inside w hOutlet] at hPck
        cases hPck
    | true =>
        rw [(hState t).sent_eq hOutlet]
        exact ⟨rfl, List.mem_append_left _ hPck⟩
  have hCovers : ∀ {v m}, v < layout.numVNs → m < layout.size v →
      layout.Covers v 0 (layout.shift v + m) := by
    intro v m hv hm
    rw [covers_zero hv, shift_succ]
    omega
  have hAt : ∀ {t w pck}, pck ∈ (TreeState.run net (d.products vnOf x) t).emitted w →
      pck.vn < layout.numVNs ∧ ∃ l q, w = .memory l q ∧ layout.Live pck.vn (L - l - 1) ∧
        layout.span pck.vn (L - l - 1 + 1) = (q, q) := by
    intro t w pck hPck
    obtain ⟨hOutlet, hSent⟩ := hMem hPck
    have hSound := (hState t).keeps.sound w
    rcases w with ⟨l, c⟩ | ⟨l, j⟩ | ⟨l, q⟩ | _
    · cases hOutlet
    · cases hOutlet
    · obtain ⟨u, hu, hLive, hSpan, hVnU⟩ := hSound.2.own pck hSent
      rw [hVnU]
      exact ⟨hu, l, q, rfl, hLive, hSpan⟩
    · rw [show History.sent _ _ = [] from hSound] at hSent
      cases hSent
  refine ⟨fun t id => ?_, fun t w => (hState t).kept w, fun t w pck hPck => (hAt hPck).1,
    fun t w pck hPck pck' hPck' hNe => ?_, fun v hv => ?_, fun v hv n hDelivered => ?_⟩
  · by_cases hId : id ∈ net.cycleOrder
    · have hWaits := AdderState.waits ((hState t).keeps.related id hId)
      exact congrArg ASwitch.failed hWaits
    · rw [(hState t).others id hId]
  · obtain ⟨hu, l, q, rfl, hLive, hSpan⟩ := hAt hPck
    obtain ⟨hv, l', q', hSame, hLive', hSpan'⟩ := hAt hPck'
    obtain ⟨rfl, rfl⟩ := ReduceWire.memory.inj hSame
    exact exit_shared hu hv hNe hLive' hLive hSpan' hSpan
  · obtain ⟨k, hk, hLive, p, hSpan⟩ := exists_exit hL hv
    refine ⟨.memory (L - k - 1) p, fun t => ?_⟩
    have hSplit := congrArg (List.filter fun pck => pck.vn = v)
      ((hState t).sent_eq (w := .memory (L - k - 1) p) rfl)
    have hSound := ((hState t).keeps.sound (.memory (L - k - 1) p)).2
    rw [show L - (L - k - 1) - 1 = k by omega] at hSound
    have hStream := hSound.sums v hv hLive hSpan
    rw [List.filter_append] at hSplit
    have hPrefix := seg_prefix (hSplit.symm.trans hStream)
    refine ⟨(((TreeState.run net (d.products vnOf x) t).emitted
      (.memory (L - k - 1) p)).filter (fun pck => pck.vn = v)).length, fun m hm => ?_,
      fun w => ?_⟩
    · have hTrace := covers_trace hv (hCovers hv hm) (k + 1)
      have hExit : layout.into v k (layout.trace v (layout.shift v + m) k) = p := by
        change layout.Covers v (k + 1) (layout.into v k _) at hTrace
        rw [Covers, hSpan] at hTrace
        exact Nat.le_antisymm hTrace.2 hTrace.1
      have hInto := sumsAt_into (x := x) (d := d) hNet hVn hk hv hLive
        (covers_trace hv (hCovers hv hm) k) t
      rw [hExit, sumsAt_exit hNet hk hv hLive hSpan, hSplit, List.length_append] at hInto
      have hSent := sentTo_trace (x := x) (d := d) hNet hVn hk hv hLive (hCovers hv hm) t
      omega
    · split
      · rename_i hExit
        rw [hExit, hPrefix, length_seg, Nat.sub_zero, seg_zero_eq_map_range]
        refine List.map_congr_left fun i _ => ?_
        rw [carried, value_complete hv hSpan]
      · rename_i hOther
        refine List.filter_eq_nil_iff.mpr fun pck hPck hVn' => hOther ?_
        obtain ⟨hOutlet, hSent⟩ := hMem hPck
        exact exit_of_mem hv hLive hk hSpan hOutlet ((hState t).keeps.sound w) hSent
          (of_decide_eq_true hVn')
  · obtain ⟨k, hk, hLive, p, hSpan⟩ := exists_exit hL hv
    have hAll : ∀ m, layout.Covers v 0 m → ∃ t, n ≤ d.delivered t m := by
      intro m hm
      rw [covers_zero hv, shift_succ] at hm
      obtain ⟨t, ht⟩ := hDelivered (m - layout.shift v) (by omega)
      rw [show layout.shift v + (m - layout.shift v) = m by omega] at ht
      exact ⟨t, ht⟩
    obtain ⟨t, ht⟩ := eventually_kept (x := x) (d := d) (p := p) hNet hVn hk hv hLive
      (fun c hc => eventually_sent hNet hVn hk hv hLive hAll hc)
      (by rcases role_of_span hv hSpan with hRole | hRole <;> rw [hRole] <;> decide)
    refine ⟨t + 1, .memory (L - k - 1) p, ?_⟩
    rw [sumsAt_exit hNet hk hv hLive hSpan] at ht
    rw [← (hState (t + 1)).emitted _ rfl, TreeState.history,
      (hState t).keeps.round_taken (border hNet hL) rfl]
    exact ht

end

end Layout

end Stonne
