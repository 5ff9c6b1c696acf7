import Stonne.Lib.Histories
import Stonne.Reduction.ASwitch

/-!
# A cycle of the reduction tree

Every adder comes before its children, and the receiver of a joined pair before the sender.  So a
cycle of the tree is one simultaneous step of its adders.
-/

namespace Stonne

open Dataflow

namespace ASwitch

variable {ω : Type*} [DecidableEq ω]

/-- Links between different connections. -/
structure Links.Separate (links : Links ω) (cfg : ASwitchConfig) : Prop where
  leftRight : links.left ≠ links.right
  forwardingLeft : links.forwarding ≠ links.left
  forwardingRight : links.forwarding ≠ links.right
  outForwarding : links.out cfg ≠ links.forwarding
  outLeft : links.out cfg ≠ links.left
  outRight : links.out cfg ≠ links.right

/-- The connections that an adder reads. -/
def Links.ins (links : Links ω) (cfg : ASwitchConfig) : List ω :=
  links.left :: links.right :: if cfg.receives then [links.forwarding] else []

/-- The connections that an adder writes. -/
def Links.outs (links : Links ω) (cfg : ASwitchConfig) : List ω :=
  links.out cfg :: if cfg.sends then [links.forwarding] else []

/-- What an adder sends on a connection. -/
def Output.on (out : Output) (links : Links ω) (cfg : ASwitchConfig) (w : ω) :
    List DataPackage :=
  if w = links.out cfg then out.psum else if w = links.forwarding then out.fw else []

/-- A firing with what stands on the connections. -/
def fireLinks (cfg : ASwitchConfig) (numInLevel : Nat) (links : Links ω) (s : ASwitch)
    (arrived : ω → List DataPackage) : ASwitch × Output :=
  fire cfg numInLevel s (arrived links.left) (arrived links.right)
    (if cfg.receives then arrived links.forwarding else [])

section

variable {cfg : ASwitchConfig} {numInLevel : Nat} {links : Links ω} {s : ASwitch}
  {conns : Connections ω} {w : ω}

theorem not_sends_of_receives (h : cfg.receives = true) : cfg.sends = false := by
  simp only [ASwitchConfig.receives, ASwitchConfig.sends, Bool.and_eq_true,
    decide_eq_true_iff] at *
  simp [h.2]

theorem fire_fw (left right fw : List DataPackage) (h : cfg.sends = false) :
    (fire cfg numInLevel s left right fw).2.fw = [] := by
  rw [fire, send]
  simp [h]

/-- The connections after an adder has read its own. -/
def readLinks (cfg : ASwitchConfig) (links : Links ω) (conns : Connections ω) : Connections ω :=
  let read := ((conns.receive links.left).2.receive links.right).2
  if cfg.receives then (read.receive links.forwarding).2 else read

theorem content_readLinks :
    ((readLinks cfg links conns) w).content =
      if w ∈ links.ins cfg then none else (conns w).content := by
  simp only [readLinks, Links.ins]
  split
  · simp only [Connections.content_receive, List.mem_cons, List.not_mem_nil, or_false]
    split_ifs <;> simp_all
  · simp only [Connections.content_receive, List.mem_cons, List.not_mem_nil, or_false]
    split_ifs <;> simp_all

theorem overwritten_readLinks :
    ((readLinks cfg links conns) w).overwritten = (conns w).overwritten := by
  simp only [readLinks]
  split <;> simp only [Connections.overwritten_receive]

theorem cycle_fst (hSeparate : links.Separate cfg) :
    (cycle cfg numInLevel links s conns).1 =
      (fireLinks cfg numInLevel links s conns.store.recv).1 := by
  have hRight : (conns.receive links.left).2.store.recv links.right =
      conns.store.recv links.right := by
    simp only [Store.recv, Connections.store, Connections.content_receive,
      if_neg hSeparate.leftRight.symm]
  have hForwarding : ((conns.receive links.left).2.receive links.right).2.store.recv
      links.forwarding = conns.store.recv links.forwarding := by
    simp only [Store.recv, Connections.store, Connections.content_receive,
      if_neg hSeparate.forwardingLeft, if_neg hSeparate.forwardingRight]
  rw [cycle, fireLinks]
  simp only [Connections.receive_fst, hRight]
  split
  · rw [Connections.receive_fst, hForwarding]
  · rfl

theorem cycle_snd (hSeparate : links.Separate cfg) :
    (cycle cfg numInLevel links s conns).2 =
      ((readLinks cfg links conns).sendAll links.forwarding
        (fireLinks cfg numInLevel links s conns.store.recv).2.fw).sendAll (links.out cfg)
          (fireLinks cfg numInLevel links s conns.store.recv).2.psum := by
  have hRight : (conns.receive links.left).2.store.recv links.right =
      conns.store.recv links.right := by
    simp only [Store.recv, Connections.store, Connections.content_receive,
      if_neg hSeparate.leftRight.symm]
  have hForwarding : ((conns.receive links.left).2.receive links.right).2.store.recv
      links.forwarding = conns.store.recv links.forwarding := by
    simp only [Store.recv, Connections.store, Connections.content_receive,
      if_neg hSeparate.forwardingLeft, if_neg hSeparate.forwardingRight]
  simp only [cycle, fireLinks, readLinks, Connections.receive_fst, hRight]
  split
  · rw [Connections.receive_fst, hForwarding]
  · rfl

theorem content_cycle (hSeparate : links.Separate cfg) :
    ((cycle cfg numInLevel links s conns).2 w).content =
      if w ∈ links.outs cfg ∧
          (fireLinks cfg numInLevel links s conns.store.recv).2.on links cfg w ≠ [] then
        some ((fireLinks cfg numInLevel links s conns.store.recv).2.on links cfg w)
      else if w ∈ links.ins cfg then none
      else (conns w).content := by
  have hFw : cfg.sends = false →
      (fireLinks cfg numInLevel links s conns.store.recv).2.fw = [] := fire_fw _ _ _
  rw [cycle_snd hSeparate, Connections.content_sendAll, Connections.content_sendAll,
    content_readLinks, Links.outs, Output.on]
  generalize (fireLinks cfg numInLevel links s conns.store.recv).2 = out at *
  have hOut := hSeparate.outForwarding
  rcases eq_or_ne w (links.out cfg) with rfl | hNotOut
  · simp [hOut]
  · rcases eq_or_ne w links.forwarding with rfl | hNotFw
    · cases hSends : cfg.sends with
      | true => simp [hNotOut]
      | false => simp [hNotOut, hFw hSends]
    · simp [hNotOut, hNotFw]

theorem overwritten_cycle (hSeparate : links.Separate cfg) :
    ((cycle cfg numInLevel links s conns).2 w).overwritten =
      ((conns w).overwritten ||
        decide (w ∈ links.outs cfg ∧
          (fireLinks cfg numInLevel links s conns.store.recv).2.on links cfg w ≠ [] ∧
          w ∉ links.ins cfg ∧ (conns w).content.isSome)) := by
  have hFw : cfg.sends = false →
      (fireLinks cfg numInLevel links s conns.store.recv).2.fw = [] := fire_fw _ _ _
  rw [cycle_snd hSeparate, Connections.overwritten_sendAll, Connections.overwritten_sendAll,
    Connections.content_sendAll, content_readLinks, overwritten_readLinks, Links.outs, Output.on]
  generalize (fireLinks cfg numInLevel links s conns.store.recv).2 = out at *
  have hOut := hSeparate.outForwarding
  rcases eq_or_ne w (links.out cfg) with rfl | hNotOut
  · by_cases hIn : links.out cfg ∈ links.ins cfg <;> simp [hOut, hIn]
  · rcases eq_or_ne w links.forwarding with rfl | hNotFw
    · cases hSends : cfg.sends with
      | true => by_cases hIn : links.forwarding ∈ links.ins cfg <;> simp [hNotOut, hIn]
      | false => simp [hNotOut, hFw hSends]
    · simp [hNotOut, hNotFw]

end

end ASwitch

namespace ASNetwork

def wiring (net : ASNetwork) : Wiring SwitchId ReduceWire where
  ins id := (links id).ins (net.config id)
  outs id := (links id).outs (net.config id)

def program (net : ASNetwork) : Program SwitchId ReduceWire ASwitch DataPackage :=
  fun id s arrived =>
    let result := ASwitch.fireLinks (net.config id) id.2 (links id) s arrived
    (result.1, fun w => result.2.on (links id) (net.config id) w)

/-- The forwarding links of a level join pairs of neighbours, one of which sends. -/
structure Paired (net : ASNetwork) : Prop where
  enabled : ∀ id, (net.config id).fwEnabled = true →
    (net.config id).sends = true ∨ (net.config id).receives = true
  sends : ∀ l p, p % 2 = 1 → (net.config (l, p)).sends = (net.config (l, p + 1)).receives
  receives : ∀ l p, p % 2 = 1 → (net.config (l, p)).receives = (net.config (l, p + 1)).sends
  first : ∀ l, (net.config (l, 0)).fwEnabled = false
  last : ∀ l, l < net.nlevels → (net.config (l, 2 ^ l - 1)).fwEnabled = false

/-- The first adder may come before the second in a cycle. -/
def MayPrecede (net : ASNetwork) (a b : SwitchId) : Prop :=
  0 < b.1 ∧ (a.1 < b.1 ∨ a.1 = b.1 ∧ a.2 ≠ b.2 ∧
    ¬((net.config a).sends = true ∧ (net.config b).receives = true ∧
      pairRight a.2 = pairRight b.2))

section

variable {net : ASNetwork} {id : SwitchId} {i n j : Nat}

theorem links_separate (id : SwitchId) (cfg : ASwitchConfig) : (links id).Separate cfg := by
  refine ⟨?_, ?_, ?_, ?_, ?_, ?_⟩
  · simp [links]
  · simp [links]
  · simp [links]
  all_goals
    simp only [ASwitch.Links.out, links]
    split
    · simp
    · split <;> simp <;> omega

theorem fwEnabled_iff (hPaired : net.Paired) : (net.config id).fwEnabled = true ↔
    (net.config id).sends = true ∨ (net.config id).receives = true := by
  refine ⟨hPaired.enabled id, ?_⟩
  rintro (hSends | hReceives)
  · exact (Bool.and_eq_true_iff.mp hSends).1
  · exact (Bool.and_eq_true_iff.mp hReceives).1

theorem fwEnabled_pair (hPaired : net.Paired) {l p : Nat} (hOdd : p % 2 = 1) :
    (net.config (l, p + 1)).fwEnabled = (net.config (l, p)).fwEnabled := by
  rw [Bool.eq_iff_iff, fwEnabled_iff hPaired, fwEnabled_iff hPaired, ← hPaired.sends l p hOdd,
    ← hPaired.receives l p hOdd, or_comm]

/-- The loop is at an odd adder when it meets an enabled link. -/
def Aligned (net : ASNetwork) (i n j : Nat) : Prop :=
  (j % 2 = 0 → (net.config (i, j)).fwEnabled = false) ∧
    (net.config (i, j + n - 1)).fwEnabled = false

theorem Aligned.odd (h : net.Aligned i n j) (hFw : (net.config (i, j)).fwEnabled = true) :
    j % 2 = 1 := by
  rcases Nat.mod_two_eq_zero_or_one j with hEven | hOdd
  · rw [h.1 hEven] at hFw
    cases hFw
  · exact hOdd

theorem Aligned.pair (h : net.Aligned i (n + 2) j)
    (hFw : (net.config (i, j)).fwEnabled = true) : net.Aligned i n (j + 2) := by
  have hOdd := h.odd hFw
  refine ⟨fun hEven => by omega, ?_⟩
  have hSame : j + 2 + n - 1 = j + (n + 2) - 1 := by omega
  rw [hSame]
  exact h.2

theorem Aligned.single (hPaired : net.Paired) (h : net.Aligned i (n + 2) j)
    (hFw : ¬(net.config (i, j)).fwEnabled = true) : net.Aligned i (n + 1) (j + 1) := by
  refine ⟨fun hEven => ?_, ?_⟩
  · rw [fwEnabled_pair hPaired (by omega)]
    exact eq_false_of_ne_true hFw
  · have hSame : j + 1 + (n + 1) - 1 = j + (n + 2) - 1 := by omega
    rw [hSame]
    exact h.2

theorem mem_levelOrder (hPaired : net.Paired) (h : net.Aligned i n j) :
    id ∈ levelOrder net.config i n j ↔ id.1 = i ∧ j ≤ id.2 ∧ id.2 < j + n := by
  obtain ⟨l, p⟩ := id
  fun_induction levelOrder net.config i n j with
  | case1 j => simp
  | case2 j hFw hSend =>
      have hLast := h.2
      simp [hFw] at hLast
  | case3 j hFw hReceive =>
      have hLast := h.2
      simp [hFw] at hLast
  | case4 j hFw =>
      simp only [List.mem_singleton, Prod.mk.injEq]
      omega
  | case5 n j hFw hSend ih =>
      rw [List.mem_cons, List.mem_cons, ih (h.pair hFw)]
      simp only [Prod.mk.injEq]
      omega
  | case6 n j hFw hReceive ih =>
      rw [List.mem_cons, List.mem_cons, ih (h.pair hFw)]
      simp only [Prod.mk.injEq]
      omega
  | case7 n j hFw ih =>
      rw [List.mem_cons, ih (h.single hPaired hFw)]
      simp only [Prod.mk.injEq]
      omega

/-- In a level the receiver of a joined pair comes first. -/
theorem pairwise_levelOrder (hPaired : net.Paired) (hi : 0 < i) (h : net.Aligned i n j) :
    (levelOrder net.config i n j).Pairwise net.MayPrecede := by
  have hOrdered : ∀ {p q : Nat}, p ≠ q →
      ((net.config (i, p)).sends = true → (net.config (i, q)).receives = true →
        pairRight p ≠ pairRight q) → net.MayPrecede (i, p) (i, q) :=
    fun hNe hLink => ⟨hi, .inr ⟨rfl, hNe, fun ⟨hSends, hReceives, hSame⟩ =>
      hLink hSends hReceives hSame⟩⟩
  have hApart : ∀ {p q : Nat}, p < q → (p % 2 = 1 → q ≠ p + 1) → pairRight p ≠ pairRight q := by
    intro p q hLess hOdd
    unfold pairRight
    split <;> split <;> omega
  fun_induction levelOrder net.config i n j with
  | case1 j => exact List.Pairwise.nil
  | case2 j hFw hSend =>
      have hLast := h.2
      simp [hFw] at hLast
  | case3 j hFw hReceive =>
      have hLast := h.2
      simp [hFw] at hLast
  | case4 j hFw => exact List.pairwise_singleton _ _
  | case5 n j hFw hSend ih =>
      have hOdd := h.odd hFw
      refine List.pairwise_cons.mpr ⟨fun id hId => ?_, List.pairwise_cons.mpr ⟨fun id hId => ?_,
        ih (h.pair hFw)⟩⟩
      · rcases List.mem_cons.mp hId with rfl | hRest
        · refine hOrdered (by omega) fun _ hReceives => ?_
          simp [ASwitchConfig.receives, hSend] at hReceives
        · obtain ⟨l, p⟩ := id
          obtain ⟨rfl, hFrom, -⟩ := (mem_levelOrder hPaired (h.pair hFw)).mp hRest
          exact hOrdered (by omega) fun _ _ => hApart (by omega) (by omega)
      · obtain ⟨l, p⟩ := id
        obtain ⟨rfl, hFrom, -⟩ := (mem_levelOrder hPaired (h.pair hFw)).mp hId
        exact hOrdered (by omega) fun _ _ => hApart (by omega) (by omega)
  | case6 n j hFw hReceive ih =>
      have hOdd := h.odd hFw
      refine List.pairwise_cons.mpr ⟨fun id hId => ?_, List.pairwise_cons.mpr ⟨fun id hId => ?_,
        ih (h.pair hFw)⟩⟩
      · rcases List.mem_cons.mp hId with rfl | hRest
        · refine hOrdered (by omega) fun hSends _ => ?_
          simp [ASwitchConfig.sends, hReceive] at hSends
        · obtain ⟨l, p⟩ := id
          obtain ⟨rfl, hFrom, -⟩ := (mem_levelOrder hPaired (h.pair hFw)).mp hRest
          exact hOrdered (by omega) fun _ _ => hApart (by omega) (by omega)
      · obtain ⟨l, p⟩ := id
        obtain ⟨rfl, hFrom, -⟩ := (mem_levelOrder hPaired (h.pair hFw)).mp hId
        exact hOrdered (by omega) fun _ _ => hApart (by omega) (by omega)
  | case7 n j hFw ih =>
      refine List.pairwise_cons.mpr ⟨fun id hId => ?_, ih (h.single hPaired hFw)⟩
      obtain ⟨l, p⟩ := id
      obtain ⟨rfl, hFrom, -⟩ := (mem_levelOrder hPaired (h.single hPaired hFw)).mp hId
      refine hOrdered (by omega) fun hSends _ => absurd ?_ hFw
      exact (fwEnabled_iff hPaired).mpr (.inl hSends)

/-- The adders of the tree. -/
def IsAdder (net : ASNetwork) (id : SwitchId) : Prop :=
  id.1 < net.nlevels ∧ id.2 < 2 ^ id.1

theorem aligned_level (hPaired : net.Paired) (hi : i < net.nlevels) :
    net.Aligned i (2 ^ i) 0 := by
  refine ⟨fun _ => hPaired.first i, ?_⟩
  rw [Nat.zero_add]
  exact hPaired.last i hi

theorem mem_cycleOrder (hPaired : net.Paired) (hLevels : 0 < net.nlevels) :
    id ∈ net.cycleOrder ↔ net.IsAdder id := by
  obtain ⟨l, p⟩ := id
  rw [cycleOrder, List.mem_cons, List.mem_flatMap]
  simp only [List.mem_range'_1, IsAdder]
  constructor
  · rintro (hRoot | ⟨i, hi, hId⟩)
    · rw [Prod.mk.injEq] at hRoot
      obtain ⟨rfl, rfl⟩ := hRoot
      exact ⟨hLevels, Nat.one_pos⟩
    · obtain ⟨rfl, -, hLess⟩ := (mem_levelOrder hPaired (aligned_level hPaired (by omega))).mp hId
      exact ⟨by omega, by simpa using hLess⟩
  · rintro ⟨hl, hp⟩
    rcases Nat.eq_zero_or_pos l with rfl | hPos
    · rw [pow_zero] at hp
      exact .inl (Prod.ext rfl (Nat.lt_one_iff.mp hp))
    · refine .inr ⟨l, by omega, (mem_levelOrder hPaired (aligned_level hPaired hl)).mpr ?_⟩
      exact ⟨rfl, Nat.zero_le p, by simpa using hp⟩

theorem pairwise_cycleOrder (hPaired : net.Paired) : net.cycleOrder.Pairwise net.MayPrecede := by
  have hLevel : ∀ i ∈ List.range' 1 (net.nlevels - 1), 0 < i ∧ net.Aligned i (2 ^ i) 0 := by
    intro i hi
    have hi := List.mem_range'_1.mp hi
    exact ⟨by omega, aligned_level hPaired (by omega)⟩
  refine List.pairwise_cons.mpr ⟨fun id hId => ?_, List.pairwise_flatMap.mpr ⟨fun i hi => ?_, ?_⟩⟩
  · obtain ⟨i, hi, hId⟩ := List.mem_flatMap.mp hId
    obtain ⟨hPos, hAligned⟩ := hLevel i hi
    obtain ⟨hSame, -⟩ := (mem_levelOrder hPaired hAligned).mp hId
    rw [← hSame] at hPos
    exact ⟨hPos, .inl hPos⟩
  · obtain ⟨hPos, hAligned⟩ := hLevel i hi
    exact pairwise_levelOrder hPaired hPos hAligned
  · refine (List.pairwise_lt_range' ..).imp_of_mem fun {i i'} hi hi' hLess a ha b hb => ?_
    obtain ⟨hA, -⟩ := (mem_levelOrder hPaired (hLevel i hi).2).mp ha
    obtain ⟨hB, -⟩ := (mem_levelOrder hPaired (hLevel i' hi').2).mp hb
    exact ⟨by omega, .inl (by omega)⟩

theorem mem_ins {l p : Nat} {w : ReduceWire} : w ∈ net.wiring.ins (l, p) ↔
    w = .input l (p * 2) ∨ w = .input l (p * 2 + 1) ∨
      (net.config (l, p)).receives = true ∧ w = .forwarding l (pairRight p) := by
  simp only [wiring, ASwitch.Links.ins, links]
  split
  · rename_i hReceives
    simp [hReceives]
  · rename_i hNot
    simp [hNot]

theorem out_cases (l p : Nat) (cfg : ASwitchConfig) :
    (links (l, p)).out cfg = .memory l p ∨ l = 0 ∧ (links (l, p)).out cfg = .output ∨
      0 < l ∧ (links (l, p)).out cfg = .input (l - 1) p := by
  simp only [ASwitch.Links.out, links]
  split
  · exact .inl rfl
  · split
    · rename_i hRoot
      exact .inr (.inl ⟨hRoot, rfl⟩)
    · rename_i hInner
      exact .inr (.inr ⟨Nat.pos_of_ne_zero hInner, rfl⟩)

theorem mem_outs {l p : Nat} {w : ReduceWire} : w ∈ net.wiring.outs (l, p) ↔
    w = (links (l, p)).out (net.config (l, p)) ∨
      (net.config (l, p)).sends = true ∧ w = .forwarding l (pairRight p) := by
  simp only [wiring, ASwitch.Links.outs]
  split
  · rename_i hSends
    simp [hSends, links]
  · rename_i hNot
    simp [hNot]

theorem independent {a b : SwitchId} (hPaired : net.Paired) (h : net.MayPrecede a b) :
    net.wiring.Independent a b := by
  obtain ⟨l, p⟩ := a
  obtain ⟨l', q⟩ := b
  obtain ⟨hPos, hBefore⟩ := h
  simp only at hPos hBefore
  have hNe : ((l, p) : SwitchId) ≠ (l', q) := by
    rw [ne_eq, Prod.mk.injEq]
    omega
  -- of two adders of one pair one sends if the other receives
  have hPair : l = l' → pairRight p = pairRight q →
      (net.config (l, p)).sends = (net.config (l', q)).receives ∧
        (net.config (l, p)).receives = (net.config (l', q)).sends := by
    rintro rfl hSame
    have hOther : p ≠ q := fun hEq => hNe (by rw [hEq])
    unfold pairRight at hSame
    have hEither : p % 2 = 1 ∧ q = p + 1 ∨ q % 2 = 1 ∧ p = q + 1 := by
      split at hSame <;> split at hSame <;> omega
    rcases hEither with ⟨hOdd, rfl⟩ | ⟨hOdd, rfl⟩
    · exact ⟨hPaired.sends l p hOdd, hPaired.receives l p hOdd⟩
    · exact ⟨(hPaired.receives l q hOdd).symm, (hPaired.sends l q hOdd).symm⟩
  refine ⟨hNe, ?_, ?_, ?_⟩
  · refine List.disjoint_left.mpr fun w hA hB => ?_
    rw [mem_ins] at hA hB
    rcases hA with rfl | rfl | ⟨hReceives, rfl⟩ <;>
      rcases hB with hEq | hEq | ⟨hReceives', hEq⟩ <;>
      simp only [ReduceWire.input.injEq, ReduceWire.forwarding.injEq, reduceCtorEq] at hEq
    all_goals try omega
    obtain ⟨-, hSends⟩ := hPair hEq.1 hEq.2
    rw [hReceives] at hSends
    have hNot := ASwitch.not_sends_of_receives hReceives'
    rw [← hSends] at hNot
    cases hNot
  · refine List.disjoint_left.mpr fun w hA hB => ?_
    rw [mem_outs] at hA hB
    have hOut := out_cases l p (net.config (l, p))
    have hOut' := out_cases l' q (net.config (l', q))
    rcases hA with rfl | ⟨hSends, rfl⟩
    · rcases hB with hEq | ⟨-, hEq⟩
      · rw [hEq] at hOut
        rcases hOut with hA | ⟨hL, hA⟩ | ⟨hL, hA⟩ <;>
          rcases hOut' with hB | ⟨hL', hB⟩ | ⟨hL', hB⟩ <;>
          rw [hA] at hB <;>
          simp only [ReduceWire.input.injEq, ReduceWire.memory.injEq, reduceCtorEq] at hB
        · exact hNe (Prod.ext hB.1 hB.2)
        · omega
        · exact hNe (Prod.ext (by omega) hB.2)
      · rw [hEq] at hOut
        simp at hOut
    · rcases hB with hEq | ⟨hSends', hEq⟩
      · rw [← hEq] at hOut'
        simp at hOut'
      · rw [ReduceWire.forwarding.injEq] at hEq
        have hReceives := (hPair hEq.1 hEq.2).1
        rw [hSends] at hReceives
        have hNot := ASwitch.not_sends_of_receives hReceives.symm
        rw [hSends'] at hNot
        cases hNot
  · refine List.disjoint_left.mpr fun w hA hB => ?_
    rw [mem_outs] at hA
    rw [mem_ins] at hB
    have hOut := out_cases l p (net.config (l, p))
    rcases hA with rfl | ⟨hSends, rfl⟩
    · rcases hOut with hA | ⟨hL, hA⟩ | ⟨hL, hA⟩ <;> rw [hA] at hB <;>
        simp only [ReduceWire.input.injEq, reduceCtorEq, and_false, or_self, or_false] at hB
      omega
    · simp only [ReduceWire.forwarding.injEq, reduceCtorEq, false_or] at hB
      obtain ⟨hReceives, rfl, hSame⟩ := hB
      exact (hBefore.resolve_left (Nat.lt_irrefl l)).2.2 ⟨hSends, hReceives, hSame⟩

theorem readersFirst (hPaired : net.Paired) : net.wiring.ReadersFirst net.cycleOrder :=
  (pairwise_cycleOrder hPaired).imp (independent hPaired)

theorem cycleSwitch_eq_visit (st : (SwitchId → ASwitch) × Connections ReduceWire)
    (id : SwitchId) :
    toNet (net.cycleSwitch st id) = visit net.wiring net.program (toNet st) id := by
  obtain ⟨tab, conns⟩ := st
  have hSeparate := links_separate id (net.config id)
  have hFire : ASwitch.fireLinks (net.config id) id.2 (links id) (tab id)
      (inbox net.wiring conns.store id) =
        ASwitch.fireLinks (net.config id) id.2 (links id) (tab id) conns.store.recv := by
    have hLeft : (links id).left ∈ net.wiring.ins id := List.mem_cons_self
    have hRight : (links id).right ∈ net.wiring.ins id :=
      List.mem_cons_of_mem _ List.mem_cons_self
    simp only [ASwitch.fireLinks, inbox, if_pos hLeft, if_pos hRight]
    split
    · rename_i hReceives
      have hForwarding : (links id).forwarding ∈ net.wiring.ins id := by
        simp [wiring, ASwitch.Links.ins, hReceives]
      rw [if_pos hForwarding]
    · rfl
  have hSent : ∀ w, outbox net.wiring net.program (toNet (tab, conns)) id w =
      (ASwitch.fireLinks (net.config id) id.2 (links id) (tab id) conns.store.recv).2.on
        (links id) (net.config id) w := by
    intro w
    rw [outbox, program]
    change (ASwitch.fireLinks (net.config id) id.2 (links id) (tab id)
      (inbox net.wiring conns.store id)).2.on _ _ w = _
    rw [hFire]
  apply toNet_eq_visit
  · simp only [program, hFire]
    exact ASwitch.cycle_fst hSeparate
  · intro w
    rw [hSent]
    exact ASwitch.content_cycle hSeparate
  · intro w
    rw [hSent]
    exact ASwitch.overwritten_cycle hSeparate

/-- The adders of the tree step simultaneously. -/
theorem cycle_eq_step (hPaired : net.Paired)
    (st : (SwitchId → ASwitch) × Connections ReduceWire) :
    toNet (net.cycle st) = step net.wiring net.program net.cycleOrder (toNet st) := by
  rw [← sweep_eq_step (readersFirst hPaired)]
  exact (List.foldl_hom toNet fun st id => (cycleSwitch_eq_visit st id).symm).symm

end

end ASNetwork

end Stonne
