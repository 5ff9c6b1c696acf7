import Stonne.Reduction.ASwitch
import Stonne.Reduction.Sums

/-!
# What the adders do

The signals of the compiled tree, adder by adder: an adder has no bits of an incomplete neuron
below it, or it works for one neuron, or it stands below the boundary of two neurons at the first
level.
-/

namespace Stonne

open Dataflow LevelState

namespace Layout

variable {L : Nat}

section

variable {layout : Layout L} {u v k c p : Nat}

/-- A receiver has both bits below it. -/
theorem receive_both (hv : v < layout.numVNs) (hLive : layout.Live v k)
    (hRole : layout.roleAt v k p = .receive) :
    layout.Covers v k (2 * p) ∧ layout.Covers v k (2 * p + 1) := by
  have hOrder := span_ordered hv k
  obtain ⟨hFrom, hKept, hTo, hRight, hLeft⟩ := kept_bounds hOrder
  have hFirst := firstKept_cases (layout.span v k).1 (layout.span v k).2
  have hLast := lastKept_cases (layout.span v k).1 (layout.span v k).2
  rw [roleAt, role, roleOf] at hRole
  split_ifs at hRole with hHit hOut hMoved
  rcases Nat.eq_zero_or_pos k with rfl | hPos
  · have hNarrow : (layout.span v 0).1 % 4 = 3 →
        (layout.span v 0).2 ≠ (layout.span v 0).1 + 1 := by
      intro hOdd hTwo
      obtain ⟨hFirst', hLast'⟩ := span_zero hv
      have hShift := layout.shift_succ v
      cases v with
      | zero =>
          have hZero : layout.shift 0 = 0 := Finset.sum_range_zero _
          omega
      | succ v =>
          have hParts := layout.parts v hv
          change PartsAdder (layout.shift (v + 1)) _ _ at hParts
          unfold PartsAdder at hParts
          omega
    unfold Covers
    generalize firstKept (layout.span v 0).1 (layout.span v 0).2 = F at *
    generalize lastKept (layout.span v 0).1 (layout.span v 0).2 = K at *
    unfold JoinsRight JoinsLeft at *
    omega
  · obtain ⟨hEven, hOdd⟩ := hLive.even_odd hv hPos
    unfold Covers
    omega

/-- Of a joined pair one adder sends and the other receives. -/
theorem role_partner (hv : v < layout.numVNs) :
    (layout.roleAt v k p = .receive → layout.roleAt v k (partner p) = .send) ∧
      (layout.roleAt v k p = .send → layout.roleAt v k (partner p) = .receive) := by
  obtain ⟨hFrom, hKept, hTo, hRight, hLeft⟩ := kept_bounds (span_ordered hv k)
  rw [roleAt, role, roleOf]
  constructor
  · intro hRole
    split_ifs at hRole with hHit hOut hMoved
    rw [roleAt, role, roleOf]
    unfold partner
    split
    · rw [if_neg (by omega), if_pos (by omega)]
    · rw [if_neg (by omega), if_pos (by omega)]
  · intro hRole
    split_ifs at hRole with hHit hOut hMoved
    rw [roleAt, role, roleOf]
    unfold partner
    split
    · rw [if_neg (by omega), if_neg (by omega), if_pos (by omega)]
    · rw [if_neg (by omega), if_neg (by omega), if_pos (by omega)]

/-- A neuron whose sum is complete wants nothing but a way up. -/
theorem roleAt_complete (hv : v < layout.numVNs) (hNot : ¬layout.Live v k) :
    layout.roleAt v k p = .absent ∨ layout.roleAt v k p = .plain := by
  have hOrder := span_ordered hv k
  have hSame : (layout.span v k).2 = (layout.span v k).1 := by
    rw [Live, not_or] at hNot
    omega
  have hSpan : layout.span v k = ((layout.span v k).1, (layout.span v k).1) :=
    Prod.ext rfl hSame
  rcases eq_or_ne p ((layout.span v k).1 / 2) with rfl | hOther
  · exact .inr (single_kept hSpan).2
  · refine .inl (roleAt_absent hv ?_ ?_)
    · unfold Covers
      omega
    · unfold Covers
      omega

/-- A neuron that keeps an adder enters it. -/
theorem roleAt_of_covers (hv : v < layout.numVNs) (h : layout.Covers v (k + 1) p) :
    layout.roleAt v k p = .receive ∨ layout.roleAt v k p = .plain := by
  rcases roleAt_cases hv (h.child hv) with ⟨-, hNot⟩ | ⟨hRole, -⟩ | ⟨hRole, -⟩
  · exact absurd h hNot
  · exact .inl hRole
  · exact .inr hRole

end

/-- The neurons at the adder `p` above the bits at height `k`, with its entries. -/
inductive Entered (layout : Layout L) (k p : Nat) (entries : Entries) : Prop where
  | idle
      (empty : ∀ v < layout.numVNs, layout.Live v k →
        ¬layout.Covers v k (2 * p) ∧ ¬layout.Covers v k (2 * p + 1))
      (link : entries.2 = none)
      (mode : entries.1 = none ∨ entries.1 = some .add21 ∨ entries.1 = some .fw22)
  | one (v : Nat) (lt : v < layout.numVNs) (live : layout.Live v k)
      (covers : layout.Covers v k (2 * p) ∨ layout.Covers v k (2 * p + 1))
      (others : ∀ u < layout.numVNs, u ≠ v → layout.roleAt u k p = .absent)
      (entries_eq : entries = (layout.roleAt v k p).enter (none, none))
  | two (v : Nat) (lt : v + 1 < layout.numVNs) (first : k = 0)
      (left : layout.Covers v 0 (2 * p)) (right : layout.Covers (v + 1) 0 (2 * p + 1))
      (others : ∀ u < layout.numVNs, u ≠ v → u ≠ v + 1 → layout.roleAt u k p = .absent)
      (roles : p % 2 = 0 ∧ layout.roleAt v 0 p = .send ∧ layout.roleAt (v + 1) 0 p = .plain ∧
          entries = (some .add11PlusFw11, some .send) ∨
        p % 2 = 1 ∧ layout.roleAt v 0 p = .plain ∧ layout.roleAt (v + 1) 0 p = .send ∧
          entries = (some .add11PlusFw11, some .send) ∨
        layout.roleAt v 0 p = .plain ∧ layout.roleAt (v + 1) 0 p = .plain ∧
          layout.span v 1 = (p, p) ∧ layout.span (v + 1) 1 = (p, p) ∧
          entries = (some .fw22, none))

section

variable {layout : Layout L} {u v k c p : Nat}

/-- Two neurons at an adder of the first level. -/
theorem entered_shared (hu : u < layout.numVNs) (hv : v < layout.numVNs) (hNe : u ≠ v)
    (hLeft : layout.Covers v 0 (2 * p)) (hRight : layout.Covers u 0 (2 * p + 1)) :
    layout.Entered 0 p (entered layout.neurons 1 p) := by
  obtain ⟨rfl, hBoundary⟩ := neighbours hu hv hNe hLeft hRight
  have hOthers : ∀ w < layout.numVNs, w ≠ v → w ≠ v + 1 → layout.roleAt w 0 p = .absent :=
    fun w hw hV hU => roleAt_absent hw (disjoint_zero hw hv hV hLeft)
      (disjoint_zero hw hu hU hRight)
  have hEntries := entered_two hu hOthers
  refine .two v hu rfl hLeft hRight hOthers ?_
  rcases shared_zero hu hBoundary with
    ⟨hEven, hSend, hPlain, -⟩ | ⟨hOdd, hPlain, hSend, -⟩ | ⟨hPlain, hPlain', hSpan, hSpan', -⟩
  · rw [hEntries, hSend, hPlain]
    exact .inl ⟨hEven, rfl, rfl, rfl⟩
  · rw [hEntries, hSend, hPlain]
    exact .inr (.inl ⟨hOdd, rfl, rfl, rfl⟩)
  · rw [hEntries, hPlain, hPlain']
    exact .inr (.inr ⟨rfl, rfl, hSpan, hSpan', rfl⟩)

theorem entered_cases (layout : Layout L) (k p : Nat) :
    layout.Entered k p (entered layout.neurons (k + 1) p) := by
  by_cases hSome : ∃ v < layout.numVNs, layout.Live v k ∧
      (layout.Covers v k (2 * p) ∨ layout.Covers v k (2 * p + 1))
  · obtain ⟨v, hv, hLive, hCovers⟩ := hSome
    by_cases hOthers : ∀ u < layout.numVNs, u ≠ v → layout.roleAt u k p = .absent
    · exact .one v hv hLive hCovers hOthers (entered_one hv hOthers)
    · obtain ⟨u, hOther⟩ := not_forall.mp hOthers
      obtain ⟨hu, hNe, hRole⟩ : ∃ (_ : u < layout.numVNs) (_ : u ≠ v),
          layout.roleAt u k p ≠ .absent := by
        by_contra hNone
        exact hOther fun hu hNe => by_contra fun hRole => hNone ⟨hu, hNe, hRole⟩
      have hCoversU := covers_of_role hu hRole
      rcases Nat.eq_zero_or_pos k with rfl | hPos
      · rcases hCovers with hLeft | hRight
        · have hRight := hCoversU.resolve_left (disjoint_zero hu hv hNe hLeft)
          exact entered_shared hu hv hNe hLeft hRight
        · have hLeft := hCoversU.resolve_right (disjoint_zero hu hv hNe hRight)
          exact entered_shared hv hu hNe.symm hLeft hRight
      · obtain ⟨hEven, hOdd⟩ := hLive.even_odd hv hPos
        have hBoth : layout.Covers v k (2 * p) ∧ layout.Covers v k (2 * p + 1) := by
          unfold Covers at *
          omega
        exact absurd hCoversU (not_or.mpr
          ⟨disjoint hu hv hNe hLive hBoth.1, disjoint hu hv hNe hLive hBoth.2⟩)
  · have hNone : ∀ v < layout.numVNs, layout.Live v k →
        ¬layout.Covers v k (2 * p) ∧ ¬layout.Covers v k (2 * p + 1) :=
      fun v hv hLive => not_or.mp fun h => hSome ⟨v, hv, hLive, h⟩
    have hRoles : ∀ u < layout.numVNs,
        layout.roleAt u k p = .absent ∨ layout.roleAt u k p = .plain := by
      intro u hu
      by_cases hLive : layout.Live u k
      · obtain ⟨hLeft, hRight⟩ := hNone u hu hLive
        exact .inl (roleAt_absent hu hLeft hRight)
      · exact roleAt_complete hu hLive
    obtain ⟨hLink, hMode⟩ := entered_complete hRoles
    exact .idle hNone hLink hMode

/-- The multipliers in use are those of the neurons. -/
theorem exists_covers {n : Nat} (hn : n ≤ layout.numVNs) (hc : c < layout.shift n) :
    ∃ v < n, layout.Covers v 0 c := by
  induction n with
  | zero =>
      rw [shift, Finset.sum_range_zero] at hc
      exact absurd hc (Nat.not_lt_zero c)
  | succ n ih =>
      rcases Nat.lt_or_ge c (layout.shift n) with hBefore | hHere
      · obtain ⟨v, hv, hCovers⟩ := ih (by omega) hBefore
        exact ⟨v, by omega, hCovers⟩
      · exact ⟨n, Nat.lt_succ_self n, (covers_zero (by omega)).mpr ⟨hHere, hc⟩⟩

theorem Covers.lt_used (hv : v < layout.numVNs) (h : layout.Covers v 0 c) :
    c < layout.shift layout.numVNs :=
  ((covers_zero hv).mp h).2.trans_le (layout.shift_mono hv)

end

/-- The tree has the signals that the compiler gives it for the neurons. -/
def Configured (layout : Layout L) (net : ASNetwork) : Prop :=
  net.nlevels = L ∧ ∃ sig, Compiled L layout.neurons sig ∧
    net.config = sig.switchConfig L (layout.shift layout.numVNs)

/-- What an adder does, at the position `p` above the bits at height `k`. -/
inductive Job (layout : Layout L) (k p : Nat) (cfg : ASwitchConfig) : Prop where
  | idle
      (empty : ∀ v < layout.numVNs, layout.Live v k →
        ¬layout.Covers v k (2 * p) ∧ ¬layout.Covers v k (2 * p + 1))
      (link : cfg.fwEnabled = false)
      (mode : cfg.configMode = .add21 ∨ cfg.configMode = .fw22)
  | add (v : Nat) (lt : v < layout.numVNs) (live : layout.Live v k)
      (covers : layout.Covers v k (2 * p) ∨ layout.Covers v k (2 * p + 1))
      (others : ∀ u < layout.numVNs, u ≠ v → layout.roleAt u k p = .absent)
      (mode : cfg.configMode = .add21)
      (left : cfg.leftChildEnabled = decide (layout.Covers v k (2 * p)))
      (right : cfg.rightChildEnabled = decide (layout.Covers v k (2 * p + 1)))
      (role : layout.roleAt v k p = .plain ∧ cfg.fwEnabled = false ∧
          cfg.forwardToMemory = decide (layout.span v (k + 1) = (p, p)) ∨
        layout.roleAt v k p = .send ∧ cfg.sends = true)
  | gather (v : Nat) (lt : v < layout.numVNs) (live : layout.Live v k)
      (leftCovers : layout.Covers v k (2 * p)) (rightCovers : layout.Covers v k (2 * p + 1))
      (others : ∀ u < layout.numVNs, u ≠ v → layout.roleAt u k p = .absent)
      (mode : cfg.configMode = .add31) (left : cfg.leftChildEnabled = true)
      (right : cfg.rightChildEnabled = true) (link : cfg.receives = true)
      (role : layout.roleAt v k p = .receive)
      (forward : cfg.forwardToMemory = decide (layout.span v (k + 1) = (p, p)))
  | share (v : Nat) (lt : v + 1 < layout.numVNs) (first : k = 0)
      (leftCovers : layout.Covers v 0 (2 * p))
      (rightCovers : layout.Covers (v + 1) 0 (2 * p + 1))
      (others : ∀ u < layout.numVNs, u ≠ v → u ≠ v + 1 → layout.roleAt u k p = .absent)
      (mode : cfg.configMode = .add11PlusFw11) (left : cfg.leftChildEnabled = true)
      (right : cfg.rightChildEnabled = true) (link : cfg.sends = true)
      (roles : p % 2 = 0 ∧ layout.roleAt v 0 p = .send ∧ layout.roleAt (v + 1) 0 p = .plain ∧
          cfg.forwardToMemory = decide (layout.span (v + 1) 1 = (p, p)) ∨
        p % 2 = 1 ∧ layout.roleAt v 0 p = .plain ∧ layout.roleAt (v + 1) 0 p = .send ∧
          cfg.forwardToMemory = decide (layout.span v 1 = (p, p)))
  | both (v : Nat) (lt : v + 1 < layout.numVNs) (first : k = 0)
      (leftCovers : layout.Covers v 0 (2 * p))
      (rightCovers : layout.Covers (v + 1) 0 (2 * p + 1))
      (leftRole : layout.roleAt v 0 p = .plain) (rightRole : layout.roleAt (v + 1) 0 p = .plain)
      (leftSpan : layout.span v 1 = (p, p)) (rightSpan : layout.span (v + 1) 1 = (p, p))
      (others : ∀ u < layout.numVNs, u ≠ v → u ≠ v + 1 → layout.roleAt u k p = .absent)
      (mode : cfg.configMode = .fw22) (link : cfg.fwEnabled = false)
      (forward : cfg.forwardToMemory = true)

section

variable {layout : Layout L} {u v k c p : Nat} {sig : AdderSignals}

/-- An adder that keeps part of an incomplete sum sends it to its parent. -/
theorem sendsToParent_of_covers (hCompiled : Compiled L layout.neurons sig) (hk : k < L)
    (hv : v < layout.numVNs) (hLive : layout.Live v (k + 1))
    (hCovers : layout.Covers v (k + 1) c) : sig.sendsToParent (L - k - 1, c) = true := by
  have hEntries := hCompiled.entries (L - k - 1) c (by omega)
  have hHeight : L - (L - k - 1) = k + 1 := by omega
  rw [hHeight] at hEntries
  have hChild := hCovers.child hv
  rcases entered_cases layout k c with
    ⟨hEmpty, -, -⟩ | ⟨u, -, -, -, hOthers, hEq⟩ | ⟨u, -, -, -, -, -, hRoles⟩
  · obtain ⟨hLeft, hRight⟩ := hEmpty v hv (hLive.pred hv)
    exact absurd hChild (not_or.mpr ⟨hLeft, hRight⟩)
  · have hRole := roleAt_of_covers hv hCovers
    have hSame : v = u := by
      by_contra hNe
      rw [hOthers v hv hNe] at hRole
      simp at hRole
    subst hSame
    rw [hEq] at hEntries
    rcases hRole with hRole | hRole
    · rw [hRole] at hEntries
      have hMode : sig.switchesConfiguration (L - k - 1, c) = some .add31 :=
        congrArg Prod.fst hEntries
      simp [AdderSignals.sendsToParent, hMode]
    · rw [hRole] at hEntries
      have hMode : sig.switchesConfiguration (L - k - 1, c) = some .add21 :=
        congrArg Prod.fst hEntries
      have hLink : sig.fwlinksConfiguration (L - k - 1, c) = none := congrArg Prod.snd hEntries
      simp [AdderSignals.sendsToParent, hMode, hLink]
  · have hMode : sig.switchesConfiguration (L - k - 1, c) = some .add11PlusFw11 ∨
        sig.switchesConfiguration (L - k - 1, c) = some .fw22 := by
      rcases hRoles with ⟨-, -, -, hEq⟩ | ⟨-, -, -, hEq⟩ | ⟨-, -, -, -, hEq⟩
      · exact .inl ((congrArg Prod.fst hEntries).trans (congrArg Prod.fst hEq))
      · exact .inl ((congrArg Prod.fst hEntries).trans (congrArg Prod.fst hEq))
      · exact .inr ((congrArg Prod.fst hEntries).trans (congrArg Prod.fst hEq))
    rcases hMode with hMode | hMode
    · simp [AdderSignals.sendsToParent, hMode]
    · simp [AdderSignals.sendsToParent, hMode]

theorem memory_iff (hCompiled : Compiled L layout.neurons sig) (hk : k < L) :
    sig.forwardingToMemoryEnabled (L - k - 1, p) = true ↔
      ∃ v < layout.numVNs, layout.span v (k + 1) = (p, p) := by
  have hHeight : L - (L - k - 1) = k + 1 := by omega
  rw [hCompiled.memory, hHeight]
  constructor
  · rintro ⟨-, neuron, hNeuron, hSpan⟩
    obtain ⟨v, hv, rfl⟩ := List.mem_map.mp hNeuron
    exact ⟨v, List.mem_range.mp hv, hSpan⟩
  · rintro ⟨v, hv, hSpan⟩
    exact ⟨by omega, _, List.mem_map_of_mem (List.mem_range.mpr hv), hSpan⟩

theorem covers_of_span (h : layout.span v k = (p, p)) : layout.Covers v k p := by
  rw [Covers, h]
  exact ⟨Nat.le_refl p, Nat.le_refl p⟩

theorem role_of_span (hv : v < layout.numVNs) (h : layout.span v (k + 1) = (p, p)) :
    layout.roleAt v k p = .receive ∨ layout.roleAt v k p = .plain :=
  roleAt_of_covers hv (covers_of_span h)

/-- The sum that an adder sends to memory is that of the neuron that keeps it. -/
theorem memory_eq (hCompiled : Compiled L layout.neurons sig) (hk : k < L)
    (hv : v < layout.numVNs)
    (hOthers : ∀ u < layout.numVNs, u ≠ v → layout.span u (k + 1) ≠ (p, p)) :
    sig.forwardingToMemoryEnabled (L - k - 1, p) = decide (layout.span v (k + 1) = (p, p)) := by
  rw [Bool.eq_iff_iff, memory_iff hCompiled hk, decide_eq_true_iff]
  constructor
  · rintro ⟨u, hu, hSpan⟩
    by_contra hNot
    refine hOthers u hu ?_ hSpan
    rintro rfl
    exact hNot hSpan
  · exact fun hSpan => ⟨v, hv, hSpan⟩

/-- The children of an adder that works for one neuron. -/
theorem childs_one (hCompiled : Compiled L layout.neurons sig) (hk : k < L)
    (hv : v < layout.numVNs) (hLive : layout.Live v k)
    (hCovers : layout.Covers v k (2 * p) ∨ layout.Covers v k (2 * p + 1))
    (hOthers : ∀ u < layout.numVNs, u ≠ v → layout.roleAt u k p = .absent) :
    sig.childsEnabled L (layout.shift layout.numVNs) (L - k - 1, p) =
      (decide (layout.Covers v k (2 * p)), decide (layout.Covers v k (2 * p + 1))) := by
  rcases Nat.eq_zero_or_pos k with rfl | hPos
  · have hUsed : ∀ c, c / 2 = p →
        decide (c < layout.shift layout.numVNs) = decide (layout.Covers v 0 c) := by
      intro c hc
      rw [decide_eq_decide]
      refine ⟨fun hLess => ?_, fun hHere => hHere.lt_used hv⟩
      obtain ⟨u, hu, hHere⟩ := exists_covers (Nat.le_refl _) hLess
      have hSame : u = v := by
        by_contra hNe
        have hAbsent := hOthers u hu hNe
        have hBits : layout.Covers u 0 (2 * p) ∨ layout.Covers u 0 (2 * p + 1) := by
          rcases (by omega : c = 2 * p ∨ c = 2 * p + 1) with rfl | rfl
          · exact .inl hHere
          · exact .inr hHere
        rcases roleAt_cases hu hBits with ⟨hRole, -⟩ | ⟨hRole, -⟩ | ⟨hRole, -⟩ <;>
          rw [hAbsent] at hRole <;> cases hRole
      exact hSame ▸ hHere
    have hLast : (L - 0 - 1, p).1 + 1 = L := by simp only; omega
    rw [AdderSignals.childsEnabled, if_pos hLast]
    simp only [Nat.mul_comm p 2]
    rw [hUsed (2 * p) (by omega), hUsed (2 * p + 1) (by omega)]
  · obtain ⟨hEven, hOdd⟩ := hLive.even_odd hv hPos
    obtain ⟨j, rfl⟩ := Nat.exists_eq_succ_of_ne_zero hPos.ne'
    have hBoth : layout.Covers v (j + 1) (2 * p) ∧ layout.Covers v (j + 1) (2 * p + 1) := by
      rw [Nat.succ_eq_add_one] at *
      unfold Covers at *
      omega
    have hLevel : L - (j + 1) - 1 + 1 = L - j - 1 := by omega
    rw [AdderSignals.childsEnabled, if_neg (by simp only [Nat.succ_eq_add_one]; omega)]
    simp only [Nat.succ_eq_add_one, hLevel, Nat.mul_comm p 2]
    rw [sendsToParent_of_covers hCompiled (by omega) hv hLive hBoth.1,
      sendsToParent_of_covers hCompiled (by omega) hv hLive hBoth.2, decide_eq_true hBoth.1,
      decide_eq_true hBoth.2]

theorem span_ne_of_absent (hu : u < layout.numVNs) (h : layout.roleAt u k p = .absent) :
    layout.span u (k + 1) ≠ (p, p) := by
  intro hSpan
  have hRole := role_of_span hu hSpan
  rw [h] at hRole
  simp at hRole

theorem span_ne_of_send (hu : u < layout.numVNs) (h : layout.roleAt u k p = .send) :
    layout.span u (k + 1) ≠ (p, p) := by
  intro hSpan
  have hRole := role_of_span hu hSpan
  rw [h] at hRole
  simp at hRole

/-- The children of an adder of the first level with two neurons. -/
theorem childs_two (sig : AdderSignals) (hL : 0 < L) (hu : u < layout.numVNs)
    (hv : v < layout.numVNs)
    (hLeft : layout.Covers v 0 (2 * p)) (hRight : layout.Covers u 0 (2 * p + 1)) :
    sig.childsEnabled L (layout.shift layout.numVNs) (L - 0 - 1, p) = (true, true) := by
  have hLast : (L - 0 - 1, p).1 + 1 = L := by simp only; omega
  rw [AdderSignals.childsEnabled, if_pos hLast]
  simp only [Nat.mul_comm p 2, decide_eq_true (hLeft.lt_used hv),
    decide_eq_true (hRight.lt_used hu)]

/-- What the compiler makes of an adder. -/
theorem job_of_configured {net : ASNetwork} (hNet : layout.Configured net) (hk : k < L) (p : Nat) :
    layout.Job k p (net.config (L - k - 1, p)) := by
  obtain ⟨-, sig, hCompiled, hConfig⟩ := hNet
  have hEntries := hCompiled.entries (L - k - 1) p (by omega)
  have hHeight : L - (L - k - 1) = k + 1 := by omega
  rw [hHeight] at hEntries
  rw [hConfig]
  have hMode : (sig.switchConfig L (layout.shift layout.numVNs) (L - k - 1, p)).configMode =
      (entered layout.neurons (k + 1) p).1.getD .add21 := by
    rw [← hEntries]
    rfl
  have hEnabled : (sig.switchConfig L (layout.shift layout.numVNs) (L - k - 1, p)).fwEnabled =
      (entered layout.neurons (k + 1) p).2.isSome := by
    rw [← hEntries]
    rfl
  have hDirection : (sig.switchConfig L (layout.shift layout.numVNs)
      (L - k - 1, p)).flDirection =
      (entered layout.neurons (k + 1) p).2.getD .notConfigured := by
    rw [← hEntries]
    rfl
  rcases entered_cases layout k p with
    ⟨hEmpty, hLink, hAny⟩ | ⟨v, hv, hLive, hCovers, hOthers, hEq⟩ |
      ⟨v, hv, rfl, hLeft, hRight, hOthers, hRoles⟩
  · rw [hLink] at hEnabled
    refine .idle hEmpty hEnabled ?_
    rw [hMode]
    rcases hAny with hEq | hEq | hEq <;> simp [hEq]
  · have hChilds := childs_one hCompiled hk hv hLive hCovers hOthers
    have hMemory := memory_eq hCompiled hk hv fun u hu hNe =>
      span_ne_of_absent hu (hOthers u hu hNe)
    rw [hEq] at hMode hEnabled hDirection
    rcases roleAt_cases hv hCovers with ⟨hRole, -⟩ | ⟨hRole, -⟩ | ⟨hRole, -⟩
    · rw [hRole] at hMode hEnabled hDirection
      refine .add v hv hLive hCovers hOthers hMode (congrArg Prod.fst hChilds)
        (congrArg Prod.snd hChilds) (.inr ⟨hRole, ?_⟩)
      rw [ASwitchConfig.sends, hEnabled, hDirection]
      rfl
    · obtain ⟨hLeft, hRight⟩ := receive_both hv hLive hRole
      rw [hRole] at hMode hEnabled hDirection
      rw [decide_eq_true hLeft, decide_eq_true hRight] at hChilds
      refine .gather v hv hLive hLeft hRight hOthers hMode (congrArg Prod.fst hChilds)
        (congrArg Prod.snd hChilds) ?_ hRole hMemory
      rw [ASwitchConfig.receives, hEnabled, hDirection]
      rfl
    · rw [hRole] at hMode hEnabled
      exact .add v hv hLive hCovers hOthers hMode (congrArg Prod.fst hChilds)
        (congrArg Prod.snd hChilds) (.inl ⟨hRole, hEnabled, hMemory⟩)
  · have hv' : v < layout.numVNs := Nat.lt_of_succ_lt hv
    have hChilds := childs_two sig hk hv hv' hLeft hRight
    rcases hRoles with ⟨hEven, hSend, hPlain, hEq⟩ | ⟨hOdd, hPlain, hSend, hEq⟩ |
      ⟨hPlain, hPlain', hSpan, hSpan', hEq⟩
    · have hMemory := memory_eq (p := p) hCompiled hk hv fun u hu hNe => by
        rcases eq_or_ne u v with rfl | hOther
        · exact span_ne_of_send hu hSend
        · exact span_ne_of_absent hu (hOthers u hu hOther hNe)
      rw [hEq] at hMode hEnabled hDirection
      refine .share v hv rfl hLeft hRight hOthers hMode (congrArg Prod.fst hChilds)
        (congrArg Prod.snd hChilds) ?_ (.inl ⟨hEven, hSend, hPlain, hMemory⟩)
      rw [ASwitchConfig.sends, hEnabled, hDirection]
      rfl
    · have hMemory := memory_eq (p := p) hCompiled hk hv' fun u hu hNe => by
        rcases eq_or_ne u (v + 1) with rfl | hOther
        · exact span_ne_of_send hu hSend
        · exact span_ne_of_absent hu (hOthers u hu hNe hOther)
      rw [hEq] at hMode hEnabled hDirection
      refine .share v hv rfl hLeft hRight hOthers hMode (congrArg Prod.fst hChilds)
        (congrArg Prod.snd hChilds) ?_ (.inr ⟨hOdd, hPlain, hSend, hMemory⟩)
      rw [ASwitchConfig.sends, hEnabled, hDirection]
      rfl
    · rw [hEq] at hMode hEnabled
      refine .both v hv rfl hLeft hRight hPlain hPlain' hSpan hSpan' hOthers hMode hEnabled ?_
      exact (memory_iff hCompiled hk).mpr ⟨v, hv', hSpan⟩

end

end Layout

end Stonne
