import Stonne.Reduction.ASNetwork
import Stonne.Reduction.Jobs

/-!
# Streams through the reduction tree

Every connection of the tree carries the values of at most one incomplete neuron, one for each
wave, except that two neurons of a single multiplier may share a connection to memory.  An adder
keeps in its fifos what has come and not yet been added up, and has sent the sums of the waves
that are complete below it, in their order.
-/

namespace Stonne

open Dataflow LevelState

namespace Layout

variable {L : Nat}

section

variable {layout : Layout L} {net : ASNetwork} {u v k p : Nat}

/-! ## Joined pairs -/

/-- The adders that want something of a forwarding link. -/
def Wants (layout : Layout L) (k p : Nat) (role : Role) : Prop :=
  ∃ v < layout.numVNs, layout.Live v k ∧ layout.roleAt v k p = role

/-- A forwarding link is enabled if a neuron uses it, in the direction in which it does. -/
theorem link_cases (hNet : layout.Configured net) (hk : k < L) (p : Nat) :
    (net.config (L - k - 1, p)).fwEnabled = false ∧ ¬layout.Wants k p .send ∧
        ¬layout.Wants k p .receive ∨
      (net.config (L - k - 1, p)).sends = true ∧ layout.Wants k p .send ∧
        ¬layout.Wants k p .receive ∨
      (net.config (L - k - 1, p)).receives = true ∧ ¬layout.Wants k p .send ∧
        layout.Wants k p .receive := by
  have hOne : ∀ {v : Nat} {role role' : Role}, layout.roleAt v k p = role →
      (∀ u < layout.numVNs, u ≠ v → layout.roleAt u k p = .absent) → role' ≠ role →
        role' ≠ .absent → ¬layout.Wants k p role' := by
    rintro v role role' hRole hOthers hNe hSome ⟨u, hu, -, hWants⟩
    rcases eq_or_ne u v with rfl | hOther
    · exact hNe (hWants.symm.trans hRole)
    · exact hSome (hWants.symm.trans (hOthers u hu hOther))
  have hTwo : ∀ {v : Nat} (role' : Role), layout.roleAt v k p ≠ role' →
      layout.roleAt (v + 1) k p ≠ role' →
      (∀ u < layout.numVNs, u ≠ v → u ≠ v + 1 → layout.roleAt u k p = .absent) →
        role' ≠ .absent → ¬layout.Wants k p role' := by
    rintro v role' hRole hRole' hOthers hSome ⟨u, hu, -, hWants⟩
    rcases eq_or_ne u v with rfl | hOther
    · exact hRole hWants
    · rcases eq_or_ne u (v + 1) with rfl | hOther'
      · exact hRole' hWants
      · exact hSome (hWants.symm.trans (hOthers u hu hOther hOther'))
  rcases job_of_configured hNet hk p with ⟨hEmpty, hLink, -⟩ |
    ⟨v, hv, hLive, -, hOthers, -, -, -, hRoles⟩ |
    ⟨v, hv, hLive, -, -, hOthers, -, -, -, hLink, hRole, -⟩ |
    ⟨v, hv, rfl, -, -, hOthers, -, -, -, hLink, hRoles⟩ |
    ⟨v, hv, rfl, -, -, hPlain, hPlain', -, -, hOthers, -, hLink, -⟩
  · have hNone : ∀ role, role ≠ .absent → ¬layout.Wants k p role := by
      rintro role hSome ⟨v, hv, hLive, hRole⟩
      have hCovers := covers_of_role hv (by rw [hRole]; exact hSome)
      exact not_or.mpr (hEmpty v hv hLive) hCovers
    exact .inl ⟨hLink, hNone _ (by decide), hNone _ (by decide)⟩
  · rcases hRoles with ⟨hRole, hLink, -⟩ | ⟨hRole, hLink⟩
    · exact .inl ⟨hLink, hOne hRole hOthers (by decide) (by decide),
        hOne hRole hOthers (by decide) (by decide)⟩
    · exact .inr (.inl ⟨hLink, ⟨v, hv, hLive, hRole⟩,
        hOne hRole hOthers (by decide) (by decide)⟩)
  · exact .inr (.inr ⟨hLink, hOne hRole hOthers (by decide) (by decide),
      ⟨v, hv, hLive, hRole⟩⟩)
  · rcases hRoles with ⟨-, hSend, hPlain, -⟩ | ⟨-, hPlain, hSend, -⟩
    · refine .inr (.inl ⟨hLink, ⟨v, by omega, .inl rfl, hSend⟩,
        hTwo .receive ?_ ?_ hOthers (by decide)⟩)
      · rw [hSend]
        decide
      · rw [hPlain]
        decide
    · refine .inr (.inl ⟨hLink, ⟨v + 1, hv, .inl rfl, hSend⟩,
        hTwo .receive ?_ ?_ hOthers (by decide)⟩)
      · rw [hPlain]
        decide
      · rw [hSend]
        decide
  · have hNone : ∀ role, role ≠ .plain → role ≠ .absent → ¬layout.Wants 0 p role := by
      intro role hOther hSome
      refine hTwo role ?_ ?_ hOthers hSome
      · rw [hPlain]
        exact hOther.symm
      · rw [hPlain']
        exact hOther.symm
    exact .inl ⟨hLink, hNone _ (by decide) (by decide), hNone _ (by decide) (by decide)⟩

theorem sends_iff (hNet : layout.Configured net) (hk : k < L) (p : Nat) :
    (net.config (L - k - 1, p)).sends = true ↔ layout.Wants k p .send := by
  rcases link_cases hNet hk p with ⟨hOff, hNot, -⟩ | ⟨hSends, hWants, -⟩ | ⟨hReceives, hNot, -⟩
  · refine iff_of_false ?_ hNot
    rw [ASwitchConfig.sends, hOff, Bool.false_and]
    exact Bool.false_ne_true
  · exact iff_of_true hSends hWants
  · refine iff_of_false ?_ hNot
    rw [ASwitch.not_sends_of_receives hReceives]
    decide

theorem receives_iff (hNet : layout.Configured net) (hk : k < L) (p : Nat) :
    (net.config (L - k - 1, p)).receives = true ↔ layout.Wants k p .receive := by
  rcases link_cases hNet hk p with ⟨hOff, -, hNot⟩ | ⟨hSends, -, hNot⟩ | ⟨hReceives, -, hWants⟩
  · refine iff_of_false ?_ hNot
    rw [ASwitchConfig.receives, hOff, Bool.false_and]
    exact Bool.false_ne_true
  · refine iff_of_false ?_ hNot
    intro hReceives
    rw [ASwitch.not_sends_of_receives hReceives] at hSends
    cases hSends
  · exact iff_of_true hReceives hWants

theorem partner_partner {p : Nat} (hp : 0 < p) : partner (partner p) = p := by
  unfold partner
  split <;> split <;> omega

theorem wants_partner (layout : Layout L) (k : Nat) (hp : 0 < p) :
    (layout.Wants k p .send ↔ layout.Wants k (partner p) .receive) ∧
      (layout.Wants k p .receive ↔ layout.Wants k (partner p) .send) := by
  have hBack := partner_partner hp
  refine ⟨⟨?_, ?_⟩, ⟨?_, ?_⟩⟩
  · rintro ⟨v, hv, hLive, hRole⟩
    exact ⟨v, hv, hLive, (role_partner hv).2 hRole⟩
  · rintro ⟨v, hv, hLive, hRole⟩
    exact ⟨v, hv, hLive, hBack ▸ (role_partner hv).1 hRole⟩
  · rintro ⟨v, hv, hLive, hRole⟩
    exact ⟨v, hv, hLive, (role_partner hv).1 hRole⟩
  · rintro ⟨v, hv, hLive, hRole⟩
    exact ⟨v, hv, hLive, hBack ▸ (role_partner hv).2 hRole⟩

/-- An adder that a neuron enters is one of its level. -/
theorem lt_of_role (hk : k < L) (hv : v < layout.numVNs)
    (hRole : layout.roleAt v k p ≠ .absent) : p < 2 ^ (L - k - 1) := by
  have hCovers := covers_of_role hv hRole
  have hLast := span_lt hv hk.le
  have hDouble : 2 ^ (L - k) = 2 * 2 ^ (L - k - 1) := by
    rw [← pow_succ', Nat.sub_add_cancel (by omega)]
  unfold Covers at hCovers
  omega

/-- A joined pair is inside its level. -/
theorem wants_inside (hk : k < L)
    (h : layout.Wants k p .send ∨ layout.Wants k p .receive) :
    0 < p ∧ p + 1 < 2 ^ (L - k - 1) := by
  obtain ⟨v, hv, hRole, hRole'⟩ : ∃ v < layout.numVNs, layout.roleAt v k p ≠ .absent ∧
      layout.roleAt v k (partner p) ≠ .absent ∧ partner p ≠ p := by
    rcases h with ⟨v, hv, -, hRole⟩ | ⟨v, hv, -, hRole⟩
    · have hOther := (role_partner hv).2 hRole
      refine ⟨v, hv, by rw [hRole]; decide, by rw [hOther]; decide, fun hSame => ?_⟩
      rw [hSame, hRole] at hOther
      cases hOther
    · have hOther := (role_partner hv).1 hRole
      refine ⟨v, hv, by rw [hRole]; decide, by rw [hOther]; decide, fun hSame => ?_⟩
      rw [hSame, hRole] at hOther
      cases hOther
  have hLess := lt_of_role hk hv hRole
  have hLess' := lt_of_role hk hv hRole'.1
  have hOther := hRole'.2
  have hEven : p ≠ 0 → 2 ^ (L - k - 1) % 2 = 0 := by
    intro hPos
    obtain ⟨j, hj⟩ : ∃ j, L - k - 1 = j + 1 := by
      refine Nat.exists_eq_succ_of_ne_zero fun hZero => ?_
      rw [hZero, pow_zero] at hLess
      omega
    rw [hj, pow_succ, Nat.mul_mod_left]
  unfold partner at hLess' hOther
  split at hLess' <;> split at hOther <;> omega

/-- The signals of an adder outside the tree are off. -/
theorem off_of_outside (hNet : layout.Configured net) {l : Nat} (hl : L ≤ l) (p : Nat) :
    (net.config (l, p)).fwEnabled = false := by
  obtain ⟨-, sig, hCompiled, hConfig⟩ := hNet
  have hEntries := hCompiled.others l p hl
  have hLink : sig.fwlinksConfiguration (l, p) = none := congrArg Prod.snd hEntries
  rw [hConfig, AdderSignals.switchConfig, hLink]
  rfl

theorem sends_off {cfg : ASwitchConfig} (h : cfg.fwEnabled = false) :
    cfg.sends = false ∧ cfg.receives = false := by
  rw [ASwitchConfig.sends, ASwitchConfig.receives, h]
  exact ⟨rfl, rfl⟩

/-- The forwarding links that the compiler enables join pairs. -/
theorem paired_of_configured (hNet : layout.Configured net) : net.Paired := by
  have hLevel : ∀ {l : Nat}, l < L → L - (L - l - 1) - 1 = l := fun hl => by omega
  refine ⟨fun id hEnabled => ?_, fun l p hOdd => ?_, fun l p hOdd => ?_, fun l => ?_,
    fun l hl => ?_⟩
  · obtain ⟨l, p⟩ := id
    rcases Nat.lt_or_ge l L with hl | hOver
    · have hCases := link_cases hNet (k := L - l - 1) (by omega) p
      rw [hLevel hl] at hCases
      rcases hCases with ⟨hOff, -⟩ | ⟨hSends, -⟩ | ⟨hReceives, -⟩
      · rw [hOff] at hEnabled
        cases hEnabled
      · exact .inl hSends
      · exact .inr hReceives
    · rw [off_of_outside hNet hOver] at hEnabled
      cases hEnabled
  · rcases Nat.lt_or_ge l L with hl | hOver
    · have hPartner : partner p = p + 1 := if_pos hOdd
      have hLeft := sends_iff hNet (k := L - l - 1) (by omega) p
      have hRight := receives_iff hNet (k := L - l - 1) (by omega) (p + 1)
      have hBoth := (layout.wants_partner (L - l - 1) (by omega : 0 < p)).1
      rw [hLevel hl] at hLeft hRight
      rw [hPartner] at hBoth
      rw [Bool.eq_iff_iff, hLeft, hRight, hBoth]
    · rw [(sends_off (off_of_outside hNet hOver p)).1,
        (sends_off (off_of_outside hNet hOver (p + 1))).2]
  · rcases Nat.lt_or_ge l L with hl | hOver
    · have hPartner : partner p = p + 1 := if_pos hOdd
      have hLeft := receives_iff hNet (k := L - l - 1) (by omega) p
      have hRight := sends_iff hNet (k := L - l - 1) (by omega) (p + 1)
      have hBoth := (layout.wants_partner (L - l - 1) (by omega : 0 < p)).2
      rw [hLevel hl] at hLeft hRight
      rw [hPartner] at hBoth
      rw [Bool.eq_iff_iff, hLeft, hRight, hBoth]
    · rw [(sends_off (off_of_outside hNet hOver p)).2,
        (sends_off (off_of_outside hNet hOver (p + 1))).1]
  · rcases Nat.lt_or_ge l L with hl | hOver
    · have hCases := link_cases hNet (k := L - l - 1) (by omega) 0
      rw [hLevel hl] at hCases
      rcases hCases with ⟨hOff, -⟩ | ⟨-, hWants, -⟩ | ⟨-, -, hWants⟩
      · exact hOff
      · exact absurd (wants_inside (by omega) (.inl hWants)).1 (Nat.lt_irrefl 0)
      · exact absurd (wants_inside (by omega) (.inr hWants)).1 (Nat.lt_irrefl 0)
    · exact off_of_outside hNet hOver 0
  · rw [hNet.1] at hl
    have hCases := link_cases hNet (k := L - l - 1) (by omega) (2 ^ l - 1)
    have hPos : 0 < 2 ^ l := Nat.two_pow_pos l
    rw [hLevel hl] at hCases
    rcases hCases with ⟨hOff, -⟩ | ⟨-, hWants, -⟩ | ⟨-, -, hWants⟩
    · exact hOff
    · have hInside := (wants_inside (by omega) (.inl hWants)).2
      rw [hLevel hl] at hInside
      omega
    · have hInside := (wants_inside (by omega) (.inr hWants)).2
      rw [hLevel hl] at hInside
      omega

end

end Layout

end Stonne
