import Stonne.Lib.Streams
import Stonne.Reduction.Joins

/-!
# The adders of a neuron

At every level a neuron is an interval of bits.  It enters the adders below which it has bits,
and passes on the adders that it keeps: an adder that sends over its forwarding link is entered
but not kept, and the neighbour receives.  So the maps of a compiler hold for every adder the
roles that the neurons have given it, one after the other.
-/

namespace Stonne

open Dataflow LevelState

/-- What a neuron wants of an adder. -/
inductive Role where
  | absent
  | plain
  | receive
  | send
  deriving DecidableEq, Repr

/-- The entries of an adder for its mode and its forwarding link. -/
abbrev Entries := Option AdderConfig × Option FlDirection

/-- The entries of an adder that is given a role. -/
def Role.enter : Role → Entries → Entries
  | .absent, entries => entries
  | .plain, (cfg, link) =>
      (some (if cfg.isSome then if link.isSome then .add11PlusFw11 else .fw22 else .add21), link)
  | .receive, _ => (some .add31, some .receive)
  | .send, (cfg, _) => (some (if cfg.isSome then .add11PlusFw11 else .add21), some .send)

namespace AdderSignals

def entries (sig : AdderSignals) (id : SwitchId) : Entries :=
  (sig.switchesConfiguration id, sig.fwlinksConfiguration id)

section

variable {sig : AdderSignals} {id id' next : SwitchId}

@[simp]
theorem entries_setSwitch {cfg : AdderConfig} :
    (sig.setSwitch id cfg).entries id' =
      if id' = id then (some cfg, (sig.entries id).2) else sig.entries id' := by
  unfold entries setSwitch
  split
  · rename_i hSame
    simp [hSame]
  · rename_i hOther
    simp [hOther]

@[simp]
theorem entries_setFwlink {dir : FlDirection} :
    (sig.setFwlink id dir).entries id' =
      if id' = id then ((sig.entries id).1, some dir) else sig.entries id' := by
  unfold entries setFwlink
  split
  · rename_i hSame
    simp [hSame]
  · rename_i hOther
    simp [hOther]

theorem entries_useSingle (hLink : sig.fwlinksConfiguration id = none) :
    (sig.useSingle id).entries id' =
      if id' = id then Role.plain.enter (sig.entries id) else sig.entries id' := by
  have hEnter : Role.plain.enter (sig.entries id) =
      (some (if (sig.switchesConfiguration id).isSome then .fw22 else .add21), none) := by
    rw [entries, hLink]
    rfl
  rw [hEnter, useSingle]
  split <;> rw [entries_setSwitch, entries, hLink]

theorem entries_usePaired :
    (sig.usePaired id next).entries id' =
      if id' = id then Role.plain.enter (sig.entries id) else sig.entries id' := by
  have hEnter : Role.plain.enter (sig.entries id) =
      (some (if (sig.switchesConfiguration id).isSome then
        if (sig.fwlinksConfiguration id).isSome then .add11PlusFw11 else .fw22 else .add21),
        (sig.entries id).2) := rfl
  rw [hEnter, usePaired]
  split
  · split
    · exact entries_setSwitch
    · exact entries_setSwitch
  · exact entries_setSwitch

theorem entries_joinPair {asReceive asSend : SwitchId} (hNe : asSend ≠ asReceive) :
    (sig.joinPair asReceive asSend).entries id' =
      if id' = asSend then Role.send.enter (sig.entries asSend)
      else if id' = asReceive then Role.receive.enter (sig.entries asReceive)
      else sig.entries id' := by
  have hCfg : (((sig.setFwlink asReceive .receive).setFwlink asSend .send).setSwitch asReceive
      .add31).switchesConfiguration asSend = sig.switchesConfiguration asSend := by
    simp [setSwitch, setFwlink, hNe]
  have hEnter : Role.send.enter (sig.entries asSend) =
      (some (if (sig.switchesConfiguration asSend).isSome then .add11PlusFw11 else .add21),
        some .send) := rfl
  have hReceive : Role.receive.enter (sig.entries asReceive) = (some .add31, some .receive) := rfl
  rw [hEnter, hReceive]
  simp only [joinPair, hCfg]
  split
  all_goals
    simp only [entries_setSwitch, entries_setFwlink, hNe.symm, if_false, if_true]
    split
    · rfl
    · split <;> rfl

theorem memory_usePaired :
    (sig.usePaired id next).forwardingToMemoryEnabled = sig.forwardingToMemoryEnabled := by
  unfold usePaired
  split
  · split <;> rfl
  · rfl

theorem memory_useSingle :
    (sig.useSingle id).forwardingToMemoryEnabled = sig.forwardingToMemoryEnabled := by
  unfold useSingle
  split <;> rfl

theorem memory_joinPair {asReceive asSend : SwitchId} :
    (sig.joinPair asReceive asSend).forwardingToMemoryEnabled =
      sig.forwardingToMemoryEnabled := by
  unfold joinPair
  simp only
  split <;> rfl

end

end AdderSignals

/-! ## The adders that an interval keeps -/

/-- The first adder that the bits `x`, …, `y` keep. -/
def firstKept (x y : Nat) : Nat :=
  if x / 2 % 2 = 1 ∧ JoinsRight x y (x / 2) then x / 2 + 1 else x / 2

/-- The last adder that the bits `x`, …, `y` keep.  A join to the right has been made before. -/
def lastKept (x y : Nat) : Nat :=
  if y / 2 % 2 = 0 ∧ 0 < y / 2 ∧ JoinsLeft (max x (2 * firstKept x y)) y (y / 2 - 1) then
    y / 2 - 1
  else y / 2

/-- The role of the adder `p` for the bits `x`, …, `y` below its level. -/
def roleOf (x y p : Nat) : Role :=
  if p < x / 2 ∨ y / 2 < p then .absent
  else if p < firstKept x y ∨ lastKept x y < p then .send
  else if x / 2 < p ∧ p = firstKept x y ∨ p < y / 2 ∧ p = lastKept x y then .receive
  else .plain


namespace LevelState

section

variable {sig : AdderSignals} {numMs l A f x y as : Nat} {st : LevelState}

theorem firstKept_cases (x y : Nat) :
    firstKept x y = x / 2 ∧ ¬(x / 2 % 2 = 1 ∧ JoinsRight x y (x / 2)) ∨
      firstKept x y = x / 2 + 1 ∧ x / 2 % 2 = 1 ∧ JoinsRight x y (x / 2) := by
  rw [firstKept]
  split
  · rename_i hJoin
    exact .inr ⟨rfl, hJoin⟩
  · rename_i hApart
    exact .inl ⟨rfl, hApart⟩

theorem lastKept_cases (x y : Nat) :
    lastKept x y = y / 2 ∧ ¬(y / 2 % 2 = 0 ∧ 0 < y / 2 ∧
        JoinsLeft (max x (2 * firstKept x y)) y (y / 2 - 1)) ∨
      lastKept x y = y / 2 - 1 ∧ y / 2 % 2 = 0 ∧ 0 < y / 2 ∧
        JoinsLeft (max x (2 * firstKept x y)) y (y / 2 - 1) := by
  rw [lastKept]
  split
  · rename_i hJoin
    exact .inr ⟨rfl, hJoin⟩
  · rename_i hApart
    exact .inl ⟨rfl, hApart⟩

/-- The bits that are left when the adders below `f` are decided. -/
def bitsFrom (f x y : Nat) : Nat :=
  if x / 2 < f then max x (2 * firstKept x y) else x

def bitsTo (f x y : Nat) : Nat :=
  if y / 2 < f then min y (2 * lastKept x y + 1) else y

/-- The loop over the adders of level `l` with the adders below `f` decided: these have been
given their roles. -/
structure Entered (sig : AdderSignals) (l x y f : Nat) (st : LevelState) : Prop where
  bits : st.vectorBits = between (bitsFrom f x y) (bitsTo f x y)
  parents : ∀ s, st.parentBits s =
    (decide (s < f) && decide (firstKept x y ≤ s ∧ s ≤ lastKept x y))
  here : ∀ p, st.signals.entries (l, p) =
    if p < f then (roleOf x y p).enter (sig.entries (l, p)) else sig.entries (l, p)
  others : ∀ l' p, l' ≠ l → st.signals.entries (l', p) = sig.entries (l', p)
  memory : st.signals.forwardingToMemoryEnabled = sig.forwardingToMemoryEnabled

/-- What an interval keeps. -/
theorem kept_bounds (hxy : x ≤ y) :
    x / 2 ≤ firstKept x y ∧ firstKept x y ≤ lastKept x y ∧ lastKept x y ≤ y / 2 ∧
      (x / 2 < firstKept x y → firstKept x y = x / 2 + 1 ∧ x / 2 % 2 = 1) ∧
      (lastKept x y < y / 2 → y / 2 = lastKept x y + 1 ∧ lastKept x y % 2 = 1) := by
  rcases firstKept_cases x y with ⟨hFirst, -⟩ | ⟨hFirst, hOdd, hJoin⟩ <;>
    rcases lastKept_cases x y with ⟨hLast, -⟩ | ⟨hLast, hEven, hPos, hJoin'⟩
  all_goals
    try unfold JoinsRight at hJoin
    try unfold JoinsLeft at hJoin'
    omega

/-- Neither the first nor the last adder sends or receives. -/
theorem edge_kept (hxy : x ≤ y) (hy : y < 2 * A) (hA : A = 1 ∨ A % 2 = 0)
    (hEdge : as = 0 ∨ as + 1 = A) :
    (bitsFrom as x y ≤ 2 * as + 1 ∧ 2 * as ≤ bitsTo as x y ↔
        firstKept x y ≤ as ∧ as ≤ lastKept x y) ∧
      bitsFrom (as + 1) x y = bitsFrom as x y ∧ bitsTo (as + 1) x y = bitsTo as x y ∧
      roleOf x y as = if firstKept x y ≤ as ∧ as ≤ lastKept x y then .plain else .absent := by
  obtain ⟨hFrom, hOrder, hTo, hRight, hLeft⟩ := kept_bounds hxy
  have hFirst : x / 2 = as → firstKept x y = as := by omega
  have hLast : y / 2 = as → lastKept x y = as := by omega
  unfold bitsFrom bitsTo roleOf
  generalize firstKept x y = F at *
  generalize lastKept x y = K at *
  refine ⟨?_, ?_, ?_, ?_⟩
  · split <;> split <;> omega
  · split <;> split <;> omega
  · split <;> split <;> omega
  · split_ifs <;> first | rfl | (exfalso; omega)

/-- A pair is joined if the interval does not keep both adders. -/
theorem pair_kept {as x y : Nat} (hxy : x ≤ y) (hOdd : as % 2 = 1) :
    (JoinsLeft (bitsFrom as x y) (bitsTo as x y) as ↔ y / 2 = as + 1 ∧ lastKept x y = as) ∧
      (JoinsRight (bitsFrom as x y) (bitsTo as x y) as ↔
        x / 2 = as ∧ firstKept x y = as + 1) := by
  have hBounds := kept_bounds hxy
  have hFirst := firstKept_cases x y
  have hLast := lastKept_cases x y
  unfold bitsFrom bitsTo
  generalize firstKept x y = F at *
  generalize lastKept x y = K at *
  unfold JoinsRight JoinsLeft at *
  constructor
  · split <;> split <;> omega
  · split <;> split <;> omega

theorem roleOf_kept {p : Nat} (hFirst : firstKept x y ≤ p) (hLast : p ≤ lastKept x y)
    (hLeft : x / 2 < p → p ≠ firstKept x y) (hRight : p < y / 2 → p ≠ lastKept x y)
    (hxy : x ≤ y) : roleOf x y p = .plain := by
  obtain ⟨hFrom, hOrder, hTo, -, -⟩ := kept_bounds hxy
  rw [roleOf, if_neg (by omega), if_neg (by omega), if_neg]
  rintro (⟨hMoved, hSame⟩ | ⟨hMoved, hSame⟩)
  · exact hLeft hMoved hSame
  · exact hRight hMoved hSame

theorem roleOf_absent {p : Nat} (h : p < x / 2 ∨ y / 2 < p) : roleOf x y p = .absent :=
  if_pos h

/-- An adder that is decided in a round of the loop is given its role, the others keep their
entries. -/
theorem Entered.here_of_round {f' : Nat} {st' : LevelState} (hStage : Entered sig l x y f st)
    (hf : f ≤ f') (hRound : ∀ p, st'.signals.entries (l, p) =
      if f ≤ p ∧ p < f' then (roleOf x y p).enter (st.signals.entries (l, p))
      else st.signals.entries (l, p)) (p : Nat) :
    st'.signals.entries (l, p) =
      if p < f' then (roleOf x y p).enter (sig.entries (l, p)) else sig.entries (l, p) := by
  rw [hRound, hStage.here]
  split_ifs <;> first | rfl | (exfalso; omega)

/-- The first or the last adder of the level. -/
theorem single_entered (hStage : Entered sig l x y as st) (hxy : x ≤ y) (hy : y < 2 * A)
    (hA : A = 1 ∨ A % 2 = 0) (hEdge : as = 0 ∨ as + 1 = A)
    (hLink : sig.fwlinksConfiguration (l, as) = none) :
    Entered sig l x y (as + 1) (configureSingle l st as) := by
  obtain ⟨hSides, hFrom, hTo, hRole⟩ := edge_kept hxy hy hA hEdge
  have hHere := hStage.here as
  rw [if_neg (Nat.lt_irrefl as)] at hHere
  have hLink' : st.signals.fwlinksConfiguration (l, as) = none :=
    (congrArg Prod.snd hHere).trans hLink
  have hHit : (st.vectorBits (as * 2) || st.vectorBits (as * 2 + 1)) =
      decide (firstKept x y ≤ as ∧ as ≤ lastKept x y) := by
    rw [hStage.bits, Bool.eq_iff_iff, Bool.or_eq_true, between_iff, between_iff,
      decide_eq_true_iff, ← hSides]
    have hOrder : bitsFrom as x y ≤ bitsTo as x y := by
      obtain ⟨hFirst, hKept, hLast, -⟩ := kept_bounds hxy
      unfold bitsFrom bitsTo
      split <;> split <;> omega
    omega
  have hParents : ∀ s, (if s = as then decide (firstKept x y ≤ as ∧ as ≤ lastKept x y)
      else st.parentBits s) =
      (decide (s < as + 1) && decide (firstKept x y ≤ s ∧ s ≤ lastKept x y)) := by
    intro s
    rw [hStage.parents]
    split
    · rename_i hSame
      simp [hSame]
    · rename_i hOther
      have hBelow : s < as + 1 ↔ s < as := by omega
      simp only [hBelow]
  have hBits : st.vectorBits = between (bitsFrom (as + 1) x y) (bitsTo (as + 1) x y) := by
    rw [hFrom, hTo]
    exact hStage.bits
  rw [configureSingle, hHit]
  split
  · rename_i hSet
    have hKept := of_decide_eq_true hSet
    rw [if_pos hKept] at hRole
    refine ⟨hBits, fun s => ?_, hStage.here_of_round (Nat.le_succ as) fun p => ?_,
      fun l' p hLevel => ?_, AdderSignals.memory_useSingle.trans hStage.memory⟩
    · rw [← hParents s, hSet]
      exact setParent_parentBits as true s
    · refine (AdderSignals.entries_useSingle hLink').trans ?_
      rcases eq_or_ne p as with rfl | hOther
      · rw [if_pos rfl, if_pos ⟨Nat.le_refl _, Nat.lt_succ_self _⟩, hRole]
      · rw [if_neg (by simpa using hOther), if_neg (by omega)]
    · refine (AdderSignals.entries_useSingle hLink').trans ?_
      rw [if_neg (by simp [hLevel])]
      exact hStage.others l' p hLevel
  · rename_i hClear
    rw [if_neg (by simpa using hClear)] at hRole
    refine ⟨hBits, fun s => ?_, hStage.here_of_round (Nat.le_succ as) fun p => ?_,
      hStage.others, hStage.memory⟩
    · rw [← hParents s, eq_false_of_ne_true hClear]
      exact setParent_parentBits as false s
    · split
      · rename_i hSame
        have hSame : p = as := by omega
        rw [hSame, hRole]
        rfl
      · rfl

/-- What a pair that stays apart keeps. -/
theorem apart_kept (hxy : x ≤ y) (hOdd : as % 2 = 1)
    (hLeft : ¬(y / 2 = as + 1 ∧ lastKept x y = as))
    (hRight : ¬(x / 2 = as ∧ firstKept x y = as + 1)) :
    bitsFrom (as + 2) x y = bitsFrom as x y ∧ bitsTo (as + 2) x y = bitsTo as x y ∧
      ∀ p, as ≤ p ∧ p < as + 2 →
        (Hits (bitsFrom as x y) (bitsTo as x y) p ↔ firstKept x y ≤ p ∧ p ≤ lastKept x y) ∧
        roleOf x y p =
          if firstKept x y ≤ p ∧ p ≤ lastKept x y then .plain else .absent := by
  obtain ⟨hFrom, hOrder, hTo, hRight', hLeft'⟩ := kept_bounds hxy
  have hFirst : x / 2 = as ∨ x / 2 = as + 1 → firstKept x y = x / 2 := by omega
  have hLast : y / 2 = as ∨ y / 2 = as + 1 → lastKept x y = y / 2 := by omega
  unfold bitsFrom bitsTo roleOf Hits
  generalize firstKept x y = F at *
  generalize lastKept x y = K at *
  refine ⟨?_, ?_, fun p hp => ⟨?_, ?_⟩⟩
  · split <;> split <;> omega
  · split <;> split <;> omega
  · split <;> split <;> omega
  · split_ifs <;> first | rfl | (exfalso; omega)

theorem entries_useEnabled {next id id' : SwitchId} (sig : AdderSignals) (n : Nat) :
    (if 0 < n then sig.usePaired id next else sig).entries id' =
      if id' = id ∧ 0 < n then Role.plain.enter (sig.entries id') else sig.entries id' := by
  split
  · rename_i hPos
    rw [AdderSignals.entries_usePaired]
    split
    · rename_i hSame
      rw [if_pos ⟨hSame, hPos⟩, hSame]
    · rename_i hOther
      rw [if_neg fun h => hOther h.1]
  · rename_i hZero
    rw [if_neg fun h => hZero h.2]

theorem configureApart_entries (as left right : Nat) (id : SwitchId) :
    (configureApart l st as left right).signals.entries id =
      if id = (l, as + 1) ∧ 0 < right ∨ id = (l, as) ∧ 0 < left then
        Role.plain.enter (st.signals.entries id)
      else st.signals.entries id := by
  simp only [configureApart, entries_useEnabled]
  split
  · rename_i hRight
    rw [if_pos (Or.inl hRight), if_neg (by simp [hRight.1])]
  · rename_i hRight
    simp only [hRight, false_or]

theorem configureApart_memory (as left right : Nat) :
    (configureApart l st as left right).signals.forwardingToMemoryEnabled =
      st.signals.forwardingToMemoryEnabled := by
  simp only [configureApart]
  split <;> split <;> simp only [AdderSignals.memory_usePaired]

/-- The parents of the adders up to a decided pair. -/
theorem Entered.parents_of_pair {st' : LevelState} (hStage : Entered sig l x y as st)
    (hLeft : st'.parentBits as = decide (firstKept x y ≤ as ∧ as ≤ lastKept x y))
    (hRight : st'.parentBits (as + 1) =
      decide (firstKept x y ≤ as + 1 ∧ as + 1 ≤ lastKept x y))
    (hOther : ∀ s, s ≠ as → s ≠ as + 1 → st'.parentBits s = st.parentBits s) (s : Nat) :
    st'.parentBits s =
      (decide (s < as + 2) && decide (firstKept x y ≤ s ∧ s ≤ lastKept x y)) := by
  rcases eq_or_ne s as with rfl | hAs
  · rw [hLeft, decide_eq_true (by omega : s < s + 2), Bool.true_and]
  · rcases eq_or_ne s (as + 1) with rfl | hNext
    · rw [hRight, decide_eq_true (by omega : as + 1 < as + 2), Bool.true_and]
    · have hBelow : s < as + 2 ↔ s < as := by omega
      rw [hOther s hAs hNext, hStage.parents]
      simp only [hBelow]

/-- The entries of a pair that is joined. -/
theorem joined_here {a b p : Nat} (hEnds : a = as ∧ b = as + 1 ∨ a = as + 1 ∧ b = as)
    (hReceive : roleOf x y a = .receive) (hSend : roleOf x y b = .send) :
    (st.signals.joinPair (l, a) (l, b)).entries (l, p) =
      if as ≤ p ∧ p < as + 2 then (roleOf x y p).enter (st.signals.entries (l, p))
      else st.signals.entries (l, p) := by
  have hNe : ((l, b) : SwitchId) ≠ (l, a) := by
    rw [ne_eq, Prod.mk.injEq]
    omega
  rw [AdderSignals.entries_joinPair hNe]
  rcases eq_or_ne p b with rfl | hB
  · rw [if_pos rfl, if_pos (by omega), hSend]
  · rw [if_neg (by simp [hB])]
    rcases eq_or_ne p a with rfl | hA
    · rw [if_pos rfl, if_pos (by omega), hReceive]
    · rw [if_neg (by simp [hA]), if_neg (by omega)]

theorem joined_others {a b l' p : Nat} (hLevel : l' ≠ l) (hNe : ((l, b) : SwitchId) ≠ (l, a)) :
    (st.signals.joinPair (l, a) (l, b)).entries (l', p) = st.signals.entries (l', p) := by
  rw [AdderSignals.entries_joinPair hNe, if_neg (by simp [hLevel]), if_neg (by simp [hLevel])]

/-- The right adder of the pair sends to the left one. -/
theorem left_entered (hStage : Entered sig l x y as st) (hxy : x ≤ y)
    (hLast : y / 2 = as + 1) (hKept : lastKept x y = as) :
    Entered sig l x y (as + 2)
      { (st.setParent as true).setParent (as + 1) false with
        vectorBits := between (bitsFrom as x y) (2 * as + 1)
        signals := st.signals.joinPair (l, as) (l, as + 1) } := by
  obtain ⟨hFrom, hOrder, hTo, hMoved, hMoved'⟩ := kept_bounds hxy
  have hReceive : roleOf x y as = .receive := by
    rw [roleOf, if_neg (by omega), if_neg (by omega), if_pos (.inr ⟨by omega, hKept.symm⟩)]
  have hSend : roleOf x y (as + 1) = .send := by
    rw [roleOf, if_neg (by omega), if_pos (.inr (by omega))]
  refine ⟨?_, hStage.parents_of_pair ?_ ?_ ?_, hStage.here_of_round (Nat.le_add_right as 2)
    fun p => joined_here (.inl ⟨rfl, rfl⟩) hReceive hSend, fun l' p hLevel => ?_,
    AdderSignals.memory_joinPair.trans hStage.memory⟩
  · have hBits : bitsFrom (as + 2) x y = bitsFrom as x y := by
      unfold bitsFrom
      split <;> split <;> omega
    have hBits' : bitsTo (as + 2) x y = 2 * as + 1 := by
      unfold bitsTo
      rw [if_pos (by omega)]
      omega
    rw [hBits, hBits']
  · simp [setParent, hKept]
    omega
  · simp [setParent, hKept]
  · intro s hAs hNext
    simp [setParent, hAs, hNext]
  · exact (joined_others hLevel (by simp)).trans (hStage.others l' p hLevel)

/-- The left adder of the pair sends to the right one. -/
theorem right_entered (hStage : Entered sig l x y as st) (hxy : x ≤ y)
    (hFirst : x / 2 = as) (hKept : firstKept x y = as + 1) :
    Entered sig l x y (as + 2)
      { (st.setParent (as + 1) true).setParent as false with
        vectorBits := between (2 * as + 2) (bitsTo as x y)
        signals := st.signals.joinPair (l, as + 1) (l, as) } := by
  obtain ⟨hFrom, hOrder, hTo, hMoved, hMoved'⟩ := kept_bounds hxy
  have hReceive : roleOf x y (as + 1) = .receive := by
    rw [roleOf, if_neg (by omega), if_neg (by omega), if_pos (.inl ⟨by omega, hKept.symm⟩)]
  have hSend : roleOf x y as = .send := by
    rw [roleOf, if_neg (by omega), if_pos (.inl (by omega))]
  refine ⟨?_, hStage.parents_of_pair ?_ ?_ ?_, hStage.here_of_round (Nat.le_add_right as 2)
    fun p => joined_here (.inr ⟨rfl, rfl⟩) hReceive hSend, fun l' p hLevel => ?_,
    AdderSignals.memory_joinPair.trans hStage.memory⟩
  · have hBits : bitsFrom (as + 2) x y = 2 * as + 2 := by
      unfold bitsFrom
      rw [if_pos (by omega)]
      omega
    have hBits' : bitsTo (as + 2) x y = bitsTo as x y := by
      unfold bitsTo
      split <;> split <;> omega
    rw [hBits, hBits']
  · simp [setParent, hKept]
  · simp [setParent, hKept]
    omega
  · intro s hAs hNext
    simp [setParent, hAs, hNext]
  · exact (joined_others hLevel (by simp)).trans (hStage.others l' p hLevel)

/-- A pair whose forwarding link stays off. -/
theorem apart_entered {left right : Nat} (hStage : Entered sig l x y as st) (hxy : x ≤ y)
    (hOdd : as % 2 = 1) (hApart : ¬(y / 2 = as + 1 ∧ lastKept x y = as))
    (hApart' : ¬(x / 2 = as ∧ firstKept x y = as + 1))
    (hLeft : 0 < left ↔ Hits (bitsFrom as x y) (bitsTo as x y) as)
    (hRight : 0 < right ↔ Hits (bitsFrom as x y) (bitsTo as x y) (as + 1)) :
    Entered sig l x y (as + 2)
      (configureApart l
        ((st.setParent as (decide (Hits (bitsFrom as x y) (bitsTo as x y) as))).setParent (as + 1)
          (decide (Hits (bitsFrom as x y) (bitsTo as x y) (as + 1)))) as left right) := by
  obtain ⟨hFrom, hTo, hPair⟩ := apart_kept hxy hOdd hApart hApart'
  obtain ⟨hHit, hRole⟩ := hPair as (by omega)
  obtain ⟨hHit', hRole'⟩ := hPair (as + 1) (by omega)
  rw [hHit] at hLeft
  rw [hHit'] at hRight
  refine ⟨?_, hStage.parents_of_pair ?_ ?_ ?_, hStage.here_of_round (Nat.le_add_right as 2)
    fun p => ?_, fun l' p hLevel => ?_, (configureApart_memory _ _ _).trans hStage.memory⟩
  · rw [hFrom, hTo]
    exact hStage.bits
  · simp [configureApart, setParent, hHit]
  · simp [configureApart, setParent, hHit']
  · intro s hAs hNext
    simp [configureApart, setParent, hAs, hNext]
  · rw [configureApart_entries]
    rcases eq_or_ne p as with rfl | hAs
    · rw [hRole, if_pos (by omega : p ≤ p ∧ p < p + 2)]
      simp only [Prod.mk.injEq, true_and, Nat.left_eq_add, one_ne_zero, false_and, false_or, hLeft]
      split <;> rfl
    · rcases eq_or_ne p (as + 1) with rfl | hNext
      · rw [hRole', if_pos (by omega : as ≤ as + 1 ∧ as + 1 < as + 2)]
        simp only [Prod.mk.injEq, true_and, hAs, false_and, or_false, hRight]
        split <;> rfl
      · rw [if_neg (by simp [hAs, hNext]), if_neg (by omega)]
        rfl
  · rw [configureApart_entries, if_neg (by simp [hLevel])]
    exact hStage.others l' p hLevel

/-- The pair `as`, `as + 1`. -/
theorem pair_entered (hStage : Entered sig l x y as st) (hxy : x ≤ y) (hy : y < numMs)
    (hOdd : as % 2 = 1) : Entered sig l x y (as + 2) (configurePair numMs l st as) := by
  have hBounds := kept_bounds hxy
  have hOrder : bitsFrom as x y ≤ bitsTo as x y := by
    unfold bitsFrom bitsTo
    split <;> split <;> omega
  have hFits : bitsTo as x y < numMs := by
    unfold bitsTo
    split <;> omega
  obtain ⟨hJoinsLeft, hJoinsRight⟩ := pair_kept hxy hOdd
  rcases configurePair_eq (l := l) hStage.bits hOrder hFits hOdd with
    ⟨hJoin, hEq⟩ | ⟨hJoin, hEq⟩ | ⟨hApart, hApart', left, right, hLeft, hRight, hEq⟩
  · rw [hEq]
    obtain ⟨hLast, hKept⟩ := hJoinsLeft.mp hJoin
    exact left_entered hStage hxy hLast hKept
  · rw [hEq]
    obtain ⟨hFirst, hKept⟩ := hJoinsRight.mp hJoin
    exact right_entered hStage hxy hFirst hKept
  · rw [hEq]
    exact apart_entered hStage hxy hOdd (mt hJoinsLeft.mpr hApart) (mt hJoinsRight.mpr hApart')
      hLeft hRight

/-- One round of the loop. -/
theorem adder_entered {n : Nat} (hA : A = 1 ∨ A % 2 = 0) (hMs : 2 * A ≤ numMs) (hn : n < A)
    (hxy : x ≤ y) (hy : y < 2 * A)
    (hEdges : ∀ p, p = 0 ∨ A ≤ p + 1 → sig.fwlinksConfiguration (l, p) = none)
    (hStage : Entered sig l x y (front A n) st) :
    Entered sig l x y (front A (n + 1)) (configureAdder numMs A l st n) := by
  rw [configureAdder]
  rcases Nat.mod_two_eq_zero_or_one n with hEven | hOdd
  · rcases Nat.eq_zero_or_pos n with rfl | hPos
    · have hFront : front A 0 = 0 := if_neg (by omega)
      rw [hFront] at hStage
      rw [if_pos (.inl rfl), front_odd (by omega)]
      exact single_entered hStage hxy hy hA (.inl rfl) (hEdges 0 (.inl rfl))
    · have hFront : front A n = n + 1 := if_pos ⟨hEven, hPos, hn⟩
      rw [hFront] at hStage
      rw [if_neg (by omega), if_neg (by omega), front_odd (by omega)]
      exact hStage
  · rw [front_odd hOdd] at hStage
    rcases Nat.lt_or_ge (n + 1) A with hInner | hLast
    · have hFront : front A (n + 1) = n + 2 := if_pos ⟨by omega, by omega, hInner⟩
      rw [if_neg (by omega), if_pos hOdd, hFront]
      exact pair_entered hStage hxy (hy.trans_le hMs) hOdd
    · have hEq : n + 1 = A := by omega
      rw [if_pos (.inr hEq), hEq, front_self, ← hEq]
      exact single_entered hStage hxy hy hA (.inr hEq) (hEdges n (.inr hLast))

theorem level_entered {n : Nat} (hA : A = 1 ∨ A % 2 = 0) (hMs : 2 * A ≤ numMs) (hn : n ≤ A)
    (hxy : x ≤ y) (hy : y < 2 * A)
    (hEdges : ∀ p, p = 0 ∨ A ≤ p + 1 → sig.fwlinksConfiguration (l, p) = none)
    (hStart : Entered sig l x y 0 st) :
    Entered sig l x y (front A n) ((List.range n).foldl (configureAdder numMs A l) st) := by
  induction n with
  | zero =>
      have hFront : front A 0 = 0 := if_neg (by omega)
      rw [hFront]
      exact hStart
  | succ n ih =>
      rw [List.range_succ, List.foldl_append]
      exact adder_entered hA hMs hn hxy hy hEdges (ih (by omega))

/-- What a level does: every adder is given its role, and the adders that are kept go on. -/
theorem configureLevel_entries (hA : A = 1 ∨ A % 2 = 0) (hMs : 2 * A ≤ numMs) (hxy : x ≤ y)
    (hy : y < 2 * A)
    (hEdges : ∀ p, p = 0 ∨ A ≤ p + 1 → sig.fwlinksConfiguration (l, p) = none) :
    let st := configureLevel numMs A l sig (between x y)
    st.parentBits = between (firstKept x y) (lastKept x y) ∧
      (∀ p, st.signals.entries (l, p) = (roleOf x y p).enter (sig.entries (l, p))) ∧
      (∀ l' p, l' ≠ l → st.signals.entries (l', p) = sig.entries (l', p)) ∧
      st.signals.forwardingToMemoryEnabled = sig.forwardingToMemoryEnabled := by
  intro st
  have hStart : Entered sig l x y 0 { signals := sig, vectorBits := between x y } :=
    ⟨rfl, fun _ => rfl, fun _ => rfl, fun _ _ _ => rfl, rfl⟩
  have hStage := level_entered hA hMs (Nat.le_refl A) hxy hy hEdges hStart
  rw [front_self] at hStage
  have hBounds := kept_bounds hxy
  refine ⟨funext fun s => ?_, fun p => ?_, hStage.others, hStage.memory⟩
  · refine (hStage.parents s).trans ?_
    rw [Bool.eq_iff_iff, Bool.and_eq_true, decide_eq_true_iff, decide_eq_true_iff, between_iff]
    omega
  · refine (hStage.here p).trans ?_
    split
    · rfl
    · rw [roleOf_absent (.inr (by omega))]
      rfl

end

end LevelState

/-! ## All levels -/

/-- The bits of a neuron, from the first to the last. -/
abbrev Bits := Nat × Nat

/-- The adders that a neuron keeps above its bits. -/
def parents (bits : Bits) : Bits :=
  (firstKept bits.1 bits.2, lastKept bits.1 bits.2)

/-- The bits of a neuron `k` levels further up. -/
def reach (bits : Bits) (k : Nat) : Bits :=
  parents^[k] bits

section

variable {numMs L : Nat} {bits : Bits} {sig : AdderSignals}

@[simp]
theorem reach_zero : reach bits 0 = bits := rfl

theorem reach_succ (k : Nat) : reach bits (k + 1) = parents (reach bits k) :=
  Function.iterate_succ_apply' parents k bits

theorem reach_parents (k : Nat) : reach (parents bits) k = reach bits (k + 1) := rfl

theorem parents_ordered (h : bits.1 ≤ bits.2) : (parents bits).1 ≤ (parents bits).2 :=
  (kept_bounds h).2.1

theorem reach_ordered (h : bits.1 ≤ bits.2) (k : Nat) : (reach bits k).1 ≤ (reach bits k).2 := by
  induction k with
  | zero => exact h
  | succ k ih =>
      rw [reach_succ]
      exact parents_ordered ih

theorem reach_lt {n k : Nat} (h : bits.1 ≤ bits.2) (hLast : bits.2 < 2 ^ (n + k)) :
    (reach bits k).2 < 2 ^ n := by
  induction k generalizing n with
  | zero => exact hLast
  | succ k ih =>
      have hBelow := ih (n := n + 1) (by rwa [Nat.add_right_comm])
      have hBounds := (kept_bounds (reach_ordered h k)).2.2.1
      rw [reach_succ]
      rw [pow_succ] at hBelow
      change lastKept _ _ < _
      omega

theorem bitsEnabled_single {x : Nat} (hx : x < numMs) :
    bitsEnabled numMs (between x x) = [x] :=
  filter_eq_singleton List.nodup_range (List.mem_range.mpr hx) fun _ _ =>
    between_iff.trans (by omega)

/-- A level leaves one adder only if the interval is a single bit. -/
theorem eq_of_bitsEnabled {x y p : Nat} (hxy : x ≤ y) (hy : y < numMs)
    (h : bitsEnabled numMs (between x y) = [p]) : x = p ∧ y = p := by
  have hMem : ∀ q, x ≤ q → q ≤ y → q = p := by
    intro q hFrom hTo
    have hIn : q ∈ bitsEnabled numMs (between x y) :=
      List.mem_filter.mpr ⟨List.mem_range.mpr (by omega), between_iff.mpr ⟨hFrom, hTo⟩⟩
    rw [h] at hIn
    exact List.mem_singleton.mp hIn
  exact ⟨hMem x (Nat.le_refl x) hxy, hMem y hxy (Nat.le_refl y)⟩

/-- The role of the adder `p` above the bits of a neuron. -/
abbrev role (bits : Bits) (p : Nat) : Role :=
  roleOf bits.1 bits.2 p

/-- The first and the last adder of a level have no forwarding link. -/
def EdgesFree (L : Nat) (sig : AdderSignals) : Prop :=
  ∀ l p, l < L → p = 0 ∨ 2 ^ l ≤ p + 1 → sig.fwlinksConfiguration (l, p) = none

/-- The maps after a neuron: every adder of the levels below `L` has been given its role. -/
structure NeuronEntered (L : Nat) (bits : Bits) (sig sig' : AdderSignals) : Prop where
  entries : ∀ l p, l < L →
    sig'.entries (l, p) = (role (reach bits (L - l - 1)) p).enter (sig.entries (l, p))
  others : ∀ l p, L ≤ l → sig'.entries (l, p) = sig.entries (l, p)
  memory : ∀ l p, sig'.forwardingToMemoryEnabled (l, p) =
    (sig.forwardingToMemoryEnabled (l, p) || decide (l < L ∧ reach bits (L - l) = (p, p)))

/-- The mark of a level that leaves one adder. -/
def AdderSignals.markSingle (sig : AdderSignals) (l : Nat) : List Nat → AdderSignals
  | [last] =>
      { sig with
        forwardingToMemoryEnabled :=
          Function.update sig.forwardingToMemoryEnabled (l, last) true }
  | _ => sig

theorem configureLevels_succ (numAdders : Nat) (vectorBits : Nat → Bool) :
    CompilerART.configureLevels numMs (L + 1) numAdders vectorBits sig =
      let st := configureLevel numMs (numAdders / 2) L sig vectorBits
      CompilerART.configureLevels numMs L (numAdders / 2) st.parentBits
        (st.signals.markSingle L (bitsEnabled numMs st.parentBits)) :=
  rfl

theorem entries_markSingle (sig : AdderSignals) (l : Nat) (last : List Nat) (id : SwitchId) :
    (sig.markSingle l last).entries id = sig.entries id := by
  unfold AdderSignals.markSingle
  split <;> rfl

/-- The adder to which a single bit is reduced sends to memory. -/
theorem memory_markSingle (sig : AdderSignals) {x y : Nat} (hxy : x ≤ y) (hy : y < numMs)
    (l p : Nat) :
    (sig.markSingle L (bitsEnabled numMs (between x y))).forwardingToMemoryEnabled (l, p) =
      (sig.forwardingToMemoryEnabled (l, p) || decide (l = L ∧ (x, y) = (p, p))) := by
  unfold AdderSignals.markSingle
  split
  · rename_i last hSingle
    obtain ⟨rfl, rfl⟩ := eq_of_bitsEnabled hxy hy hSingle
    rcases eq_or_ne ((l, p) : SwitchId) (L, y) with hSame | hOther
    · simp only [hSame, Function.update_self]
      rw [Prod.mk.injEq] at hSame
      simp [hSame]
    · simp only [Function.update_of_ne hOther]
      rw [ne_eq, Prod.mk.injEq] at hOther
      have hNot : ¬(l = L ∧ (y, y) = (p, p)) := by
        rw [Prod.mk.injEq]
        omega
      rw [decide_eq_false hNot, Bool.or_false]
  · rename_i hMany
    have hNot : ¬(l = L ∧ (x, y) = (p, p)) := by
      rintro ⟨-, hSame⟩
      rw [Prod.mk.injEq] at hSame
      obtain ⟨rfl, rfl⟩ := hSame
      exact hMany _ (bitsEnabled_single hy)
    rw [decide_eq_false hNot, Bool.or_false]

/-- `CompilerART` over all levels for one neuron. -/
theorem art_entered (hMs : 2 ^ L ≤ numMs) (hOrder : bits.1 ≤ bits.2) (hFits : bits.2 < 2 ^ L)
    (hEdges : EdgesFree L sig) :
    NeuronEntered L bits sig
      (CompilerART.configureLevels numMs L (2 ^ L) (between bits.1 bits.2) sig) := by
  induction L generalizing sig bits with
  | zero =>
      refine ⟨fun l p hl => absurd hl (Nat.not_lt_zero l), fun _ _ _ => rfl, fun l p => ?_⟩
      rw [decide_eq_false (by omega), Bool.or_false]
      rfl
  | succ L ih =>
      have hHalf : 2 ^ (L + 1) / 2 = 2 ^ L := by
        rw [pow_succ, Nat.mul_div_cancel _ Nat.two_pos]
      have hDouble : 2 * 2 ^ L = 2 ^ (L + 1) := by rw [pow_succ, Nat.mul_comm]
      have hA : 2 ^ L = 1 ∨ 2 ^ L % 2 = 0 := by
        cases L with
        | zero => exact .inl rfl
        | succ k => exact .inr (by rw [pow_succ, Nat.mul_mod_left])
      obtain ⟨hBits, hHere, hOthers, hMemory⟩ := configureLevel_entries (l := L) hA
        (hDouble.trans_le hMs) hOrder (hDouble ▸ hFits) fun p hEnd =>
          hEdges L p (Nat.lt_succ_self L) hEnd
      rw [configureLevels_succ, hHalf]
      generalize configureLevel numMs (2 ^ L) L sig (between bits.1 bits.2) = st at *
      change st.parentBits = between (parents bits).1 (parents bits).2 at hBits
      have hOrder' := parents_ordered hOrder
      have hFits' : (parents bits).2 < 2 ^ L := reach_lt (k := 1) hOrder hFits
      have hLe : 2 ^ L ≤ numMs := (Nat.pow_le_pow_right Nat.two_pos (Nat.le_succ L)).trans hMs
      simp only [hBits]
      have hMarked := fun l p => memory_markSingle st.signals (L := L) hOrder'
        (hFits'.trans_le hLe) l p
      have hKept := entries_markSingle st.signals L
        (bitsEnabled numMs (between (parents bits).1 (parents bits).2))
      generalize st.signals.markSingle L
        (bitsEnabled numMs (between (parents bits).1 (parents bits).2)) = marked at *
      have hEdges' : EdgesFree L marked := by
        intro l p hl hEnd
        have hSame := (hKept (l, p)).trans (hOthers l p hl.ne)
        exact (congrArg Prod.snd hSame).trans (hEdges l p (by omega) hEnd)
      obtain ⟨hEntries, hOver, hSends⟩ := ih hLe hOrder' hFits' hEdges'
      refine ⟨fun l p hl => ?_, fun l p hl => ?_, fun l p => ?_⟩
      · rcases Nat.lt_or_ge l L with hBelow | hSame
        · rw [hEntries l p hBelow, hKept, hOthers l p hBelow.ne, reach_parents]
          congr 3
          omega
        · have hEq : l = L := by omega
          rw [hOver l p hSame, hKept, hEq, hHere, Nat.add_sub_cancel_left]
          rfl
      · rw [hOver l p (by omega), hKept, hOthers l p (by omega)]
      · rw [hSends, hMarked, hMemory, reach_parents, Bool.or_assoc, ← Bool.decide_or]
        congr 1
        rw [decide_eq_decide]
        rcases lt_trichotomy l L with hBelow | rfl | hOver
        · rw [Nat.succ_sub hBelow.le]
          simp [hBelow, hBelow.ne, Nat.lt_succ_of_lt hBelow]
        · rw [Nat.add_sub_cancel_left]
          simp [reach]
        · rw [eq_false (by omega : ¬l = L), eq_false (by omega : ¬l < L),
            eq_false (by omega : ¬l < L + 1), false_and, false_and, false_and, false_or]

/-! ## All neurons -/

/-- The bits of the neuron `(shift, size)` on the multipliers. -/
def neuronSpan (neuron : Nat × Nat) : Bits :=
  (neuron.1, neuron.1 + neuron.2 - 1)

/-- The entries of the adder `(L - k, p)` after the neurons have given it their roles. -/
def entered (neurons : List (Nat × Nat)) (k p : Nat) : Entries :=
  neurons.foldl (fun entries neuron => (role (reach (neuronSpan neuron) (k - 1)) p).enter entries)
    (none, none)

/-- The maps of the compiler: what an adder holds are the roles that the neurons have given it,
in their order, and it sends to memory if it is the last adder of a neuron. -/
structure Compiled (L : Nat) (neurons : List (Nat × Nat)) (sig : AdderSignals) : Prop where
  entries : ∀ l p, l < L → sig.entries (l, p) = entered neurons (L - l) p
  others : ∀ l p, L ≤ l → sig.entries (l, p) = (none, none)
  memory : ∀ l p, sig.forwardingToMemoryEnabled (l, p) = true ↔
    l < L ∧ ∃ neuron ∈ neurons, reach (neuronSpan neuron) (L - l) = (p, p)

theorem entered_concat (neurons : List (Nat × Nat)) (neuron : Nat × Nat) (k p : Nat) :
    entered (neurons ++ [neuron]) k p =
      (role (reach (neuronSpan neuron) (k - 1)) p).enter (entered neurons k p) := by
  rw [entered, List.foldl_append]
  rfl

/-- A neuron of a tree with `L` levels. -/
structure NeuronFits (L : Nat) (neuron : Nat × Nat) : Prop where
  size : 0 < neuron.2
  fits : neuron.1 + neuron.2 ≤ 2 ^ L

theorem NeuronFits.ordered {neuron : Nat × Nat} (h : NeuronFits L neuron) :
    (neuronSpan neuron).1 ≤ (neuronSpan neuron).2 := by
  have hSize := h.size
  change neuron.1 ≤ neuron.1 + neuron.2 - 1
  omega

theorem NeuronFits.last_lt {neuron : Nat × Nat} (h : NeuronFits L neuron) :
    (neuronSpan neuron).2 < 2 ^ L := by
  have hSize := h.size
  have hFits := h.fits
  change neuron.1 + neuron.2 - 1 < 2 ^ L
  omega

/-- The first and the last adder of a level are never joined. -/
theorem entered_edge {neurons : List (Nat × Nat)} {l p : Nat}
    (hFits : ∀ neuron ∈ neurons, NeuronFits L neuron) (hl : l < L)
    (hEnd : p = 0 ∨ 2 ^ l ≤ p + 1) : (entered neurons (L - l) p).2 = none := by
  induction neurons using List.reverseRecOn with
  | nil => rfl
  | append_singleton neurons neuron ih =>
      have hNeuron := hFits neuron (List.mem_append_right _ List.mem_cons_self)
      have hBefore := ih fun other hOther => hFits other (List.mem_append_left _ hOther)
      have hOrder := reach_ordered hNeuron.ordered (L - l - 1)
      have hLast : (reach (neuronSpan neuron) (L - l - 1)).2 < 2 ^ (l + 1) := by
        apply reach_lt hNeuron.ordered
        have hLevels : l + 1 + (L - l - 1) = L := by omega
        rw [hLevels]
        exact hNeuron.last_lt
      rw [pow_succ, Nat.mul_comm] at hLast
      rw [entered_concat]
      rcases Nat.lt_or_ge p (2 ^ l) with hInside | hOver
      · have hA : 2 ^ l = 1 ∨ 2 ^ l % 2 = 0 := by
          cases l with
          | zero => exact .inl rfl
          | succ k => exact .inr (by rw [pow_succ, Nat.mul_mod_left])
        obtain ⟨-, -, -, hRole⟩ := edge_kept hOrder hLast hA
          (hEnd.imp_right fun h => Nat.le_antisymm hInside h)
        rw [role, hRole]
        split
        · exact hBefore
        · exact hBefore
      · rw [role, roleOf_absent (.inr (by omega))]
        exact hBefore

theorem art_compiled {neurons : List (Nat × Nat)}
    (hFits : ∀ neuron ∈ neurons, NeuronFits L neuron) :
    Compiled L neurons (neurons.foldl (CompilerART.configureNeuron (2 ^ L)) {}) := by
  induction neurons using List.reverseRecOn with
  | nil => exact ⟨fun _ _ _ => rfl, fun _ _ _ => rfl, fun l p => by simp⟩
  | append_singleton neurons neuron ih =>
      have hNeuron := hFits neuron (List.mem_append_right _ List.mem_cons_self)
      have hOthers := fun other hOther => hFits other (List.mem_append_left _ hOther)
      have hBefore := ih hOthers
      rw [List.foldl_append, List.foldl_cons, List.foldl_nil]
      generalize neurons.foldl (CompilerART.configureNeuron (2 ^ L)) {} = sig at *
      have hEdges : EdgesFree L sig := fun l p hl hEnd =>
        (congrArg Prod.snd (hBefore.entries l p hl)).trans (entered_edge hOthers hl hEnd)
      have hEntered : NeuronEntered L (neuronSpan neuron) sig
          (CompilerART.configureNeuron (2 ^ L) sig neuron) := by
        rw [CompilerART.configureNeuron, nlevelsOf, Nat.log2_two_pow,
          neuronBits_between hNeuron.size]
        exact art_entered (Nat.le_refl _) hNeuron.ordered hNeuron.last_lt hEdges
      refine ⟨fun l p hl => ?_, fun l p hl => ?_, fun l p => ?_⟩
      · rw [entered_concat, ← hBefore.entries l p hl]
        exact hEntered.entries l p hl
      · exact (hEntered.others l p hl).trans (hBefore.others l p hl)
      · rw [hEntered.memory l p, Bool.or_eq_true, hBefore.memory, decide_eq_true_iff,
          ← and_or_left]
        simp only [List.mem_append, List.mem_singleton, or_and_right, exists_or, exists_eq_left]

end

end Stonne
