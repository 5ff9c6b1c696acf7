import Stonne.Connection
import Stonne.Lib.Binary32

/-!
# The distribution trees

A `DSwitch` copies every package of its input connection to the branches that lead to
a destination.  `DSNetwork` visits the switches of a tree from the root to the leaves,
so a package crosses the whole tree in one cycle.

A switch compares the destination with the middle of its range, which is half an
integer and is kept in a `float`.
-/

namespace Stonne

open Dataflow

/-- The connections of one tree. -/
inductive DSLink where
  | input
  | branch (level pos : Nat)
  deriving DecidableEq, Repr

structure DSwitch where
  level : Nat
  numInLevel : Nat
  numMs : Nat
  deriving DecidableEq, Repr

namespace DSwitch

/-- `num_ms >> level` -/
def nMsToRoute (s : DSwitch) : Nat :=
  s.numMs >>> s.level

def firstMsToRoute (s : DSwitch) : Nat :=
  s.numInLevel * s.nMsToRoute

def lastMsToRoute (s : DSwitch) : Nat :=
  s.firstMsToRoute + s.nMsToRoute

def halfMsToRoute (s : DSwitch) : ℚ :=
  Binary32.round (s.firstMsToRoute + ((s.nMsToRoute - 1 : Nat) : ℚ) / 2)

/-- Some multiplier in `from`, …, `limit - 1` is a destination. -/
def anyDest (dests : List Bool) (start limit : Nat) : Bool :=
  (List.range' start (limit - start)).any fun i => dests.getD i false

def routesLeft (s : DSwitch) (pck : DataPackage) : Bool :=
  match pck.traffic with
  | .broadcast => true
  | .unicast dest => decide (Binary32.round dest < s.halfMsToRoute)
  | .multicast dests =>
      anyDest dests s.firstMsToRoute (⌊s.halfMsToRoute⌋.toNat + 1)

def routesRight (s : DSwitch) (pck : DataPackage) : Bool :=
  match pck.traffic with
  | .broadcast => true
  | .unicast dest => !decide (Binary32.round dest < s.halfMsToRoute)
  | .multicast dests =>
      anyDest dests (⌊s.halfMsToRoute⌋.toNat + 1) s.lastMsToRoute

def inputConnection (s : DSwitch) : DSLink :=
  match s.level with
  | 0 => .input
  | level + 1 => .branch level s.numInLevel

def leftConnection (s : DSwitch) : DSLink :=
  .branch s.level (s.numInLevel * 2)

def rightConnection (s : DSwitch) : DSLink :=
  .branch s.level (s.numInLevel * 2 + 1)

def routePackages (s : DSwitch) (data : List DataPackage) (conns : Connections DSLink) :
    Connections DSLink :=
  (conns.sendAll s.leftConnection (data.filter s.routesLeft)).sendAll s.rightConnection
    (data.filter s.routesRight)

/-- `receive` followed by `route_packages`.  A switch holds no package between two
cycles. -/
def cycle (s : DSwitch) (conns : Connections DSLink) : Connections DSLink :=
  let received := conns.receive s.inputConnection
  s.routePackages received.1 received.2

end DSwitch

/-- One tree, over the multipliers of one port. -/
structure DSNetwork where
  msSize : Nat
  deriving DecidableEq, Repr

namespace DSNetwork

def nlevels (net : DSNetwork) : Nat :=
  Nat.log2 net.msSize

def cycleSwitch (net : DSNetwork) (i : Nat) (conns : Connections DSLink) (j : Nat) :
    Connections DSLink :=
  DSwitch.cycle ⟨i, j, net.msSize⟩ conns

def cycleLevel (net : DSNetwork) (conns : Connections DSLink) (i : Nat) :
    Connections DSLink :=
  (List.range (2 ^ i)).foldl (net.cycleSwitch i) conns

def cycle (net : DSNetwork) (conns : Connections DSLink) : Connections DSLink :=
  (List.range net.nlevels).foldl net.cycleLevel conns

/-- `getLastLevelConnections`: without switches the input connection itself. -/
def lastLevelConnection (net : DSNetwork) (m : Nat) : DSLink :=
  match net.nlevels with
  | 0 => .input
  | level + 1 => .branch level m

/-! ## One cycle of a tree -/

/-- What the switches let through to position `p` below `d` levels. -/
def carried (net : DSNetwork) (entered : List DataPackage) : Nat → Nat → List DataPackage
  | 0, _ => entered
  | d + 1, p =>
      (carried net entered d (p / 2)).filter
        (if p % 2 = 0 then DSwitch.routesLeft ⟨d, p / 2, net.msSize⟩
          else DSwitch.routesRight ⟨d, p / 2, net.msSize⟩)

/-- The contents of the connections after the switches before number `j` of level
`i`. -/
def expected (net : DSNetwork) (entered : List DataPackage) (i j : Nat) :
    DSLink → Option (List DataPackage)
  | .input => if i = 0 ∧ j = 0 then filled entered else none
  | .branch level pos =>
      if level + 1 = i ∧ j ≤ pos ∧ pos < 2 ^ i ∨ level = i ∧ pos < 2 * j then
        filled (carried net entered (level + 1) pos)
      else none

variable {net : DSNetwork} {entered : List DataPackage}

/-- The packages in a tree, with no connection overwritten so far. -/
structure Holds (net : DSNetwork) (entered : List DataPackage) (i j : Nat)
    (conns : Connections DSLink) : Prop where
  content : ∀ w, (conns w).content = expected net entered i j w
  overwritten : ∀ w, (conns w).overwritten = false

private theorem expected_inputConnection {i j : Nat} (hj : j < 2 ^ i) :
    expected net entered i j (DSwitch.inputConnection ⟨i, j, net.msSize⟩) =
      filled (carried net entered i j) := by
  cases i with
  | zero =>
      have hZero : j = 0 := by simpa using hj
      simp [DSwitch.inputConnection, expected, carried, hZero]
  | succ i => simp [DSwitch.inputConnection, expected, hj]

/-- One switch passes on what it received. -/
theorem Holds.cycleSwitch {i j : Nat} {conns : Connections DSLink} (hj : j < 2 ^ i)
    (h : Holds net entered i j conns) :
    Holds net entered i (j + 1) (net.cycleSwitch i conns j) := by
  set s : DSwitch := ⟨i, j, net.msSize⟩ with hs
  have hReceived : (conns.receive s.inputConnection).1 = carried net entered i j := by
    rw [Connections.receive_fst]
    exact Store.recv_of_filled ((h.content _).trans (expected_inputConnection hj))
  have hLeft : (carried net entered i j).filter s.routesLeft =
      carried net entered (i + 1) (j * 2) := by
    simp [carried, hs]
  have hRight : (carried net entered i j).filter s.routesRight =
      carried net entered (i + 1) (j * 2 + 1) := by
    have hHalf : (j * 2 + 1) / 2 = j := by omega
    have hOdd : (j * 2 + 1) % 2 = 1 := by omega
    simp [carried, hs, hHalf, hOdd]
  have hCycle : net.cycleSwitch i conns j =
      ((conns.receive s.inputConnection).2.sendAll s.leftConnection
        (carried net entered (i + 1) (j * 2))).sendAll s.rightConnection
        (carried net entered (i + 1) (j * 2 + 1)) := by
    rw [← hLeft, ← hRight, ← hReceived]
    rfl
  have hApart : s.rightConnection ≠ s.leftConnection := by
    simp [DSwitch.rightConnection, DSwitch.leftConnection]
  have hFree : ∀ side, side < 2 →
      (conns (.branch i (j * 2 + side))).content = none := by
    intro side hSide
    rw [h.content, expected, if_neg]
    omega
  have hInput : ∀ pos, s.inputConnection ≠ .branch i pos := by
    intro pos
    cases i <;> simp [hs, DSwitch.inputConnection]
  constructor
  · intro w
    rw [hCycle, Connections.content_sendAll, Connections.content_sendAll,
      Connections.content_receive, h.content]
    cases w with
    | input =>
        cases i with
        | zero =>
            have hZero : j = 0 := by simpa using hj
            simp [expected, DSwitch.inputConnection, DSwitch.leftConnection,
              DSwitch.rightConnection, hs, hZero]
        | succ i =>
            simp [expected, DSwitch.inputConnection, DSwitch.leftConnection,
              DSwitch.rightConnection, hs]
    | branch level pos =>
        by_cases hLevel : level = i
        · subst hLevel
          have hNotInput : ¬DSLink.branch level pos = s.inputConnection :=
            fun hEq => hInput pos hEq.symm
          by_cases hPosRight : pos = j * 2 + 1
          · subst hPosRight
            have hNow : j * 2 + 1 < 2 * (j + 1) := by omega
            have hBefore : ¬j * 2 + 1 < 2 * j := by omega
            by_cases hNil : carried net entered (level + 1) (j * 2 + 1) = []
            · simp [expected, hs, DSwitch.rightConnection, DSwitch.leftConnection,
                hNow, hBefore, hNil, filled]
            · simp [expected, hs, DSwitch.rightConnection, hNow, hNil, filled]
          · by_cases hPosLeft : pos = j * 2
            · subst hPosLeft
              have hNow : j * 2 < 2 * (j + 1) := by omega
              have hBefore : ¬j * 2 < 2 * j := by omega
              by_cases hNil : carried net entered (level + 1) (j * 2) = []
              · simp [expected, hs, DSwitch.rightConnection, DSwitch.leftConnection,
                  hNow, hBefore, hNil, filled]
              · simp [expected, hs, DSwitch.rightConnection, DSwitch.leftConnection,
                  hNow, hNil, filled]
            · have hSame : pos < 2 * (j + 1) ↔ pos < 2 * j := by omega
              rw [hs] at hNotInput
              simp [expected, hs, DSwitch.rightConnection, DSwitch.leftConnection,
                hPosRight, hPosLeft, hSame, hNotInput]
        · have hNotRight : ¬DSLink.branch level pos = s.rightConnection := by
            simp [DSwitch.rightConnection, hs, hLevel]
          have hNotLeft : ¬DSLink.branch level pos = s.leftConnection := by
            simp [DSwitch.leftConnection, hs, hLevel]
          rw [if_neg (fun hAnd => hNotRight hAnd.1), if_neg (fun hAnd => hNotLeft hAnd.1)]
          by_cases hAbove : level + 1 = i
          · subst hAbove
            by_cases hPos : pos = j
            · subst hPos
              simp [expected, hs, DSwitch.inputConnection]
            · have hNotInput : ¬DSLink.branch level pos = s.inputConnection := by
                simp [DSwitch.inputConnection, hs, hPos]
              have hOrder : j + 1 ≤ pos ↔ j ≤ pos := by omega
              simp [expected, hNotInput, hOrder]
          · have hNotInput : ¬DSLink.branch level pos = s.inputConnection := by
              intro hEq
              cases i with
              | zero => simp [DSwitch.inputConnection, hs] at hEq
              | succ i =>
                  simp [DSwitch.inputConnection, hs] at hEq
                  omega
            simp [expected, hNotInput, hLevel, hAbove]
  · intro w
    have hLeftFree : (conns s.leftConnection).content = none := hFree 0 (by omega)
    have hRightFree : (conns s.rightConnection).content = none := hFree 1 (by omega)
    have hLeftApart : ¬s.leftConnection = s.inputConnection := fun hEq =>
      hInput (j * 2) hEq.symm
    have hRightApart : ¬s.rightConnection = s.inputConnection := fun hEq =>
      hInput (j * 2 + 1) hEq.symm
    rw [hCycle, Connections.overwritten_sendAll, Connections.overwritten_sendAll,
      Connections.overwritten_receive, h.overwritten, Connections.content_sendAll,
      Connections.content_receive]
    simp only [Bool.false_or, Bool.or_eq_false_iff, decide_eq_false_iff_not, not_and]
    constructor
    · rintro rfl
      simp [hLeftApart, hLeftFree]
    · rintro rfl
      simp [hRightApart, hRightFree, hApart]

private theorem Holds.level_done {i : Nat} {conns : Connections DSLink}
    (h : Holds net entered i (2 ^ i) conns) : Holds net entered (i + 1) 0 conns := by
  have hPow : 2 ^ (i + 1) = 2 * 2 ^ i := by ring
  refine ⟨fun w => ?_, h.overwritten⟩
  rw [h.content]
  cases w with
  | input => simp [expected]
  | branch level pos =>
      have hIff : (level + 1 = i ∧ 2 ^ i ≤ pos ∧ pos < 2 ^ i ∨ level = i ∧ pos < 2 * 2 ^ i) ↔
          (level + 1 = i + 1 ∧ 0 ≤ pos ∧ pos < 2 ^ (i + 1) ∨ level = i + 1 ∧ pos < 2 * 0) := by
        omega
      simp only [expected, hIff]

theorem Holds.cycleLevel {i : Nat} {conns : Connections DSLink}
    (h : Holds net entered i 0 conns) :
    Holds net entered (i + 1) 0 (net.cycleLevel conns i) := by
  have hRun : ∀ j ≤ 2 ^ i,
      Holds net entered i j ((List.range j).foldl (net.cycleSwitch i) conns) := by
    intro j hj
    induction j with
    | zero => exact h
    | succ j ih =>
        rw [List.range_succ, List.foldl_append]
        exact (ih (by omega)).cycleSwitch (by omega)
  exact (hRun (2 ^ i) le_rfl).level_done

/-- A cycle takes the packages from the input connection to the last level. -/
theorem Holds.cycle {conns : Connections DSLink} (h : Holds net entered 0 0 conns) :
    Holds net entered net.nlevels 0 (net.cycle conns) := by
  have hRun : ∀ i, Holds net entered i 0 ((List.range i).foldl net.cycleLevel conns) := by
    intro i
    induction i with
    | zero => exact h
    | succ i ih =>
        rw [List.range_succ, List.foldl_append]
        exact ih.cycleLevel
  exact hRun net.nlevels

end DSNetwork

/-! ## The destinations of a package -/

namespace DataPackage

/-- The package is for multiplier `m`. -/
def addresses (pck : DataPackage) (m : Nat) : Bool :=
  match pck.traffic with
  | .broadcast => true
  | .unicast dest => decide (dest = m)
  | .multicast dests => dests.getD m false

/-- The package is for one of the multipliers `start`, …, `limit - 1`. -/
def hits (pck : DataPackage) (start limit : Nat) : Bool :=
  match pck.traffic with
  | .broadcast => true
  | .unicast dest => decide (start ≤ dest ∧ dest < limit)
  | .multicast dests => DSwitch.anyDest dests start limit

/-- The destination of a unicast package exists. -/
def WellAddressed (pck : DataPackage) (n : Nat) : Prop :=
  ∀ dest, pck.traffic = .unicast dest → dest < n

end DataPackage

theorem DSwitch.anyDest_iff {dests : List Bool} {start limit : Nat} :
    DSwitch.anyDest dests start limit = true ↔
      ∃ i, start ≤ i ∧ i < limit ∧ dests.getD i false = true := by
  simp only [DSwitch.anyDest, List.any_eq_true, List.mem_range'_1]
  constructor
  · rintro ⟨i, ⟨hStart, hLimit⟩, hDest⟩
    exact ⟨i, hStart, by omega, hDest⟩
  · rintro ⟨i, hStart, hLimit, hDest⟩
    exact ⟨i, ⟨hStart, by omega⟩, hDest⟩

private theorem DSwitch.or_and_left (a b : Bool) : ((a || b) && a) = a := by
  cases a <;> simp

private theorem DSwitch.anyDest_split {dests : List Bool} {start middle limit : Nat}
    (hStart : start ≤ middle) (hLimit : middle ≤ limit) :
    DSwitch.anyDest dests start limit =
      (DSwitch.anyDest dests start middle || DSwitch.anyDest dests middle limit) := by
  rw [Bool.eq_iff_iff, Bool.or_eq_true, anyDest_iff, anyDest_iff, anyDest_iff]
  constructor
  · rintro ⟨i, hi, hi', hDest⟩
    rcases lt_or_ge i middle with hLess | hMore
    · exact Or.inl ⟨i, hi, hLess, hDest⟩
    · exact Or.inr ⟨i, hMore, hi', hDest⟩
  · rintro (⟨i, hi, hi', hDest⟩ | ⟨i, hi, hi', hDest⟩)
    · exact ⟨i, hi, by omega, hDest⟩
    · exact ⟨i, by omega, hi', hDest⟩

namespace DSwitch

/-- A switch over the `2 * w` multipliers that start at `2 * w * p`, in a tree of at
most `2 ^ 23` multipliers: the middle is represented exactly. -/
private theorem halfMsToRoute_eq {s : DSwitch} {p w : Nat} (hw : 0 < w)
    (hFirst : s.firstMsToRoute = p * (2 * w)) (hCount : s.nMsToRoute = 2 * w)
    (hSize : (p + 1) * (2 * w) ≤ 2 ^ 23) :
    s.halfMsToRoute = ((2 * (p * (2 * w) + w) - 1 : Nat) : ℚ) / 2 := by
  have hExact := Binary32.round_exact (2 * (p * (2 * w) + w) - 1) (-1) (by
    rw [Nat.add_mul, one_mul] at hSize
    omega)
  have hValue : ((s.firstMsToRoute : ℚ) + ((s.nMsToRoute - 1 : Nat) : ℚ) / 2) =
      ((2 * (p * (2 * w) + w) - 1 : Nat) : ℚ) * (2 : ℚ) ^ (-1 : ℤ) := by
    rw [hFirst, hCount, Nat.cast_sub (by omega), Nat.cast_sub (by omega)]
    push_cast
    rw [zpow_neg_one]
    ring
  rw [halfMsToRoute, hValue, hExact, zpow_neg_one, div_eq_mul_inv]

/-- The last multiplier of the left half. -/
private theorem floor_halfMsToRoute {s : DSwitch} {p w : Nat} (hw : 0 < w)
    (hFirst : s.firstMsToRoute = p * (2 * w)) (hCount : s.nMsToRoute = 2 * w)
    (hSize : (p + 1) * (2 * w) ≤ 2 ^ 23) :
    ⌊s.halfMsToRoute⌋.toNat + 1 = p * (2 * w) + w := by
  have hFloor : ⌊s.halfMsToRoute⌋ = ((p * (2 * w) + w - 1 : Nat) : ℤ) := by
    rw [halfMsToRoute_eq hw hFirst hCount hSize, Int.floor_eq_iff,
      Nat.cast_sub (by omega)]
    push_cast
    rw [Nat.cast_sub (by omega)]
    push_cast
    constructor
    · linarith
    · linarith
  rw [hFloor, Int.toNat_natCast]
  omega

private theorem round_lt_halfMsToRoute {s : DSwitch} {p w dest : Nat} (hw : 0 < w)
    (hFirst : s.firstMsToRoute = p * (2 * w)) (hCount : s.nMsToRoute = 2 * w)
    (hSize : (p + 1) * (2 * w) ≤ 2 ^ 23) (hDest : dest < 2 ^ 24) :
    Binary32.round dest < s.halfMsToRoute ↔ dest < p * (2 * w) + w := by
  rw [halfMsToRoute_eq hw hFirst hCount hSize, Binary32.round_natCast hDest,
    lt_div_iff₀ (by norm_num)]
  have hCast : (dest : ℚ) * 2 < ((2 * (p * (2 * w) + w) - 1 : Nat) : ℚ) ↔
      dest * 2 < 2 * (p * (2 * w) + w) - 1 := by
    rw [← Nat.cast_ofNat (R := ℚ), ← Nat.cast_mul, Nat.cast_lt]
  rw [hCast]
  omega

section

variable {s : DSwitch} {p w : Nat} (hw : 0 < w)
    (hFirst : s.firstMsToRoute = p * (2 * w)) (hCount : s.nMsToRoute = 2 * w)
    (hSize : (p + 1) * (2 * w) ≤ 2 ^ 23) {pck : DataPackage}
    (hDest : pck.WellAddressed (2 ^ 24))

include hw hFirst hCount hSize hDest

private theorem routesLeft_hits :
    (pck.hits (p * (2 * w)) ((p + 1) * (2 * w)) && s.routesLeft pck) =
      pck.hits (p * 2 * w) ((p * 2 + 1) * w) := by
  have hStart : p * (2 * w) = p * 2 * w := by ring
  have hMiddle : p * (2 * w) + w = (p * 2 + 1) * w := by ring
  have hEnd : (p + 1) * (2 * w) = (p * 2 + 1) * w + w := by ring
  cases hTraffic : pck.traffic with
  | broadcast => simp [DataPackage.hits, routesLeft, hTraffic]
  | unicast dest =>
      have hLess := round_lt_halfMsToRoute hw hFirst hCount hSize (hDest dest hTraffic)
      rw [Bool.eq_iff_iff]
      simp only [DataPackage.hits, routesLeft, hTraffic, Bool.and_eq_true,
        decide_eq_true_eq, hLess]
      omega
  | multicast dests =>
      have hFloor := floor_halfMsToRoute hw hFirst hCount hSize
      simp only [DataPackage.hits, routesLeft, hTraffic, hFloor, hFirst]
      rw [@anyDest_split dests (p * (2 * w)) (p * (2 * w) + w) _ (by omega) (by omega),
        or_and_left, hMiddle, hStart]

private theorem routesRight_hits :
    (pck.hits (p * (2 * w)) ((p + 1) * (2 * w)) && s.routesRight pck) =
      pck.hits ((p * 2 + 1) * w) ((p * 2 + 2) * w) := by
  have hMiddle : p * (2 * w) + w = (p * 2 + 1) * w := by ring
  have hEnd : (p + 1) * (2 * w) = (p * 2 + 2) * w := by ring
  have hOrder : (p * 2 + 1) * w ≤ (p * 2 + 2) * w := Nat.mul_le_mul_right w (by omega)
  cases hTraffic : pck.traffic with
  | broadcast => simp [DataPackage.hits, routesRight, hTraffic]
  | unicast dest =>
      have hLess := round_lt_halfMsToRoute hw hFirst hCount hSize (hDest dest hTraffic)
      rw [Bool.eq_iff_iff]
      simp only [DataPackage.hits, routesRight, hTraffic, Bool.and_eq_true,
        decide_eq_true_eq, Bool.not_eq_true', decide_eq_false_iff_not, hLess]
      omega
  | multicast dests =>
      have hFloor := floor_halfMsToRoute hw hFirst hCount hSize
      have hLast : s.lastMsToRoute = (p + 1) * (2 * w) := by
        rw [lastMsToRoute, hFirst, hCount]
        ring
      simp only [DataPackage.hits, routesRight, hTraffic, hFloor, hLast]
      rw [@anyDest_split dests (p * (2 * w)) (p * (2 * w) + w) _ (by omega) (by omega),
        Bool.or_comm, or_and_left, hMiddle, hEnd]

end

end DSwitch

namespace DSNetwork

/-- Below `d` levels exactly the packages for the multipliers there are left. -/
theorem carried_eq {net : DSNetwork} {entered : List DataPackage} {k : Nat}
    (hSize : net.msSize = 2 ^ k) (hk : k ≤ 23)
    (hEntered : ∀ pck ∈ entered, pck.hits 0 (2 ^ k) = true) {d : Nat} (hd : d ≤ k) {p : Nat}
    (hp : p < 2 ^ d) :
    carried net entered d p =
      entered.filter fun pck => pck.hits (p * 2 ^ (k - d)) ((p + 1) * 2 ^ (k - d)) := by
  have hBound : ∀ pck ∈ entered, pck.WellAddressed (2 ^ 24) := by
    intro pck hMem dest hTraffic
    have hLess := hEntered pck hMem
    simp only [DataPackage.hits, hTraffic, decide_eq_true_eq] at hLess
    exact hLess.2.trans_le (Nat.pow_le_pow_right (by omega) (by omega))
  induction d generalizing p with
  | zero =>
      have hZero : p = 0 := by simpa using hp
      subst hZero
      symm
      rw [carried, List.filter_eq_self]
      intro pck hMem
      simpa using hEntered pck hMem
  | succ d ih =>
      have hPow : 2 ^ (k - d) = 2 * 2 ^ (k - (d + 1)) := by
        rw [← pow_succ']
        congr 1
        omega
      have hHalf : p / 2 < 2 ^ d := by
        rw [pow_succ] at hp
        omega
      have hCount : DSwitch.nMsToRoute ⟨d, p / 2, net.msSize⟩ = 2 * 2 ^ (k - (d + 1)) := by
        rw [← hPow, ← Nat.pow_div (show d ≤ k by omega) (by omega), ← hSize,
          ← Nat.shiftRight_eq_div_pow]
        rfl
      have hFirst : DSwitch.firstMsToRoute ⟨d, p / 2, net.msSize⟩ =
          p / 2 * (2 * 2 ^ (k - (d + 1))) := by
        rw [← hCount]
        rfl
      have hRange : (p / 2 + 1) * (2 * 2 ^ (k - (d + 1))) ≤ 2 ^ 23 := by
        calc (p / 2 + 1) * (2 * 2 ^ (k - (d + 1))) = (p / 2 + 1) * 2 ^ (k - d) := by rw [hPow]
          _ ≤ 2 ^ d * 2 ^ (k - d) := Nat.mul_le_mul_right _ hHalf
          _ = 2 ^ k := by rw [← pow_add, Nat.add_sub_cancel' (by omega)]
          _ ≤ 2 ^ 23 := Nat.pow_le_pow_right (by omega) hk
      have hPositive : 0 < 2 ^ (k - (d + 1)) := Nat.two_pow_pos _
      rw [carried, ih (by omega) hHalf, List.filter_filter]
      apply List.filter_congr
      intro pck hMem
      rw [hPow, Bool.and_comm]
      rcases Nat.mod_two_eq_zero_or_one p with hEven | hOdd
      · have hp2 : p / 2 * 2 = p := by omega
        rw [if_pos hEven, DSwitch.routesLeft_hits hPositive hFirst hCount hRange
          (hBound pck hMem), hp2]
      · have hp2 : p / 2 * 2 + 1 = p := by omega
        have hp2' : p / 2 * 2 + 2 = p + 1 := by omega
        rw [if_neg (by omega), DSwitch.routesRight_hits hPositive hFirst hCount hRange
          (hBound pck hMem), hp2, hp2']

end DSNetwork

end Stonne
