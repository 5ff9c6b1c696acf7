import Stonne.Reduction.Compiler

/-!
# The bus inputs of the adders

The constructors of `ASNetwork` and `FENetwork` put every adder in one of two lists:
two adders that share a forwarding link form a double switch, the others are single
switches.  `setMemoryConnections` then deals the inputs of the collection bus to the
lists, the double switches in pairs and the single switches behind them.  With the
accumulation buffer an adder writes to an accumulator, and the accumulator to the bus
input.

An assertion that fails, and an access behind the end of a vector, is `none`.
-/

namespace Stonne

inductive ReduceNetworkType where
  | asnetwork
  | fenetwork
  deriving DecidableEq, Repr

/-- `adders_this_level`.  Only `FENetwork` has a second adder beside the root. -/
def addersThisLevel : ReduceNetworkType → Nat → Nat
  | .asnetwork, i => 2 ^ i
  | .fenetwork, i => if i = 0 then 2 else 2 ^ i

structure SwitchLists where
  doubleSwitches : List SwitchId := []
  singleSwitches : List SwitchId := []

namespace SwitchLists

/-- The part of the constructor that registers the adder `j` of level `i`. -/
def register (type : ReduceNetworkType) (i : Nat) (st : SwitchLists) (j : Nat) :
    SwitchLists :=
  if i = 0 then { st with singleSwitches := st.singleSwitches ++ [(i, j)] }
  else if j ≠ 0 ∧ j % 2 = 0 then
    { st with doubleSwitches := st.doubleSwitches ++ [(i, j - 1), (i, j)] }
  else if j = 0 ∨ j = addersThisLevel type i - 1 then
    { st with singleSwitches := st.singleSwitches ++ [(i, j)] }
  else st

def registerLevel (type : ReduceNetworkType) (st : SwitchLists) (i : Nat) :
    SwitchLists :=
  (List.range (addersThisLevel type i)).foldl (register type i) st

/-- The lists that the constructor leaves. -/
def construct (type : ReduceNetworkType) (nlevels : Nat) : SwitchLists :=
  (List.range nlevels).foldl (registerLevel type) {}

end SwitchLists

/-- An input of the collection bus: `busID` and `inputID`. -/
abbrev BusInput := Nat × Nat

/-- `input_ports_bus_line` of the constructor of `Bus`. -/
def inputPortsBusLine (msSize nBusLines : Nat) : Nat :=
  msSize / nBusLines + if msSize % nBusLines ≠ 0 then 1 else 0

/-- `Bus::getInputConnections`: the inputs of every bus line. -/
def busInputConnections (msSize nBusLines : Nat) : List (List BusInput) :=
  (List.range nBusLines).map fun b =>
    (List.range (inputPortsBusLine msSize nBusLines)).map fun i => (b, i)

/-- What an adder that forwards to memory writes to. -/
inductive MemoryConnection where
  | bus (input : BusInput)
  | accumulator (index : Nat)
  deriving DecidableEq, Repr

structure MemoryLinks where
  memoryConnection : SwitchId → Option MemoryConnection := fun _ => none
  accbufferMemoryConnections : List BusInput := []

namespace MemoryLinks

/-- `memoryConnections[busID][inputID]` becomes the memory connection of `as`, behind
an accumulator of its own when the accumulation buffer is enabled. -/
def connect (accumulationBufferEnabled : Bool) (memoryConnections : List (List BusInput))
    (links : MemoryLinks) (as : SwitchId) (input : BusInput) : Option MemoryLinks := do
  let busLine ← memoryConnections[input.1]?
  let conn ← busLine[input.2]?
  if accumulationBufferEnabled then
    return {
      memoryConnection := Function.update links.memoryConnection as
        (some (.accumulator links.accbufferMemoryConnections.length))
      accbufferMemoryConnections := links.accbufferMemoryConnections ++ [conn] }
  else
    return { links with
      memoryConnection :=
        Function.update links.memoryConnection as (some (.bus conn)) }

/-- The double switch number `p`: two neighbouring inputs of one bus line. -/
def connectDouble (accumulationBufferEnabled : Bool)
    (memoryConnections : List (List BusInput)) (doubleSwitches : List SwitchId)
    (links : MemoryLinks) (p : Nat) : Option MemoryLinks := do
  let nBusLines := memoryConnections.length
  let asFirst ← doubleSwitches[2 * p]?
  let asSecond ← doubleSwitches[2 * p + 1]?
  let inputID := 2 * (p / nBusLines)
  let busID := p % nBusLines
  let first ← links.connect accumulationBufferEnabled memoryConnections asFirst
    (busID, inputID)
  first.connect accumulationBufferEnabled memoryConnections asSecond (busID, inputID + 1)

/-- The single switch number `i`, with the base behind the double switches. -/
def connectSingle (accumulationBufferEnabled : Bool)
    (memoryConnections : List (List BusInput)) (lists : SwitchLists)
    (links : MemoryLinks) (i : Nat) : Option MemoryLinks := do
  let nBusLines := memoryConnections.length
  let inputIDBase := lists.doubleSwitches.length / nBusLines + 1
  let inputID := inputIDBase + i / nBusLines
  let busID := (i + lists.doubleSwitches.length) % nBusLines
  let as ← lists.singleSwitches[i]?
  links.connect accumulationBufferEnabled memoryConnections as (busID, inputID)

def setMemoryConnections (accumulationBufferEnabled : Bool)
    (memoryConnections : List (List BusInput)) (lists : SwitchLists) :
    Option MemoryLinks := do
  let links ← (List.range ((lists.doubleSwitches.length + 1) / 2)).foldlM
    (connectDouble accumulationBufferEnabled memoryConnections lists.doubleSwitches) {}
  (List.range lists.singleSwitches.length).foldlM
    (connectSingle accumulationBufferEnabled memoryConnections lists) links

/-- The bus input that a package of the adder `as` reaches. -/
def busInput (links : MemoryLinks) (as : SwitchId) : Option BusInput :=
  match links.memoryConnection as with
  | some (.bus input) => some input
  | some (.accumulator index) => links.accbufferMemoryConnections[index]?
  | none => none

end MemoryLinks

/-- The reduction network with `2 ^ nlevels` multipliers behind the bus that has
`nBusLines` lines. -/
def connectASNandBus (type : ReduceNetworkType) (accumulationBufferEnabled : Bool)
    (nlevels nBusLines : Nat) : Option MemoryLinks :=
  MemoryLinks.setMemoryConnections accumulationBufferEnabled
    (busInputConnections (2 ^ nlevels) nBusLines) (SwitchLists.construct type nlevels)

/-- `as` is an adder of the network. -/
def IsSwitch (type : ReduceNetworkType) (nlevels : Nat) (as : SwitchId) : Prop :=
  as.1 < nlevels ∧ as.2 < addersThisLevel type as.1

/-! ## The lists of the constructor -/

/-- The double switches of a level. -/
def doublesAt (i : Nat) : List SwitchId :=
  (List.range (2 ^ (i - 1) - 1)).flatMap fun k => [(i, 2 * k + 1), (i, 2 * k + 2)]

/-- The single switches of a level. -/
def singlesAt (type : ReduceNetworkType) (i : Nat) : List SwitchId :=
  if i = 0 then (List.range (addersThisLevel type 0)).map fun j => (0, j)
  else [(i, 0), (i, 2 ^ i - 1)]

namespace SwitchLists

variable {type : ReduceNetworkType}

private theorem registerLevel_zero (st : SwitchLists) :
    registerLevel type st 0 =
      { st with singleSwitches := st.singleSwitches ++ singlesAt type 0 } := by
  cases type with
  | asnetwork => simp [registerLevel, register, addersThisLevel, singlesAt]
  | fenetwork =>
      simp [registerLevel, register, addersThisLevel, singlesAt, List.range_succ]

/-- The first `2 * m + 2` adders of a level above the root. -/
private theorem register_range {i : Nat} (hi : i ≠ 0) (st : SwitchLists) (m : Nat)
    (hm : 2 * m + 2 ≤ 2 ^ i) :
    (List.range (2 * m + 2)).foldl (register type i) st =
      { doubleSwitches := st.doubleSwitches ++
          (List.range m).flatMap fun k => [(i, 2 * k + 1), (i, 2 * k + 2)]
        singleSwitches := st.singleSwitches ++ [(i, 0)] ++
          if 2 * m + 2 = 2 ^ i then [(i, 2 ^ i - 1)] else [] } := by
  have hAdders : addersThisLevel type i = 2 ^ i := by
    cases type with
    | asnetwork => rfl
    | fenetwork => simp [addersThisLevel, hi]
  induction m with
  | zero =>
      by_cases hLast : 2 ^ i = 2
      · simp [List.range_succ, register, hi, hAdders, hLast]
      · have hNot : ¬1 = 2 ^ i - 1 := by omega
        have hNot' : ¬2 = 2 ^ i := by omega
        simp [List.range_succ, register, hi, hAdders, hNot, hNot']
  | succ m ih =>
      have hRange : List.range (2 * (m + 1) + 2) =
          List.range (2 * m + 2) ++ [2 * m + 2, 2 * m + 3] := by
        rw [show 2 * (m + 1) + 2 = 2 * m + 2 + 1 + 1 by ring, List.range_succ,
          List.range_succ]
        simp
      have hBefore : ¬2 * m + 2 = 2 ^ i := by omega
      have hEven : (2 * m + 2) % 2 = 0 := by omega
      rw [hRange, List.foldl_append, ih (by omega), List.range_succ]
      by_cases hLast : 2 * m + 3 = 2 ^ i - 1
      · have hNow : 2 * (m + 1) + 2 = 2 ^ i := by omega
        simp [register, hi, hAdders, hBefore, hEven, hLast, hNow]
      · have hNow : ¬2 * (m + 1) + 2 = 2 ^ i := by omega
        simp [register, hi, hAdders, hBefore, hEven, hLast, hNow]

private theorem registerLevel_succ (st : SwitchLists) (i : Nat) :
    registerLevel type st (i + 1) =
      { doubleSwitches := st.doubleSwitches ++ doublesAt (i + 1)
        singleSwitches := st.singleSwitches ++ singlesAt type (i + 1) } := by
  have hPos : 0 < 2 ^ i := Nat.two_pow_pos i
  have hPow : 2 ^ (i + 1) = 2 * 2 ^ i := by ring
  have hAdders : addersThisLevel type (i + 1) = 2 * (2 ^ i - 1) + 2 := by
    cases type with
    | asnetwork => simp only [addersThisLevel]; omega
    | fenetwork => simp only [addersThisLevel, Nat.succ_ne_zero, if_false]; omega
  have hRun := @register_range type (i + 1) (Nat.succ_ne_zero i) st (2 ^ i - 1)
    (by omega)
  rw [registerLevel, hAdders, hRun]
  have hLast : 2 * (2 ^ i - 1) + 2 = 2 ^ (i + 1) := by omega
  simp [doublesAt, singlesAt, hLast]

theorem construct_eq (type : ReduceNetworkType) (nlevels : Nat) :
    construct type nlevels =
      { doubleSwitches := (List.range nlevels).flatMap doublesAt
        singleSwitches := (List.range nlevels).flatMap (singlesAt type) } := by
  induction nlevels with
  | zero => rfl
  | succ n ih =>
      have hStep : construct type (n + 1) = registerLevel type (construct type n) n := by
        simp [construct, List.range_succ]
      rw [hStep, ih, List.range_succ]
      cases n with
      | zero => simp [registerLevel_zero, doublesAt]
      | succ n => simp [registerLevel_succ]

/-- All adders, in the order in which they are given an input. -/
def switches (lists : SwitchLists) : List SwitchId :=
  lists.doubleSwitches ++ lists.singleSwitches

theorem mem_doubleSwitches {nlevels : Nat} {as : SwitchId} :
    as ∈ (construct type nlevels).doubleSwitches ↔
      as.1 < nlevels ∧ 1 ≤ as.2 ∧ as.2 + 2 ≤ 2 ^ as.1 := by
  obtain ⟨i, j⟩ := as
  have hPow : 2 ^ i = 2 * 2 ^ (i - 1) ∨ i = 0 := by
    cases i with
    | zero => exact Or.inr rfl
    | succ i => exact Or.inl (by simp [pow_succ, mul_comm])
  simp only [construct_eq, List.mem_flatMap, List.mem_range, doublesAt, List.mem_cons,
    List.not_mem_nil, or_false, Prod.mk.injEq]
  constructor
  · rintro ⟨l, hl, k, hk, ⟨rfl, rfl⟩ | ⟨rfl, rfl⟩⟩
    · refine ⟨hl, by omega, ?_⟩
      rcases hPow with hPow | rfl
      · omega
      · simp at hk
    · refine ⟨hl, by omega, ?_⟩
      rcases hPow with hPow | rfl
      · omega
      · simp at hk
  · rintro ⟨hi, hj, hLast⟩
    have hPow' : 2 ^ i = 2 * 2 ^ (i - 1) := by
      rcases hPow with hPow | rfl
      · exact hPow
      · simp at hLast
    refine ⟨i, hi, (j - 1) / 2, by omega, ?_⟩
    rcases Nat.mod_two_eq_zero_or_one j with hEven | hOdd
    · exact Or.inr ⟨rfl, by omega⟩
    · exact Or.inl ⟨rfl, by omega⟩

theorem mem_singleSwitches {nlevels : Nat} {as : SwitchId} :
    as ∈ (construct type nlevels).singleSwitches ↔
      as.1 < nlevels ∧ as.2 < addersThisLevel type as.1 ∧
        (as.1 = 0 ∨ as.2 = 0 ∨ as.2 + 1 = 2 ^ as.1) := by
  obtain ⟨i, j⟩ := as
  simp only [construct_eq, List.mem_flatMap, List.mem_range]
  by_cases hi : i = 0
  · subst hi
    constructor
    · rintro ⟨l, hl, hMem⟩
      by_cases hl0 : l = 0
      · subst hl0
        simp [singlesAt] at hMem
        exact ⟨hl, hMem, Or.inl rfl⟩
      · simp [singlesAt, hl0] at hMem
        omega
    · rintro ⟨hl, hj, -⟩
      exact ⟨0, hl, by simpa [singlesAt] using hj⟩
  · have hAdders : addersThisLevel type i = 2 ^ i := by
      cases type with
      | asnetwork => rfl
      | fenetwork => simp [addersThisLevel, hi]
    have hPos : 0 < 2 ^ i := Nat.two_pow_pos i
    constructor
    · rintro ⟨l, hl, hMem⟩
      by_cases hl0 : l = 0
      · subst hl0
        simp [singlesAt] at hMem
        omega
      · simp [singlesAt, hl0] at hMem
        rcases hMem with ⟨rfl, rfl⟩ | ⟨rfl, rfl⟩
        · exact ⟨hl, by omega, by omega⟩
        · exact ⟨hl, by omega, by omega⟩
    · rintro ⟨hl, hj, hEdge⟩
      refine ⟨i, hl, ?_⟩
      simp [singlesAt, hi]
      omega

theorem mem_switches {nlevels : Nat} {as : SwitchId} :
    as ∈ (construct type nlevels).switches ↔ IsSwitch type nlevels as := by
  have hAdders : as.1 ≠ 0 → addersThisLevel type as.1 = 2 ^ as.1 := by
    intro h
    cases type with
    | asnetwork => rfl
    | fenetwork => simp [addersThisLevel, h]
  have hRoot : as.1 = 0 → 2 ^ as.1 = 1 := by
    intro h
    simp [h]
  simp only [switches, List.mem_append, mem_doubleSwitches, mem_singleSwitches, IsSwitch]
  constructor
  · rintro (⟨hl, hj, hLast⟩ | ⟨hl, hj, -⟩)
    · have hNot : as.1 ≠ 0 := fun h => by have := hRoot h; omega
      exact ⟨hl, by rw [hAdders hNot]; omega⟩
    · exact ⟨hl, hj⟩
  · rintro ⟨hl, hj⟩
    by_cases hEdge : as.1 = 0 ∨ as.2 = 0 ∨ as.2 + 1 = 2 ^ as.1
    · exact Or.inr ⟨hl, hj, hEdge⟩
    · have hCount := hAdders (by omega)
      exact Or.inl ⟨hl, by omega, by omega⟩

private theorem doublesAt_nodup (i : Nat) : (doublesAt i).Nodup := by
  rw [doublesAt, List.nodup_flatMap]
  constructor
  · intro k _
    simp
  · refine List.pairwise_lt_range.imp ?_
    intro k k' hk as hLeft hRight
    simp at hLeft hRight
    rcases hLeft with rfl | rfl <;> simp at hRight <;> omega

private theorem singlesAt_nodup (i : Nat) : (singlesAt type i).Nodup := by
  by_cases hi : i = 0
  · subst hi
    simp only [singlesAt, if_true]
    exact List.nodup_range.map fun a b h => by simpa using h
  · have hPow : 2 ^ i ≠ 1 := by simp [hi]
    have hPos : 0 < 2 ^ i := Nat.two_pow_pos i
    simp [singlesAt, hi]
    omega

theorem switches_nodup (type : ReduceNetworkType) (nlevels : Nat) :
    (construct type nlevels).switches.Nodup := by
  have hLevel : ∀ l (as : SwitchId), as ∈ doublesAt l ∨ as ∈ singlesAt type l →
      as.1 = l := by
    intro l as hMem
    rcases hMem with hMem | hMem
    · simp only [doublesAt, List.mem_flatMap, List.mem_cons, List.not_mem_nil,
        or_false] at hMem
      obtain ⟨k, -, rfl | rfl⟩ := hMem <;> rfl
    · by_cases hl : l = 0
      · subst hl
        simp only [singlesAt, if_true, List.mem_map] at hMem
        obtain ⟨j, -, rfl⟩ := hMem
        rfl
      · simp only [singlesAt, hl, if_false, List.mem_cons, List.not_mem_nil,
          or_false] at hMem
        rcases hMem with rfl | rfl <;> rfl
  rw [switches, List.nodup_append]
  refine ⟨?_, ?_, ?_⟩
  · rw [construct_eq, List.nodup_flatMap]
    refine ⟨fun l _ => doublesAt_nodup l, List.pairwise_lt_range.imp ?_⟩
    intro l l' hl as hLeft hRight
    have := hLevel l as (Or.inl hLeft)
    have := hLevel l' as (Or.inl hRight)
    omega
  · rw [construct_eq, List.nodup_flatMap]
    refine ⟨fun l _ => singlesAt_nodup l, List.pairwise_lt_range.imp ?_⟩
    intro l l' hl as hLeft hRight
    have := hLevel l as (Or.inr hLeft)
    have := hLevel l' as (Or.inr hRight)
    omega
  · intro as hDouble as' hSingle hEq
    subst hEq
    obtain ⟨-, hj, hLast⟩ := mem_doubleSwitches.mp hDouble
    obtain ⟨-, -, hEdge⟩ := mem_singleSwitches.mp hSingle
    rcases hEdge with hRoot | hFirst | hEnd
    · simp [hRoot] at hLast
    · omega
    · omega

theorem doubleSwitches_length (nlevels : Nat) :
    (construct type (nlevels + 1)).doubleSwitches.length + 2 * (nlevels + 1) =
      2 ^ (nlevels + 1) := by
  have hLevel : ∀ l, (doublesAt l).length = 2 * (2 ^ (l - 1) - 1) := by
    intro l
    simp [doublesAt, mul_comm]
  rw [construct_eq]
  induction nlevels with
  | zero => simp [hLevel]
  | succ n ih =>
      have hPos : 0 < 2 ^ n := Nat.two_pow_pos n
      have hPow : 2 ^ (n + 1) = 2 * 2 ^ n := by ring
      have hPow' : 2 ^ (n + 1 + 1) = 4 * 2 ^ n := by ring
      simp only [List.length_flatMap] at ih ⊢
      rw [List.range_succ, List.map_append, List.sum_append]
      simp only [List.map_cons, List.map_nil, List.sum_cons, List.sum_nil, hLevel,
        Nat.add_sub_cancel] at ih ⊢
      omega

theorem singleSwitches_length (nlevels : Nat) :
    (construct type (nlevels + 1)).singleSwitches.length =
      addersThisLevel type 0 + 2 * nlevels := by
  rw [construct_eq]
  induction nlevels with
  | zero => simp [singlesAt]
  | succ n ih =>
      simp only [List.length_flatMap] at ih ⊢
      rw [List.range_succ, List.map_append, List.sum_append, ih]
      simp [singlesAt]
      omega

end SwitchLists

/-! ## Dealing the inputs -/

namespace MemoryLinks

/-- The bus input of the adder number `pos` when there are `d` adders in double
switches and `w` bus lines. -/
def place (d w pos : Nat) : BusInput :=
  if pos < d then (pos / 2 % w, 2 * (pos / 2 / w) + pos % 2)
  else (pos % w, d / w + 1 + (pos - d) / w)

/-- The adder number `pos` gets its input. -/
private def connectAt (enabled : Bool) (table : List (List BusInput))
    (all : List SwitchId) (d : Nat) (links : MemoryLinks) (pos : Nat) :
    Option MemoryLinks := do
  let as ← all[pos]?
  links.connect enabled table as (place d table.length pos)

private theorem foldlM_pairs {σ : Type} (f : σ → Nat → Option σ) (st : σ) (n : Nat) :
    (List.range n).foldlM (fun st p => do
        let mid ← f st (2 * p)
        f mid (2 * p + 1)) st =
      (List.range (2 * n)).foldlM f st := by
  induction n with
  | zero => rfl
  | succ n ih =>
      have hRange : List.range (2 * (n + 1)) = List.range (2 * n) ++ [2 * n, 2 * n + 1] := by
        rw [Nat.mul_add_one, List.range_succ, List.range_succ]
        simp
      rw [List.range_succ, hRange, List.foldlM_append, List.foldlM_append, ih]
      simp

private theorem foldlM_congr {σ : Type} {f g : σ → Nat → Option σ} {l : List Nat}
    (h : ∀ st, ∀ n ∈ l, f st n = g st n) (st : σ) :
    l.foldlM f st = l.foldlM g st := by
  induction l generalizing st with
  | nil => rfl
  | cons n l ih =>
      rw [List.foldlM_cons, List.foldlM_cons, h st n (by simp)]
      congr 1
      funext mid
      exact ih (fun st m hm => h st m (by simp [hm])) mid

private theorem setMemoryConnections_eq (enabled : Bool) (table : List (List BusInput))
    (lists : SwitchLists) (hEven : lists.doubleSwitches.length % 2 = 0) :
    setMemoryConnections enabled table lists =
      (List.range lists.switches.length).foldlM
        (connectAt enabled table lists.switches lists.doubleSwitches.length) {} := by
  have hLength : lists.switches.length =
      2 * ((lists.doubleSwitches.length + 1) / 2) + lists.singleSwitches.length := by
    simp [SwitchLists.switches]
    omega
  have hHalf : 2 * ((lists.doubleSwitches.length + 1) / 2) =
      lists.doubleSwitches.length := by
    omega
  rw [hLength, List.range_add, List.foldlM_append, setMemoryConnections]
  have hDoubles : ∀ st : MemoryLinks,
      (List.range ((lists.doubleSwitches.length + 1) / 2)).foldlM
          (connectDouble enabled table lists.doubleSwitches) st =
        (List.range (2 * ((lists.doubleSwitches.length + 1) / 2))).foldlM
          (connectAt enabled table lists.switches lists.doubleSwitches.length) st := by
    intro st
    rw [← foldlM_pairs]
    refine foldlM_congr (fun st p hp => ?_) st
    have hp' : 2 * p + 1 < lists.doubleSwitches.length := by
      have := List.mem_range.mp hp
      omega
    have hFirst : 2 * p < lists.doubleSwitches.length := by omega
    have hHalfOdd : (2 * p + 1) / 2 = p := by omega
    have hModOdd : (2 * p + 1) % 2 = 1 := by omega
    simp [connectDouble, connectAt, place, SwitchLists.switches, hp', hFirst, hHalfOdd,
      hModOdd, List.getElem?_append_left hp', List.getElem?_append_left hFirst]
  have hSingles : ∀ st : MemoryLinks,
      (List.range lists.singleSwitches.length).foldlM
          (connectSingle enabled table lists) st =
        ((List.range lists.singleSwitches.length).map
            (2 * ((lists.doubleSwitches.length + 1) / 2) + ·)).foldlM
          (connectAt enabled table lists.switches lists.doubleSwitches.length) st := by
    intro st
    rw [List.foldlM_map]
    refine foldlM_congr (fun st i hi => ?_) st
    have hElem : (lists.doubleSwitches ++ lists.singleSwitches)[
        lists.doubleSwitches.length + i]? = lists.singleSwitches[i]? := by
      rw [List.getElem?_append_right (by omega), Nat.add_sub_cancel_left]
    rw [hHalf]
    simp [connectSingle, connectAt, place, SwitchLists.switches, hElem,
      Nat.add_comm i lists.doubleSwitches.length]
  simp only [hDoubles, hSingles]

private theorem connect_busInputConnections (enabled : Bool) (n w : Nat)
    (links : MemoryLinks) (as : SwitchId) (input : BusInput) :
    links.connect enabled (busInputConnections n w) as input =
      if input.1 < w ∧ input.2 < inputPortsBusLine n w then
        some
          { memoryConnection := Function.update links.memoryConnection as
              (some (if enabled then .accumulator links.accbufferMemoryConnections.length
                else .bus input))
            accbufferMemoryConnections :=
              if enabled then links.accbufferMemoryConnections ++ [input]
              else links.accbufferMemoryConnections }
      else none := by
  by_cases hLine : input.1 < w
  · by_cases hPort : input.2 < inputPortsBusLine n w
    · cases enabled <;> simp [connect, busInputConnections, hLine, hPort]
    · simp [connect, busInputConnections, hLine, hPort]
  · simp [connect, busInputConnections, hLine]

/-- The first `n` adders have the inputs that `place` gives them. -/
private structure Dealt (enabled : Bool) (all : List SwitchId) (d w n : Nat)
    (links : MemoryLinks) : Prop where
  accbuffer : links.accbufferMemoryConnections =
    if enabled then (List.range n).map (place d w) else []
  connection : ∀ pos, ∀ h : pos < all.length, pos < n →
    links.memoryConnection all[pos] =
      some (if enabled then .accumulator pos else .bus (place d w pos))

private theorem deal {enabled : Bool} {all : List SwitchId} (hNodup : all.Nodup)
    {m d w : Nat} {n : Nat} (hn : n ≤ all.length)
    (hRange : ∀ pos < n, (place d w pos).1 < w ∧
      (place d w pos).2 < inputPortsBusLine m w) :
    ∃ links, (List.range n).foldlM
        (connectAt enabled (busInputConnections m w) all d) {} = some links ∧
      Dealt enabled all d w n links := by
  have hTable : (busInputConnections m w).length = w := by simp [busInputConnections]
  induction n with
  | zero =>
      refine ⟨{}, by rfl, ⟨by simp, ?_⟩⟩
      intro pos h hpos
      omega
  | succ n ih =>
      obtain ⟨links, hLinks, hDealt⟩ := ih (by omega) fun pos hpos =>
        hRange pos (by omega)
      have hn' : n < all.length := by omega
      have hCount : enabled = true → links.accbufferMemoryConnections.length = n := by
        intro h
        simp [hDealt.accbuffer, h]
      rw [List.range_succ, List.foldlM_append, hLinks]
      simp only [Option.bind_eq_bind, Option.bind_some, List.foldlM_cons, List.foldlM_nil,
        connectAt, List.getElem?_eq_getElem hn', hTable, connect_busInputConnections,
        if_pos (hRange n (by omega))]
      refine ⟨_, rfl, ⟨?_, ?_⟩⟩
      · cases enabled with
        | true => simp [hDealt.accbuffer, List.range_succ]
        | false => simp [hDealt.accbuffer]
      · intro pos h hpos
        by_cases hLast : pos = n
        · subst hLast
          cases enabled with
          | true => simp [hCount]
          | false => simp
        · have hOther : all[pos] ≠ all[n] := fun hEq =>
            hLast (hNodup.getElem_inj_iff.mp hEq)
          simp [Function.update_of_ne hOther, hDealt.connection pos h (by omega)]

private theorem deal_fails {enabled : Bool} {all : List SwitchId} {m d w : Nat}
    {n pos : Nat} (hpos : pos < n)
    (hRange : ¬((place d w pos).1 < w ∧ (place d w pos).2 < inputPortsBusLine m w)) :
    (List.range n).foldlM (connectAt enabled (busInputConnections m w) all d) {} =
      none := by
  have hTable : (busInputConnections m w).length = w := by simp [busInputConnections]
  have hSplit : List.range n = List.range pos ++ pos ::
      (List.range (n - pos - 1)).map (pos + 1 + ·) := by
    have hSum : n = pos + 1 + (n - pos - 1) := by omega
    conv_lhs => rw [hSum, List.range_add, List.range_succ]
    simp
  have hStep : ∀ links : MemoryLinks,
      connectAt enabled (busInputConnections m w) all d links pos = none := by
    intro links
    simp only [connectAt, hTable, connect_busInputConnections, if_neg hRange]
    cases all[pos]? <;> rfl
  rw [hSplit, List.foldlM_append]
  cases (List.range pos).foldlM (connectAt enabled (busInputConnections m w) all d) {} with
  | none => rfl
  | some links => simp [List.foldlM_cons, hStep]

private theorem Dealt.busInput {enabled : Bool} {all : List SwitchId} {d w : Nat}
    {links : MemoryLinks} (h : Dealt enabled all d w all.length links) {pos : Nat}
    (hpos : pos < all.length) :
    links.busInput all[pos] = some (place d w pos) := by
  have hConnection := h.connection pos hpos hpos
  cases enabled with
  | true => simp [MemoryLinks.busInput, hConnection, h.accbuffer, hpos]
  | false => simp [MemoryLinks.busInput, hConnection]

/-! ## When the inputs suffice -/

private theorem lt_inputPortsBusLine {x n w : Nat} (hw : 0 < w) :
    x < inputPortsBusLine n w ↔ x * w < n := by
  have hSplit := Nat.div_add_mod n w
  have hMod := Nat.mod_lt n hw
  have hComm : n / w * w = w * (n / w) := Nat.mul_comm _ _
  unfold inputPortsBusLine
  by_cases hZero : n % w = 0
  · rw [if_neg (by simpa using hZero), Nat.add_zero]
    rw [← Nat.mul_lt_mul_right hw (b := x) (c := n / w)]
    omega
  · rw [if_pos hZero, Nat.lt_add_one_iff]
    constructor
    · intro h
      have := Nat.mul_le_mul_right w h
      omega
    · intro h
      by_contra hMore
      have := Nat.mul_le_mul_right w (show n / w + 1 ≤ x by omega)
      rw [Nat.add_mul, one_mul] at this
      omega

/-- The last single switch is the first to leave the range. -/
private theorem place_inRange_iff {d s m w : Nat} (hw : 0 < w) (hs : 0 < s)
    (hm : d + s ≤ m) :
    (∀ pos < d + s, (place d w pos).1 < w ∧
        (place d w pos).2 < inputPortsBusLine m w) ↔
      w ≤ d % w + (s - 1) % w + (m - d - s) := by
  have hD := Nat.div_add_mod d w
  have hS := Nat.div_add_mod (s - 1) w
  have hSum : (d / w + 1 + (s - 1) / w) * w = w * (d / w) + w + w * ((s - 1) / w) := by
    ring
  have hLast : d / w + 1 + (s - 1) / w < inputPortsBusLine m w ↔
      w ≤ d % w + (s - 1) % w + (m - d - s) := by
    rw [lt_inputPortsBusLine hw, hSum]
    omega
  rw [← hLast]
  constructor
  · intro h
    have hPlace := (h (d + s - 1) (by omega)).2
    rwa [place, if_neg (by omega), show d + s - 1 - d = s - 1 by omega] at hPlace
  · intro h pos hpos
    by_cases hDouble : pos < d
    · have hRound : 2 * (pos / 2 / w) ≤ d / w := by
        have hSplit := Nat.div_add_mod (pos / 2) w
        rw [Nat.le_div_iff_mul_le hw]
        have hTwice : 2 * (pos / 2 / w) * w = 2 * (w * (pos / 2 / w)) := by ring
        omega
      rw [place, if_pos hDouble]
      refine ⟨Nat.mod_lt _ hw, ?_⟩
      have hParity := Nat.mod_lt pos (show 0 < 2 by omega)
      have hBase := Nat.zero_le ((s - 1) / w)
      simp only
      omega
    · rw [place, if_neg hDouble]
      refine ⟨Nat.mod_lt _ hw, ?_⟩
      have : (pos - d) / w ≤ (s - 1) / w := Nat.div_le_div_right (by omega)
      simp only
      omega

private theorem eq_of_div_mod {a b w : Nat} (hDiv : a / w = b / w)
    (hMod : a % w = b % w) : a = b := by
  rw [← Nat.div_add_mod a w, ← Nat.div_add_mod b w, hDiv, hMod]

/-- A single switch collides with the second adder of a pair only in an incomplete
last round of the pairs. -/
private theorem place_ne_of_double_of_single {d s w pos i : Nat} (hw : 0 < w)
    (hFree : d / w % 2 = 1 ∨ d % w < 2 ∨ s + d % w ≤ w) (hpos : pos < d)
    (hi : i < s) :
    place d w pos ≠ place d w (d + i) := by
  intro hEq
  rw [place, if_pos hpos, place, if_neg (by omega), Nat.add_sub_cancel_left] at hEq
  obtain ⟨hLine, hInput⟩ := Prod.mk.injEq .. ▸ hEq
  have hSplit := Nat.div_add_mod (pos / 2) w
  have hD := Nat.div_add_mod d w
  have hRest := Nat.mod_lt d hw
  have hRound : 2 * (pos / 2 / w) ≤ d / w := by
    rw [Nat.le_div_iff_mul_le hw]
    have hTwice : 2 * (pos / 2 / w) * w = 2 * (w * (pos / 2 / w)) := by ring
    omega
  have hParity := Nat.mod_lt pos (show 0 < 2 by omega)
  have hBase := Nat.zero_le (i / w)
  have hFirst : i / w = 0 := by omega
  have hEven : d / w = 2 * (pos / 2 / w) := by omega
  have hBelow : i < w := by
    rcases Nat.div_eq_zero_iff.mp hFirst with hZero | hLess
    · omega
    · exact hLess
  have hTwice : w * (d / w) = 2 * (w * (pos / 2 / w)) := by
    rw [hEven]
    ring
  have hSum : d + i = w * (d / w) + (d % w + i) := by omega
  by_cases hWrap : d % w + i < w
  · have hMod : (d + i) % w = d % w + i := by
      rw [hSum, Nat.mul_add_mod, Nat.mod_eq_of_lt hWrap]
    omega
  · have hMod : (d + i) % w = d % w + i - w := by
      have hNext : d + i = w * (d / w + 1) + (d % w + i - w) := by
        rw [Nat.mul_add_one]
        omega
      rw [hNext, Nat.mul_add_mod, Nat.mod_eq_of_lt (by omega)]
    omega

private theorem place_injOn {d s w : Nat} (hw : 0 < w)
    (hFree : d / w % 2 = 1 ∨ d % w < 2 ∨ s + d % w ≤ w) {pos pos' : Nat}
    (hpos : pos < d + s) (hpos' : pos' < d + s)
    (hEq : place d w pos = place d w pos') :
    pos = pos' := by
  by_cases h : pos < d
  · by_cases h' : pos' < d
    · rw [place, if_pos h, place, if_pos h'] at hEq
      obtain ⟨hLine, hInput⟩ := Prod.mk.injEq .. ▸ hEq
      have hHalf : pos / 2 = pos' / 2 := eq_of_div_mod (by omega) hLine
      omega
    · refine absurd ?_ (place_ne_of_double_of_single (i := pos' - d) hw hFree h (by omega))
      rw [Nat.add_sub_cancel' (by omega)]
      exact hEq
  · by_cases h' : pos' < d
    · refine absurd ?_ (place_ne_of_double_of_single (i := pos - d) hw hFree h' (by omega))
      rw [Nat.add_sub_cancel' (by omega)]
      exact hEq.symm
    · rw [place, if_neg h, place, if_neg h'] at hEq
      obtain ⟨hLine, hInput⟩ := Prod.mk.injEq .. ▸ hEq
      have hSum : d + (pos - d) ≡ d + (pos' - d) [MOD w] := by
        rw [Nat.add_sub_cancel' (by omega), Nat.add_sub_cancel' (by omega)]
        exact hLine
      have hBehind : pos - d = pos' - d :=
        eq_of_div_mod (by omega) (Nat.ModEq.add_left_cancel' d hSum)
      omega

/-- The two adders that share an input when the condition fails. -/
private theorem place_collides {d w : Nat} (hEven : d / w % 2 = 0)
    (hRest : 2 ≤ d % w) (hw : 0 < w) :
    d / w / 2 * w * 2 + 1 < d ∧
      place d w (d / w / 2 * w * 2 + 1) = place d w (d + (w - d % w)) := by
  have hD := Nat.div_add_mod d w
  have hMod := Nat.mod_lt d hw
  have hHalf : d / w / 2 * w * 2 = w * (d / w) := by
    have hTwice : d / w = 2 * (d / w / 2) := by omega
    calc d / w / 2 * w * 2 = w * (2 * (d / w / 2)) := by ring
      _ = w * (d / w) := by rw [← hTwice]
  have hBefore : d / w / 2 * w * 2 + 1 < d := by omega
  refine ⟨hBefore, ?_⟩
  rw [place, if_pos hBefore, place, if_neg (by omega), Nat.add_sub_cancel_left]
  have hPair : (d / w / 2 * w * 2 + 1) / 2 = d / w / 2 * w := by omega
  have hOdd : (d / w / 2 * w * 2 + 1) % 2 = 1 := by omega
  have hLine : d + (w - d % w) = w * (d / w + 1) := by
    rw [Nat.mul_add_one]
    omega
  have hFirst : (w - d % w) / w = 0 := Nat.div_eq_of_lt (by omega)
  rw [hPair, hOdd, hLine, hFirst, Nat.mul_mod_left, Nat.mul_mod_right,
    Nat.mul_div_cancel _ hw]
  simp
  omega

/-- Adders that are dealt inputs one after another get existing and different ones
exactly when the rounds fit. -/
private theorem deal_iff {enabled : Bool} {all : List SwitchId} {d s m w : Nat}
    (hNodup : all.Nodup) (hLength : all.length = d + s) (hw : 0 < w) (hs : 0 < s)
    (hm : d + s ≤ m) :
    (∃ links, (List.range (d + s)).foldlM
        (connectAt enabled (busInputConnections m w) all d) {} = some links ∧
      (∀ as ∈ all, ∃ input, links.busInput as = some input ∧ input.1 < w ∧
        input.2 < inputPortsBusLine m w) ∧
      ∀ as ∈ all, ∀ as' ∈ all, links.busInput as = links.busInput as' → as = as') ↔
    w ≤ d % w + (s - 1) % w + (m - d - s) ∧
      (d / w % 2 = 1 ∨ d % w < 2 ∨ s + d % w ≤ w) := by
  constructor
  · rintro ⟨links, hLinks, -, hInjective⟩
    have hRange : ∀ pos < d + s, (place d w pos).1 < w ∧
        (place d w pos).2 < inputPortsBusLine m w := by
      intro pos hpos
      by_contra hOut
      rw [deal_fails hpos hOut] at hLinks
      simp at hLinks
    refine ⟨(place_inRange_iff hw hs hm).mp hRange, ?_⟩
    obtain ⟨links', hLinks', hDealt⟩ := deal hNodup hLength.ge hRange
    rw [← hLength] at hDealt
    have hSame : links' = links := by
      rw [hLinks'] at hLinks
      exact Option.some.inj hLinks
    subst hSame
    by_contra hBlocked
    simp only [not_or, not_lt, not_le] at hBlocked
    obtain ⟨hParity, hRest, hLate⟩ := hBlocked
    have hEven : d / w % 2 = 0 := by
      have := Nat.mod_lt (d / w) (show 0 < 2 by omega)
      omega
    have hMod := Nat.mod_lt d hw
    obtain ⟨hBefore, hCollide⟩ := place_collides hEven hRest hw
    have hFirst : d / w / 2 * w * 2 + 1 < all.length := by omega
    have hSecond : d + (w - d % w) < all.length := by omega
    have hSwitch := hInjective _ (List.getElem_mem hFirst) _ (List.getElem_mem hSecond)
      (by rw [hDealt.busInput hFirst, hDealt.busInput hSecond, hCollide])
    have hPos := hNodup.getElem_inj_iff.mp hSwitch
    omega
  · rintro ⟨hRounds, hFree⟩
    have hRange := (place_inRange_iff hw hs hm).mpr hRounds
    obtain ⟨links, hLinks, hDealt⟩ := deal hNodup hLength.ge hRange
    rw [← hLength] at hDealt
    refine ⟨links, hLinks, ?_, ?_⟩
    · intro as hAs
      obtain ⟨pos, hpos, rfl⟩ := List.getElem_of_mem hAs
      exact ⟨_, hDealt.busInput hpos, hRange pos (by omega)⟩
    · intro as hAs as' hAs' hEq
      obtain ⟨pos, hpos, rfl⟩ := List.getElem_of_mem hAs
      obtain ⟨pos', hpos', rfl⟩ := List.getElem_of_mem hAs'
      rw [hDealt.busInput hpos, hDealt.busInput hpos'] at hEq
      have hPlace := place_injOn hw hFree (by omega) (by omega) (Option.some.inj hEq)
      simp only [hPlace]

end MemoryLinks

/-- The number of adders in double switches. -/
def doubleSwitchCount (nlevels : Nat) : Nat :=
  2 ^ nlevels - 2 * nlevels

/-- The number of single switches. -/
def singleSwitchCount : ReduceNetworkType → Nat → Nat
  | .asnetwork, nlevels => 2 * nlevels - 1
  | .fenetwork, nlevels => 2 * nlevels

/-- The inputs of the bus that no adder needs. -/
def spareInputs : ReduceNetworkType → Nat
  | .asnetwork => 1
  | .fenetwork => 0

/-- The condition under which the inputs of `nBusLines` lines suffice: the rounds over
the lines that the two lists leave incomplete fill one more round together, and the
incomplete round of the pairs does not meet the single switches. -/
def InputsSuffice (type : ReduceNetworkType) (nlevels nBusLines : Nat) : Prop :=
  nBusLines ≤ doubleSwitchCount nlevels % nBusLines +
      (singleSwitchCount type nlevels - 1) % nBusLines + spareInputs type ∧
    (doubleSwitchCount nlevels / nBusLines % 2 = 1 ∨
      doubleSwitchCount nlevels % nBusLines < 2 ∨
      singleSwitchCount type nlevels + doubleSwitchCount nlevels % nBusLines ≤ nBusLines)

instance (type : ReduceNetworkType) (nlevels nBusLines : Nat) :
    Decidable (InputsSuffice type nlevels nBusLines) :=
  inferInstanceAs (Decidable (_ ∧ _))

/-- Every adder reaches an input of the bus that exists, and no other adder reaches the
same one. -/
def OwnBusInputs (type : ReduceNetworkType) (accumulationBufferEnabled : Bool)
    (nlevels nBusLines : Nat) : Prop :=
  ∃ links, connectASNandBus type accumulationBufferEnabled nlevels nBusLines = some links ∧
    (∀ as, IsSwitch type nlevels as → ∃ input, links.busInput as = some input ∧
      input.1 < nBusLines ∧ input.2 < inputPortsBusLine (2 ^ nlevels) nBusLines) ∧
    ∀ as as', IsSwitch type nlevels as → IsSwitch type nlevels as' →
      links.busInput as = links.busInput as' → as = as'

private theorem doubleSwitches_count (type : ReduceNetworkType) {nlevels : Nat}
    (hLevels : 2 ≤ nlevels) :
    (SwitchLists.construct type nlevels).doubleSwitches.length =
      doubleSwitchCount nlevels := by
  obtain ⟨n, rfl⟩ : ∃ n, nlevels = n + 1 := ⟨nlevels - 1, by omega⟩
  have hCount := @SwitchLists.doubleSwitches_length type n
  simp only [doubleSwitchCount]
  omega

private theorem singleSwitches_count (type : ReduceNetworkType) {nlevels : Nat}
    (hLevels : 2 ≤ nlevels) :
    (SwitchLists.construct type nlevels).singleSwitches.length =
      singleSwitchCount type nlevels := by
  obtain ⟨n, rfl⟩ : ∃ n, nlevels = n + 1 := ⟨nlevels - 1, by omega⟩
  rw [SwitchLists.singleSwitches_length]
  cases type with
  | asnetwork => simp [addersThisLevel, singleSwitchCount]; omega
  | fenetwork => simp [addersThisLevel, singleSwitchCount]; omega

/-- There is one adder less than multipliers, and one more in `FENetwork`. -/
private theorem switchCount (type : ReduceNetworkType) {nlevels : Nat}
    (hLevels : 2 ≤ nlevels) :
    doubleSwitchCount nlevels + singleSwitchCount type nlevels + spareInputs type =
      2 ^ nlevels := by
  have hDoubles := doubleSwitches_count type hLevels
  obtain ⟨n, rfl⟩ : ∃ n, nlevels = n + 1 := ⟨nlevels - 1, by omega⟩
  have hCount := @SwitchLists.doubleSwitches_length type n
  cases type with
  | asnetwork => simp only [singleSwitchCount, spareInputs]; omega
  | fenetwork => simp only [singleSwitchCount, spareInputs]; omega

private theorem connectASNandBus_eq (type : ReduceNetworkType) (enabled : Bool)
    {nlevels : Nat} (hLevels : 2 ≤ nlevels) (nBusLines : Nat) :
    connectASNandBus type enabled nlevels nBusLines =
      (List.range (doubleSwitchCount nlevels + singleSwitchCount type nlevels)).foldlM
        (MemoryLinks.connectAt enabled (busInputConnections (2 ^ nlevels) nBusLines)
          (SwitchLists.construct type nlevels).switches (doubleSwitchCount nlevels)) {} := by
  have hDoubles := doubleSwitches_count type hLevels
  have hSingles := singleSwitches_count type hLevels
  have hEven : (SwitchLists.construct type nlevels).doubleSwitches.length % 2 = 0 := by
    have hPow : 2 ^ nlevels = 2 * 2 ^ (nlevels - 1) := by
      rw [← pow_succ', Nat.sub_add_cancel (by omega)]
    rw [hDoubles, doubleSwitchCount]
    omega
  rw [connectASNandBus, MemoryLinks.setMemoryConnections_eq enabled _ _ hEven]
  simp only [SwitchLists.switches, List.length_append, hDoubles, hSingles]

/-- The bus has an input of its own for every adder exactly under the condition. -/
theorem own_bus_inputs_iff (type : ReduceNetworkType) (accumulationBufferEnabled : Bool)
    {nlevels nBusLines : Nat} (hLevels : 2 ≤ nlevels) (hLines : 1 ≤ nBusLines)
    (_hMost : nBusLines ≤ 2 ^ nlevels) :
    OwnBusInputs type accumulationBufferEnabled nlevels nBusLines ↔
      InputsSuffice type nlevels nBusLines := by
  have hSum := switchCount type hLevels
  have hSingle : 0 < singleSwitchCount type nlevels := by
    cases type <;> simp only [singleSwitchCount] <;> omega
  have hLength : (SwitchLists.construct type nlevels).switches.length =
      doubleSwitchCount nlevels + singleSwitchCount type nlevels := by
    rw [SwitchLists.switches, List.length_append, doubleSwitches_count type hLevels,
      singleSwitches_count type hLevels]
  have hIff := @MemoryLinks.deal_iff accumulationBufferEnabled _ _ _ _ nBusLines
    (SwitchLists.switches_nodup type nlevels) hLength hLines hSingle
    (show _ ≤ 2 ^ nlevels by omega)
  have hSpare : 2 ^ nlevels - doubleSwitchCount nlevels - singleSwitchCount type nlevels =
      spareInputs type := by
    omega
  simp only [SwitchLists.mem_switches, hSpare] at hIff
  rw [OwnBusInputs, connectASNandBus_eq type accumulationBufferEnabled hLevels,
    InputsSuffice, ← hIff]
  constructor
  · rintro ⟨links, hLinks, hReach, hInjective⟩
    exact ⟨links, hLinks, hReach, fun as hAs as' => hInjective as as' hAs⟩
  · rintro ⟨links, hLinks, hReach, hInjective⟩
    exact ⟨links, hLinks, hReach, fun as as' hAs => hInjective as hAs as'⟩

/-- With 5 lines, 16 multipliers have enough bus inputs. -/
theorem own_bus_inputs_iff_five_lines :
    OwnBusInputs .asnetwork true 4 5 ↔ InputsSuffice .asnetwork 4 5 :=
  own_bus_inputs_iff .asnetwork true (by decide) (by decide) (by decide)

/-- Four multipliers behind four bus lines: a line has one input, and the only adders
are single switches, whose inputs start at number one. -/
theorem own_bus_inputs_fail_four_lines :
    ¬∀ type enabled nlevels nBusLines, 2 ≤ nlevels → 1 ≤ nBusLines →
      nBusLines ≤ 2 ^ nlevels → OwnBusInputs type enabled nlevels nBusLines := by
  intro h
  obtain ⟨links, hLinks, -⟩ := h .asnetwork false 2 4 (by decide) (by decide) (by decide)
  have hNone : connectASNandBus .asnetwork false 2 4 = none := by rfl
  rw [hNone] at hLinks
  simp at hLinks

end Stonne
