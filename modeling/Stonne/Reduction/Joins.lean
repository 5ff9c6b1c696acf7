import Stonne.Reduction.Compiler

/-!
# The assertions of the reduction compilers

The loop over the adders of a level asserts, for an adder whose forwarding link an earlier
neuron uses, that this adder sends.  The assertion holds for every mapping whose neurons
follow each other.

A neuron is an interval of bits at every level.  Only the pair below which the interval begins
can be joined to the right and only the pair below which it ends to the left.  A join to the
right leaves no room for a later neuron below its receiver, since one level further down the
same neuron would have been joined to the right before.
-/

namespace Stonne

/-- The bits `x`, …, `y`. -/
def between (x y : Nat) : Nat → Bool :=
  fun s => decide (x ≤ s ∧ s ≤ y)

theorem leftSpan_between (x y s : Nat) :
    leftSpan (between x y) s = if x ≤ s ∧ s ≤ y then s - x + 1 else 0 := by
  induction s with
  | zero =>
      simp only [leftSpan, between]
      by_cases h : x ≤ 0 ∧ 0 ≤ y <;> simp
  | succ s ih =>
      rw [leftSpan, ih]
      by_cases h : x ≤ s + 1 ∧ s + 1 ≤ y
      · rw [if_pos (by simpa [between] using h), if_pos h]
        split <;> omega
      · rw [if_neg (by simpa [between] using h), if_neg h]

theorem rightSpan_between (x y s n : Nat) :
    rightSpan (between x y) s n = if x ≤ s then min n (y + 1 - s) else 0 := by
  induction n generalizing s with
  | zero => simp [rightSpan]
  | succ n ih =>
      rw [rightSpan, ih]
      rcases Nat.lt_or_ge s x with hBefore | hFrom
      · rw [if_neg (by simp [between]; omega), if_neg (by omega)]
      · rcases Nat.lt_or_ge y s with hBehind | hTo
        · rw [if_neg (by simp [between]; omega), if_pos hFrom]
          omega
        · rw [if_pos (by simp [between]; omega), if_pos (by omega), if_pos hFrom]
          omega

namespace LevelState

/-! ## One pair of adders -/

/-- The interval has bits below the adder `p`. -/
def Hits (x y p : Nat) : Prop :=
  x ≤ 2 * p + 1 ∧ 2 * p ≤ y

instance (x y p : Nat) : Decidable (Hits x y p) :=
  inferInstanceAs (Decidable (_ ∧ _))

/-- The right adder of the pair `as`, `as + 1` sends to the left one. -/
def JoinsLeft (x y as : Nat) : Prop :=
  x ≤ 2 * as + 1 ∧ 2 * as + 2 ≤ y ∧ y ≤ 2 * as + 3 ∧ y - (2 * as + 1) ≤ 2 * as + 2 - x

/-- The left adder of the pair `as`, `as + 1` sends to the right one. -/
def JoinsRight (x y as : Nat) : Prop :=
  2 * as ≤ x ∧ x ≤ 2 * as + 1 ∧ 2 * as + 2 ≤ y ∧ 2 * as + 2 - x < y - (2 * as + 1)

instance (x y as : Nat) : Decidable (JoinsLeft x y as) :=
  inferInstanceAs (Decidable (_ ∧ _))

instance (x y as : Nat) : Decidable (JoinsRight x y as) :=
  inferInstanceAs (Decidable (_ ∧ _))

section

variable {numMs l as x y : Nat} {st : LevelState}

theorem between_iff {s : Nat} : between x y s = true ↔ x ≤ s ∧ s ≤ y :=
  decide_eq_true_iff

theorem hits_of_joinsRight (h : JoinsRight x y as) : Hits x y as ∧ Hits x y (as + 1) := by
  obtain ⟨-, hFirst, hLast, -⟩ := h
  exact ⟨⟨hFirst, by omega⟩, ⟨by omega, by omega⟩⟩

theorem hits_of_joinsLeft (h : JoinsLeft x y as) : Hits x y as ∧ Hits x y (as + 1) := by
  obtain ⟨hFirst, hLast, -⟩ := h
  exact ⟨⟨hFirst, by omega⟩, ⟨by omega, by omega⟩⟩

/-- The bits to the left of the link, down from the last child of its left adder. -/
theorem left_eq (x y as : Nat) :
    leftSpan (between x y) (if between x y (as * 2 + 1) then as * 2 + 1 else as * 2) =
      if Hits x y as then min (2 * as + 1) y + 1 - x else 0 := by
  rw [leftSpan_between]
  rcases Decidable.em (Hits x y as) with hHit | hMiss
  · rw [if_pos hHit]
    obtain ⟨hFirst, hLast⟩ := hHit
    split
    · rename_i hSet
      have hBetween := between_iff.1 hSet
      rw [if_pos (by omega)]
      omega
    · rename_i hClear
      rw [between_iff] at hClear
      split <;> omega
  · rw [if_neg hMiss, if_neg]
    unfold Hits at hMiss
    split <;> omega

/-- The bits to the right of the link, up from the first child of its right adder. -/
theorem right_eq (hxy : x ≤ y) (hy : y < numMs) :
    (rightSpan (between x y)
        (if between x y (as * 2 + 1 + 1) then as * 2 + 1 + 1 else as * 2 + 1 + 2)
        (numMs - if between x y (as * 2 + 1 + 1) then as * 2 + 1 + 1 else as * 2 + 1 + 2)) =
      if Hits x y (as + 1) then y + 1 - max (2 * as + 2) x else 0 := by
  rw [rightSpan_between]
  rcases Decidable.em (Hits x y (as + 1)) with hHit | hMiss
  · rw [if_pos hHit]
    obtain ⟨hFirst, hLast⟩ := hHit
    split
    · rename_i hSet
      have hBetween := between_iff.1 hSet
      rw [if_pos (by omega)]
      omega
    · rename_i hClear
      rw [between_iff] at hClear
      split <;> omega
  · rw [if_neg hMiss]
    unfold Hits at hMiss
    split <;> split <;> omega

theorem span_pos_iff {p : Prop} [Decidable p] {n span : Nat} (hSpan : (if p then n else 0) = span)
    (hPos : p → 0 < n) : 0 < span ↔ p := by
  split at hSpan
  · rename_i hHit
    exact ⟨fun _ => hHit, fun _ => hSpan ▸ hPos hHit⟩
  · rename_i hMiss
    exact ⟨fun h => absurd h (by omega), fun h => absurd h hMiss⟩

/-- What the pair `as`, `as + 1` does to the interval and to the maps. -/
theorem configurePair_eq (hBits : st.vectorBits = between x y) (hxy : x ≤ y) (hy : y < numMs)
    (hOdd : as % 2 = 1) :
    (JoinsLeft x y as ∧ configurePair numMs l st as =
        { (st.setParent as true).setParent (as + 1) false with
          vectorBits := between x (2 * as + 1)
          signals := st.signals.joinPair (l, as) (l, as + 1) }) ∨
      (JoinsRight x y as ∧ configurePair numMs l st as =
        { (st.setParent (as + 1) true).setParent as false with
          vectorBits := between (2 * as + 2) y
          signals := st.signals.joinPair (l, as + 1) (l, as) }) ∨
      (¬JoinsLeft x y as ∧ ¬JoinsRight x y as ∧ ∃ left right : Nat,
        (0 < left ↔ Hits x y as) ∧ (0 < right ↔ Hits x y (as + 1)) ∧
        configurePair numMs l st as =
          configureApart l ((st.setParent as (decide (Hits x y as))).setParent (as + 1)
            (decide (Hits x y (as + 1)))) as left right) := by
  have hLeft := left_eq x y as
  have hRight := @right_eq numMs as x y hxy hy
  rw [configurePair]
  simp only [hBits]
  rw [hLeft, hRight]
  generalize hL : (if Hits x y as then min (2 * as + 1) y + 1 - x else 0) = left
  generalize hR : (if Hits x y (as + 1) then y + 1 - max (2 * as + 2) x else 0) = right
  have hLeftPos : 0 < left ↔ Hits x y as := by
    apply span_pos_iff hL
    rintro ⟨hFirst, hLast⟩
    omega
  have hRightPos : 0 < right ↔ Hits x y (as + 1) := by
    apply span_pos_iff hR
    rintro ⟨hFirst, hLast⟩
    omega
  split
  · rename_i hNone
    refine .inr (.inr ⟨fun hJoin => ?_, fun hJoin => ?_, left, right, hLeftPos, hRightPos, ?_⟩)
    · obtain ⟨hHit, hNext⟩ := hits_of_joinsLeft hJoin
      have hLeft' := hLeftPos.2 hHit
      have hRight' := hRightPos.2 hNext
      omega
    · obtain ⟨hHit, hNext⟩ := hits_of_joinsRight hJoin
      have hLeft' := hLeftPos.2 hHit
      have hRight' := hRightPos.2 hNext
      omega
    · simp only [hLeftPos, hRightPos]
  · rename_i hBoth
    have hHit : Hits x y as := hLeftPos.1 (by omega)
    have hNext : Hits x y (as + 1) := hRightPos.1 (by omega)
    rw [if_pos hHit] at hL
    rw [if_pos hNext] at hR
    have hSides := hHit
    have hSides' := hNext
    unfold Hits at hSides hSides'
    have hParents : decide (Hits x y as) = true ∧ decide (Hits x y (as + 1)) = true :=
      ⟨decide_eq_true hHit, decide_eq_true hNext⟩
    split
    · rename_i hLe
      split
      · rename_i hSet
        rw [Bool.or_eq_true, between_iff, between_iff] at hSet
        refine .inr (.inr ⟨fun hJoin => ?_, fun hJoin => ?_, left, right, hLeftPos, hRightPos, ?_⟩)
        · unfold JoinsLeft at hJoin
          omega
        · unfold JoinsRight at hJoin
          omega
        · rw [hParents.1, hParents.2]
      · rename_i hClear
        rw [Bool.or_eq_true, between_iff, between_iff] at hClear
        refine .inl ⟨?_, ?_⟩
        · unfold JoinsLeft
          omega
        · congr 1
          funext s
          rw [Bool.eq_iff_iff, Bool.and_eq_true, between_iff, between_iff, decide_eq_true_iff]
          omega
    · rename_i hLt
      split
      · rename_i hSet
        rw [Bool.or_eq_true, between_iff, between_iff] at hSet
        refine .inr (.inr ⟨fun hJoin => ?_, fun hJoin => ?_, left, right, hLeftPos, hRightPos, ?_⟩)
        · unfold JoinsLeft at hJoin
          omega
        · unfold JoinsRight at hJoin
          omega
        · rw [hParents.1, hParents.2]
      · rename_i hClear
        rw [Bool.or_eq_true, between_iff, between_iff] at hClear
        refine .inr (.inl ⟨?_, ?_⟩)
        · unfold JoinsRight
          omega
        · congr 1
          funext s
          rw [Bool.eq_iff_iff, Bool.and_eq_true, between_iff, between_iff, decide_eq_true_iff]
          omega

end

/-! ## One level -/

/-- The interval among `n` bits, between the positions `α`, where its neuron begins, and `β`,
where the next one begins.  An interval of three bits that begins at the second child of an
adder leaves its last bit to no other neuron. -/
structure Placed (n α β x y : Nat) : Prop where
  nonempty : x ≤ y
  fits : y < n
  starts : α ≤ x
  ends : y ≤ β
  tight : x % 2 = 1 → y = x + 2 → y + 1 ≤ β

/-- Between two pairs of adders nothing is open. -/
def front (A n : Nat) : Nat :=
  if n % 2 = 0 ∧ 0 < n ∧ n < A then n + 1 else n

/-- No assertion about the pair `p`, `p + 1` of level `l` can fail for neurons that begin at the
adder `c` of the level or behind it. -/
def PairSafe (sig : AdderSignals) (l p c : Nat) : Prop :=
  (sig.fwlinksConfiguration (l, p) = none ∧ sig.fwlinksConfiguration (l, p + 1) = none) ∨
    sig.fwlinksConfiguration (l, p + 1) = some .send ∨ p + 2 ≤ c

theorem PairSafe.mono {sig : AdderSignals} {l p c c' : Nat} (h : PairSafe sig l p c)
    (hLe : c ≤ c') : PairSafe sig l p c' := by
  rcases h with hNone | hSend | hBehind
  · exact .inl hNone
  · exact .inr (.inl hSend)
  · exact .inr (.inr (Nat.le_trans hBehind hLe))

theorem PairSafe.congr {sig sig' : AdderSignals} {l p c : Nat} (h : PairSafe sig l p c)
    (hLeft : sig'.fwlinksConfiguration (l, p) = sig.fwlinksConfiguration (l, p))
    (hRight : sig'.fwlinksConfiguration (l, p + 1) = sig.fwlinksConfiguration (l, p + 1)) :
    PairSafe sig' l p c := by
  unfold PairSafe
  rwa [hLeft, hRight]

/-- The loop over the adders of level `l` with the adders below `f` decided. -/
structure Decided (sig : AdderSignals) (l A α β f x y : Nat) (st : LevelState) : Prop where
  bits : st.vectorBits = between x y
  placed : Placed (2 * A) α β x y
  parents : ∀ s, st.parentBits s = (decide (s < f) && decide (Hits x y s))
  narrow : x / 2 < f → x / 2 % 2 = 1 → y / 2 ≤ x / 2 + 1
  safe : ∀ p, p % 2 = 1 →
    PairSafe st.signals l p (if p < f then β / 2 else α / 2)
  edges : ∀ p, p = 0 ∨ A ≤ p + 1 → st.signals.fwlinksConfiguration (l, p) = none
  others : ∀ l' p, l' ≠ l →
    st.signals.fwlinksConfiguration (l', p) = sig.fwlinksConfiguration (l', p)
  holds : st.signals.failed = false

section

variable {sig : AdderSignals} {numMs l A α β f x y as : Nat} {st : LevelState}

theorem useSingle_fwlinks (id : SwitchId) :
    (sig.useSingle id).fwlinksConfiguration = sig.fwlinksConfiguration := by
  unfold AdderSignals.useSingle
  split <;> rfl

theorem useSingle_failed (id : SwitchId) : (sig.useSingle id).failed = sig.failed := by
  unfold AdderSignals.useSingle
  split <;> rfl

theorem usePaired_fwlinks (id next : SwitchId) :
    (sig.usePaired id next).fwlinksConfiguration = sig.fwlinksConfiguration := by
  unfold AdderSignals.usePaired
  split
  · split <;> rfl
  · rfl

/-- The assertion about a pair holds where the receiver sends or neither adder has a link. -/
theorem usePaired_failed {id next : SwitchId}
    (h : sig.fwlinksConfiguration id = none ∨ sig.fwlinksConfiguration next = some .send) :
    (sig.usePaired id next).failed = sig.failed := by
  unfold AdderSignals.usePaired
  split
  · split
    · rename_i hLink
      rcases h with hNone | hSend
      · simp [hNone] at hLink
      · simp [hSend]
    · rfl
  · rfl

theorem joinPair_fwlinks (asReceive asSend : SwitchId) :
    (sig.joinPair asReceive asSend).fwlinksConfiguration =
      Function.update (Function.update sig.fwlinksConfiguration asReceive (some .receive)) asSend
        (some .send) := by
  simp only [AdderSignals.joinPair]
  split <;> rfl

theorem joinPair_failed (asReceive asSend : SwitchId) :
    (sig.joinPair asReceive asSend).failed = sig.failed := by
  simp only [AdderSignals.joinPair]
  split <;> rfl

theorem Placed.half (h : Placed (2 * A) α β x y) : α / 2 ≤ β / 2 :=
  Nat.div_le_div_right (h.starts.trans (h.nonempty.trans h.ends))

theorem setParent_parentBits (s : Nat) (b : Bool) (s' : Nat) :
    (st.setParent s b).parentBits s' = if s' = s then b else st.parentBits s' := by
  simp [setParent, Function.update_apply]

/-- The first or the last adder of the level. -/
theorem single_decided (hStage : Decided sig l A α β as x y st) (hEdge : as = 0 ∨ as + 1 = A) :
    Decided sig l A α β (as + 1) x y (configureSingle l st as) := by
  have hPlaced := hStage.placed
  have hHit : (st.vectorBits (as * 2) || st.vectorBits (as * 2 + 1)) = decide (Hits x y as) := by
    have hOrder := hPlaced.nonempty
    rw [hStage.bits, Bool.eq_iff_iff, Bool.or_eq_true, between_iff, between_iff,
      decide_eq_true_iff]
    unfold Hits
    omega
  have hParents : ∀ s, (if s = as then decide (Hits x y as) else st.parentBits s) =
      (decide (s < as + 1) && decide (Hits x y s)) := by
    intro s
    rw [hStage.parents]
    split
    · rename_i hSame
      simp [hSame]
    · rename_i hOther
      have hBelow : s < as + 1 ↔ s < as := by omega
      simp only [hBelow]
  have hNarrow : x / 2 < as + 1 → x / 2 % 2 = 1 → y / 2 ≤ x / 2 + 1 := by
    intro hBelow hOdd
    have hFits := hPlaced.fits
    rcases Nat.lt_or_ge (x / 2) as with hBefore | hHere
    · exact hStage.narrow hBefore hOdd
    · omega
  have hSafe : ∀ p, p % 2 = 1 →
      PairSafe st.signals l p (if p < as + 1 then β / 2 else α / 2) := by
    intro p hOdd
    have hOld := hStage.safe p hOdd
    have hHalf := hPlaced.half
    split
    · refine hOld.mono ?_
      split
      · exact Nat.le_refl _
      · exact hHalf
    · rename_i hBehind
      rwa [if_neg (by omega)] at hOld
  rw [configureSingle, hHit]
  split
  · rename_i hSet
    exact
      { bits := hStage.bits
        placed := hPlaced
        parents := fun s => by
          rw [← hParents s, hSet]
          exact setParent_parentBits as true s
        narrow := hNarrow
        safe := fun p hOdd => (hSafe p hOdd).congr
          (congrFun (useSingle_fwlinks _) _) (congrFun (useSingle_fwlinks _) _)
        edges := fun p hEnd => (congrFun (useSingle_fwlinks _) _).trans (hStage.edges p hEnd)
        others := fun l' p hLevel =>
          (congrFun (useSingle_fwlinks _) _).trans (hStage.others l' p hLevel)
        holds := (useSingle_failed _).trans hStage.holds }
  · rename_i hClear
    exact
      { bits := hStage.bits
        placed := hPlaced
        parents := fun s => by
          rw [← hParents s, eq_false_of_ne_true hClear]
          exact setParent_parentBits as false s
        narrow := hNarrow
        safe := hSafe
        edges := hStage.edges
        others := hStage.others
        holds := hStage.holds }

theorem configureApart_fwlinks (left right : Nat) :
    (configureApart l st as left right).signals.fwlinksConfiguration =
      st.signals.fwlinksConfiguration := by
  simp only [configureApart]
  split <;> split <;> simp only [usePaired_fwlinks]

/-- A pair below which the interval has bits is safe because of its own links only. -/
theorem configureApart_failed {left right c : Nat} (hSafe : PairSafe st.signals l as c)
    (hLeft : 0 < left → as + 2 ≤ c → False) (hRight : 0 < right → as + 2 ≤ c → False) :
    (configureApart l st as left right).signals.failed = st.signals.failed := by
  have hLinks : 0 < left ∨ 0 < right →
      (st.signals.fwlinksConfiguration (l, as) = none ∧
          st.signals.fwlinksConfiguration (l, as + 1) = none) ∨
        st.signals.fwlinksConfiguration (l, as + 1) = some .send := by
    intro hHit
    rcases hSafe with hNone | hSend | hBehind
    · exact .inl hNone
    · exact .inr hSend
    · exact (hHit.elim (hLeft · hBehind) (hRight · hBehind)).elim
  have hFirst : 0 < left →
      (st.signals.usePaired (l, as) (l, as + 1)).failed = st.signals.failed := by
    intro hPos
    exact usePaired_failed ((hLinks (.inl hPos)).imp And.left id)
  have hSecond : ∀ sig' : AdderSignals,
      sig'.fwlinksConfiguration = st.signals.fwlinksConfiguration → 0 < right →
      (sig'.usePaired (l, as + 1) (l, as + 1)).failed = sig'.failed := by
    intro sig' hSame hPos
    apply usePaired_failed
    rw [hSame]
    exact (hLinks (.inr hPos)).imp And.right id
  simp only [configureApart]
  split
  · rename_i hPosRight
    split
    · rename_i hPosLeft
      exact (hSecond _ (usePaired_fwlinks _ _) hPosRight).trans (hFirst hPosLeft)
    · exact hSecond _ rfl hPosRight
  · split
    · rename_i hPosLeft
      exact hFirst hPosLeft
    · rfl

/-- The parents of the adders below a decided pair. -/
theorem parents_of_pair {x' y' : Nat} {st' : LevelState} (hStage : Decided sig l A α β as x y st)
    (hLeft : st'.parentBits as = decide (Hits x' y' as))
    (hRight : st'.parentBits (as + 1) = decide (Hits x' y' (as + 1)))
    (hOther : ∀ s, s ≠ as → s ≠ as + 1 → st'.parentBits s = st.parentBits s)
    (hSame : ∀ s, s < as → (Hits x y s ↔ Hits x' y' s)) (s : Nat) :
    st'.parentBits s = (decide (s < as + 2) && decide (Hits x' y' s)) := by
  rcases Nat.lt_or_ge s as with hBelow | hFrom
  · rw [hOther s (by omega) (by omega), hStage.parents]
    have hBelow' : s < as + 2 := by omega
    simp only [hBelow, hBelow', hSame s hBelow]
  · rcases Nat.lt_or_ge s (as + 2) with hPair | hBehind
    · have hEither : s = as ∨ s = as + 1 := by omega
      rcases hEither with rfl | rfl
      · rw [hLeft, decide_eq_true hPair, Bool.true_and]
      · rw [hRight, decide_eq_true hPair, Bool.true_and]
    · have hNot : ¬s < as := by omega
      have hNot' : ¬s < as + 2 := by omega
      rw [hOther s (by omega) (by omega), hStage.parents, decide_eq_false hNot,
        decide_eq_false hNot', Bool.false_and, Bool.false_and]

/-- A pair that stays apart. -/
theorem apart_decided {left right : Nat} (hStage : Decided sig l A α β as x y st)
    (hOdd : as % 2 = 1) (hApart : ¬JoinsRight x y as) (hLeft : 0 < left ↔ Hits x y as)
    (hRight : 0 < right ↔ Hits x y (as + 1)) :
    Decided sig l A α β (as + 2) x y
      (configureApart l ((st.setParent as (decide (Hits x y as))).setParent (as + 1)
        (decide (Hits x y (as + 1)))) as left right) := by
  have hPlaced := hStage.placed
  have hOld := hStage.safe as hOdd
  rw [if_neg (Nat.lt_irrefl as)] at hOld
  have hStart := hPlaced.starts
  refine
    { bits := hStage.bits
      placed := hPlaced
      parents := fun s => ?_
      narrow := fun hBelow hOdd' => ?_
      safe := fun p hOdd' => ?_
      edges := fun p hEnd => (congrFun (configureApart_fwlinks _ _) _).trans (hStage.edges p hEnd)
      others := fun l' p hLevel =>
        (congrFun (configureApart_fwlinks _ _) _).trans (hStage.others l' p hLevel)
      holds := (configureApart_failed hOld ?_ ?_).trans hStage.holds }
  · apply parents_of_pair hStage
    · simp [configureApart, setParent]
    · simp [configureApart, setParent]
    · intro s' hAs hNext
      simp [configureApart, setParent, hAs, hNext]
    · exact fun _ _ => Iff.rfl
  · unfold JoinsRight at hApart
    have hFits := hPlaced.nonempty
    rcases Nat.lt_or_ge (x / 2) as with hBefore | hHere
    · exact hStage.narrow hBefore hOdd'
    · omega
  · refine PairSafe.congr ?_ (congrFun (configureApart_fwlinks _ _) _)
      (congrFun (configureApart_fwlinks _ _) _)
    refine (hStage.safe p hOdd').mono ?_
    have hHalf := hPlaced.half
    split <;> split <;> omega
  · intro hPos hBehind
    have hHit := hLeft.1 hPos
    unfold Hits at hHit
    omega
  · intro hPos hBehind
    have hHit := hRight.1 hPos
    unfold Hits at hHit
    omega

/-- Joining a pair leaves the links of all other pairs as they are. -/
theorem joinPair_other {p l' a b : Nat} (hA : l' ≠ l ∨ p ≠ a) (hB : l' ≠ l ∨ p ≠ b) :
    (sig.joinPair (l, a) (l, b)).fwlinksConfiguration (l', p) =
      sig.fwlinksConfiguration (l', p) := by
  have hNe : ∀ c, l' ≠ l ∨ p ≠ c → (l', p) ≠ (l, c) := by
    intro c hC hEq
    rw [Prod.mk.injEq] at hEq
    exact hC.elim (fun h => h hEq.1) (fun h => h hEq.2)
  rw [joinPair_fwlinks, Function.update_of_ne (hNe b hB), Function.update_of_ne (hNe a hA)]

theorem joinPair_sends (a b : Nat) :
    (sig.joinPair (l, a) (l, b)).fwlinksConfiguration (l, b) = some .send := by
  rw [joinPair_fwlinks, Function.update_self]

/-- The links after a pair has been joined, in either direction. -/
theorem joined_safe {a b p : Nat} (hStage : Decided sig l A α β as x y st) (hOdd : as % 2 = 1)
    (hEnds : (a = as ∧ b = as + 1) ∨ (a = as + 1 ∧ b = as ∧ as + 2 ≤ β / 2))
    (hOdd' : p % 2 = 1) :
    PairSafe (st.signals.joinPair (l, a) (l, b)) l p (if p < as + 2 then β / 2 else α / 2) := by
  rcases eq_or_ne p as with hSame | hOther
  · rw [hSame, if_pos (by omega)]
    rcases hEnds with ⟨rfl, rfl⟩ | ⟨rfl, rfl, hBehind⟩
    · exact .inr (.inl (joinPair_sends a (a + 1)))
    · exact .inr (.inr hBehind)
  · have hOld := hStage.safe p hOdd'
    have hBelow : p < as + 2 ↔ p < as := by omega
    simp only [hBelow]
    refine hOld.congr (joinPair_other (.inr ?_) (.inr ?_)) (joinPair_other (.inr ?_) (.inr ?_))
    all_goals omega

/-- Neither the first nor the last adder is joined. -/
theorem joined_edges {a b p : Nat} (hStage : Decided sig l A α β as x y st) (hInner : as + 2 < A)
    (hEnds : (a = as ∧ b = as + 1) ∨ (a = as + 1 ∧ b = as)) (hPos : 0 < as)
    (hEnd : p = 0 ∨ A ≤ p + 1) :
    (st.signals.joinPair (l, a) (l, b)).fwlinksConfiguration (l, p) = none := by
  rw [joinPair_other (.inr (by omega)) (.inr (by omega))]
  exact hStage.edges p hEnd

/-- A pair whose right adder sends to the left one. -/
theorem left_decided (hStage : Decided sig l A α β as x y st) (hOdd : as % 2 = 1)
    (hInner : as + 2 < A) (hJoin : JoinsLeft x y as) :
    Decided sig l A α β (as + 2) x (2 * as + 1)
      { (st.setParent as true).setParent (as + 1) false with
        vectorBits := between x (2 * as + 1)
        signals := st.signals.joinPair (l, as) (l, as + 1) } := by
  obtain ⟨hNonempty, hFits, hStarts, hEnds, hTight⟩ := hStage.placed
  obtain ⟨hFirst, hLast, -, -⟩ := hJoin
  refine
    { bits := rfl
      placed := ⟨hFirst, by omega, hStarts, by omega, by omega⟩
      parents := fun s => ?_
      narrow := fun _ hOdd' => ?_
      safe := fun p hOdd' => joined_safe hStage hOdd (.inl ⟨rfl, rfl⟩) hOdd'
      edges := fun p hEnd => joined_edges hStage hInner (.inl ⟨rfl, rfl⟩) (by omega) hEnd
      others := fun l' p hLevel =>
        (joinPair_other (.inl hLevel) (.inl hLevel)).trans (hStage.others l' p hLevel)
      holds := (joinPair_failed _ _).trans hStage.holds }
  · have hNow : Hits x (2 * as + 1) as := ⟨hFirst, by omega⟩
    have hNext : ¬Hits x (2 * as + 1) (as + 1) := by
      unfold Hits
      omega
    apply parents_of_pair hStage
    · simp [setParent, hNow]
    · simp [setParent, hNext]
    · intro s' hAs hNext
      simp [setParent, hAs, hNext]
    · intro s' hBelow
      unfold Hits
      omega
  · rcases Nat.lt_or_ge (x / 2) as with hBefore | hHere
    · have hNarrow := hStage.narrow hBefore hOdd'
      omega
    · omega

/-- A pair whose left adder sends to the right one. -/
theorem right_decided (hStage : Decided sig l A α β as x y st) (hOdd : as % 2 = 1)
    (hInner : as + 2 < A) (hJoin : JoinsRight x y as) :
    Decided sig l A α β (as + 2) (2 * as + 2) y
      { (st.setParent (as + 1) true).setParent as false with
        vectorBits := between (2 * as + 2) y
        signals := st.signals.joinPair (l, as + 1) (l, as) } := by
  obtain ⟨hNonempty, hFits, hStarts, hEnds, hTight⟩ := hStage.placed
  obtain ⟨hBefore, hFirst, hLast, hLonger⟩ := hJoin
  have hBehind : as + 2 ≤ β / 2 := by omega
  refine
    { bits := rfl
      placed := ⟨hLast, hFits, by omega, hEnds, by omega⟩
      parents := fun s => ?_
      narrow := fun _ hOdd' => by omega
      safe := fun p hOdd' => joined_safe hStage hOdd (.inr ⟨rfl, rfl, hBehind⟩) hOdd'
      edges := fun p hEnd => joined_edges hStage hInner (.inr ⟨rfl, rfl⟩) (by omega) hEnd
      others := fun l' p hLevel =>
        (joinPair_other (.inl hLevel) (.inl hLevel)).trans (hStage.others l' p hLevel)
      holds := (joinPair_failed _ _).trans hStage.holds }
  have hNow : ¬Hits (2 * as + 2) y as := by
    unfold Hits
    omega
  have hNext : Hits (2 * as + 2) y (as + 1) := ⟨by omega, by omega⟩
  apply parents_of_pair hStage
  · simp [setParent, hNow]
  · simp [setParent, hNext]
  · intro s' hAs hNext
    simp [setParent, hAs, hNext]
  · intro s' hBelow
    unfold Hits
    omega

/-- The pair `as`, `as + 1`. -/
theorem pair_decided (hStage : Decided sig l A α β as x y st) (hOdd : as % 2 = 1)
    (hInner : as + 2 < A) (hMs : 2 * A ≤ numMs) :
    ∃ x' y', Decided sig l A α β (as + 2) x' y' (configurePair numMs l st as) := by
  have hPlaced := hStage.placed
  rcases configurePair_eq hStage.bits hPlaced.nonempty (hPlaced.fits.trans_le hMs) hOdd with
    ⟨hJoin, hEq⟩ | ⟨hJoin, hEq⟩ | ⟨-, hApart, left, right, hLeft, hRight, hEq⟩
  · rw [hEq]
    exact ⟨_, _, left_decided hStage hOdd hInner hJoin⟩
  · rw [hEq]
    exact ⟨_, _, right_decided hStage hOdd hInner hJoin⟩
  · rw [hEq]
    exact ⟨_, _, apart_decided hStage hOdd hApart hLeft hRight⟩

theorem front_odd {n : Nat} (hOdd : n % 2 = 1) : front A n = n :=
  if_neg (by omega)

theorem front_self (A : Nat) : front A A = A :=
  if_neg (by omega)

/-- One round of the loop. -/
theorem adder_decided {n : Nat} (hA : A = 1 ∨ A % 2 = 0) (hMs : 2 * A ≤ numMs) (hn : n < A)
    (hStage : Decided sig l A α β (front A n) x y st) :
    ∃ x' y', Decided sig l A α β (front A (n + 1)) x' y' (configureAdder numMs A l st n) := by
  rw [configureAdder]
  rcases Nat.mod_two_eq_zero_or_one n with hEven | hOdd
  · rcases Nat.eq_zero_or_pos n with rfl | hPos
    · have hFront : front A 0 = 0 := if_neg (by omega)
      rw [hFront] at hStage
      rw [if_pos (.inl rfl), front_odd (by omega)]
      exact ⟨x, y, single_decided hStage (.inl rfl)⟩
    · have hFront : front A n = n + 1 := if_pos ⟨hEven, hPos, hn⟩
      rw [hFront] at hStage
      rw [if_neg (by omega), if_neg (by omega), front_odd (by omega)]
      exact ⟨x, y, hStage⟩
  · rw [front_odd hOdd] at hStage
    rcases Nat.lt_or_ge (n + 1) A with hInner | hLast
    · have hFront : front A (n + 1) = n + 2 := if_pos ⟨by omega, by omega, hInner⟩
      rw [if_neg (by omega), if_pos hOdd, hFront]
      exact pair_decided hStage hOdd (by omega) hMs
    · have hEq : n + 1 = A := by omega
      rw [if_pos (.inr hEq), hEq, front_self, ← hEq]
      exact ⟨x, y, hEq ▸ single_decided hStage (.inr hEq)⟩

theorem level_stage {n : Nat} (hA : A = 1 ∨ A % 2 = 0) (hMs : 2 * A ≤ numMs) (hn : n ≤ A)
    (hStart : Decided sig l A α β 0 x y st) :
    ∃ x' y', Decided sig l A α β (front A n) x' y'
      ((List.range n).foldl (configureAdder numMs A l) st) := by
  induction n with
  | zero =>
      have hFront : front A 0 = 0 := if_neg (by omega)
      rw [hFront]
      exact ⟨x, y, hStart⟩
  | succ n ih =>
      obtain ⟨x', y', hStage⟩ := ih (by omega)
      rw [List.range_succ, List.foldl_append]
      exact adder_decided hA hMs hn hStage

end

/-- A level keeps the pairs safe for the next neuron and passes an interval on. -/
theorem configureLevel_safe {sig : AdderSignals} {numMs l A α β x y : Nat}
    (hA : A = 1 ∨ A % 2 = 0) (hMs : 2 * A ≤ numMs) (hPlaced : Placed (2 * A) α β x y)
    (hHolds : sig.failed = false) (hSafe : ∀ p, p % 2 = 1 → PairSafe sig l p (α / 2))
    (hEdges : ∀ p, p = 0 ∨ A ≤ p + 1 → sig.fwlinksConfiguration (l, p) = none) :
    let st := configureLevel numMs A l sig (between x y)
    st.signals.failed = false ∧
      (∀ p, p % 2 = 1 → PairSafe st.signals l p (β / 2)) ∧
      (∀ p, p = 0 ∨ A ≤ p + 1 → st.signals.fwlinksConfiguration (l, p) = none) ∧
      (∀ l' p, l' ≠ l →
        st.signals.fwlinksConfiguration (l', p) = sig.fwlinksConfiguration (l', p)) ∧
      ∃ x' y', st.parentBits = between x' y' ∧ Placed A (α / 2) (β / 2) x' y' := by
  intro st
  have hStart : Decided sig l A α β 0 x y { signals := sig, vectorBits := between x y } :=
    { bits := rfl
      placed := hPlaced
      parents := fun s => rfl
      narrow := fun h => absurd h (Nat.not_lt_zero _)
      safe := fun p hOdd => hSafe p hOdd
      edges := hEdges
      others := fun _ _ _ => rfl
      holds := hHolds }
  obtain ⟨x', y', hStage⟩ := level_stage hA hMs (Nat.le_refl A) hStart
  rw [front_self] at hStage
  obtain ⟨hNonempty, hFits, hStarts, hEnds, -⟩ := hStage.placed
  refine ⟨hStage.holds, fun p hOdd => (hStage.safe p hOdd).mono ?_, hStage.edges,
    hStage.others, x' / 2, y' / 2, ?_, ?_⟩
  · split
    · exact Nat.le_refl _
    · exact hPlaced.half
  · funext s
    refine (hStage.parents s).trans ?_
    rw [Bool.eq_iff_iff, Bool.and_eq_true, decide_eq_true_iff, decide_eq_true_iff, between_iff]
    unfold Hits
    omega
  · have hNarrow := hStage.narrow (by omega)
    exact
      { nonempty := Nat.div_le_div_right hNonempty
        fits := by omega
        starts := Nat.div_le_div_right hStarts
        ends := Nat.div_le_div_right hEnds
        tight := fun hOdd hThree => by
          have hTwo := hNarrow hOdd
          omega }

/-- A level without bits changes nothing. -/
theorem configureLevel_empty (sig : AdderSignals) (numMs A l : Nat) :
    configureLevel numMs A l sig (fun _ => false) =
      { signals := sig, vectorBits := fun _ => false } := by
  have hLeft : ∀ s, leftSpan (fun _ => false) s = 0 := fun s => by
    cases s <;> simp [leftSpan]
  have hRight : ∀ s n, rightSpan (fun _ => false) s n = 0 := fun s n => by
    cases n <;> simp [rightSpan]
  have hAdder : ∀ as, configureAdder numMs A l
      { signals := sig, vectorBits := fun _ => false } as =
        { signals := sig, vectorBits := fun _ => false } := by
    intro as
    rw [configureAdder]
    split
    · simp [configureSingle, setParent]
    · split
      · simp [configurePair, configureApart, setParent, hLeft, hRight]
      · rfl
  rw [configureLevel]
  induction List.range A with
  | nil => rfl
  | cons as rest ih => rwa [List.foldl_cons, hAdder]

end LevelState

/-! ## All levels -/

open LevelState

/-- No assertion can fail for neurons that begin at the multiplier `c` or behind it, in a tree
with `L` levels. -/
structure LinksSafe (L : Nat) (sig : AdderSignals) (c : Nat) : Prop where
  holds : sig.failed = false
  pairs : ∀ l p, l < L → p % 2 = 1 → PairSafe sig l p (c / 2 ^ (L - l))
  edges : ∀ l p, l < L → p = 0 ∨ 2 ^ l ≤ p + 1 → sig.fwlinksConfiguration (l, p) = none

/-- The levels below `L` after a neuron, the levels from `L` on untouched. -/
structure LevelsDone (L : Nat) (sig sig' : AdderSignals) (c : Nat) : Prop extends
    LinksSafe L sig' c where
  others : ∀ l p, L ≤ l → sig'.fwlinksConfiguration (l, p) = sig.fwlinksConfiguration (l, p)

theorem LinksSafe.mono {L c c' : Nat} {sig : AdderSignals} (h : LinksSafe L sig c)
    (hLe : c ≤ c') : LinksSafe L sig c' where
  holds := h.holds
  pairs := fun l p hl hOdd => (h.pairs l p hl hOdd).mono (Nat.div_le_div_right hLe)
  edges := h.edges

/-- Whatever a level does besides its loop over the adders. -/
theorem LinksSafe.congr {L c : Nat} {sig sig' : AdderSignals} (h : LinksSafe L sig c)
    (hLinks : sig'.fwlinksConfiguration = sig.fwlinksConfiguration)
    (hFailed : sig'.failed = sig.failed) : LinksSafe L sig' c where
  holds := hFailed.trans h.holds
  pairs := fun l p hl hOdd => (h.pairs l p hl hOdd).congr (congrFun hLinks _) (congrFun hLinks _)
  edges := fun l p hl hEnd => (congrFun hLinks _).trans (h.edges l p hl hEnd)

section

variable {numMs L α β x y : Nat} {sig : AdderSignals}

theorem halve_div {c l : Nat} (hl : l < L) : c / 2 ^ (L + 1 - l) = c / 2 / 2 ^ (L - l) := by
  rw [Nat.div_div_eq_div_mul, Nat.succ_sub hl.le, pow_succ, Nat.mul_comm]

/-- The level below the root of a tree with `L + 1` levels: what it leaves to the levels above. -/
theorem level_done (hMs : 2 ^ (L + 1) ≤ numMs) (hPlaced : Placed (2 ^ (L + 1)) α β x y)
    (hSafe : LinksSafe (L + 1) sig α) :
    let st := configureLevel numMs (2 ^ (L + 1) / 2) L sig (between x y)
    LinksSafe L st.signals (α / 2) ∧
      (∀ p, p % 2 = 1 → PairSafe st.signals L p (β / 2)) ∧
      (∀ p, p = 0 ∨ 2 ^ L ≤ p + 1 → st.signals.fwlinksConfiguration (L, p) = none) ∧
      (∀ l p, l ≠ L →
        st.signals.fwlinksConfiguration (l, p) = sig.fwlinksConfiguration (l, p)) ∧
      ∃ x' y', st.parentBits = between x' y' ∧ Placed (2 ^ L) (α / 2) (β / 2) x' y' := by
  intro st
  have hHalf : 2 ^ (L + 1) / 2 = 2 ^ L := by
    rw [pow_succ, Nat.mul_div_cancel _ Nat.two_pos]
  have hDouble : 2 * 2 ^ L = 2 ^ (L + 1) := by rw [pow_succ, Nat.mul_comm]
  have hA : 2 ^ L = 1 ∨ 2 ^ L % 2 = 0 := by
    cases L with
    | zero => exact .inl rfl
    | succ k => exact .inr (by rw [pow_succ, Nat.mul_mod_left])
  have hPairs : ∀ p, p % 2 = 1 → PairSafe sig L p (α / 2) := by
    intro p hOdd
    have hPair := hSafe.pairs L p (Nat.lt_succ_self L) hOdd
    rwa [Nat.add_sub_cancel_left, pow_one] at hPair
  have hLevel := configureLevel_safe hA (hDouble.trans_le hMs) (hDouble ▸ hPlaced) hSafe.holds
    hPairs fun p hEnd => hSafe.edges L p (Nat.lt_succ_self L) hEnd
  rw [← hHalf] at hLevel
  obtain ⟨hHolds, hHere, hEdges, hOthers, hUp⟩ := hLevel
  refine ⟨⟨hHolds, fun l p hl hOdd => ?_, fun l p hl hEnd => ?_⟩, hHere,
    fun p hEnd => hEdges p (hHalf.symm ▸ hEnd), hOthers, hHalf ▸ hUp⟩
  · have hPair := hSafe.pairs l p (by omega) hOdd
    rw [halve_div hl] at hPair
    exact hPair.congr (hOthers l p hl.ne) (hOthers l (p + 1) hl.ne)
  · exact (hOthers l p hl.ne).trans (hSafe.edges l p (by omega) hEnd)

/-- The levels above the level `L` follow it. -/
theorem levels_done {sig' res : AdderSignals}
    (hHere : ∀ p, p % 2 = 1 → PairSafe sig' L p (β / 2))
    (hEdges : ∀ p, p = 0 ∨ 2 ^ L ≤ p + 1 → sig'.fwlinksConfiguration (L, p) = none)
    (hOthers : ∀ l p, l ≠ L →
      sig'.fwlinksConfiguration (l, p) = sig.fwlinksConfiguration (l, p))
    (hUp : LevelsDone L sig' res (β / 2)) : LevelsDone (L + 1) sig res β where
  holds := hUp.holds
  pairs := fun l p hl hOdd => by
    rcases Nat.lt_or_ge l L with hBelow | hSame
    · rw [halve_div hBelow]
      exact hUp.pairs l p hBelow hOdd
    · have hEq : l = L := by omega
      rw [hEq, Nat.add_sub_cancel_left, pow_one]
      exact (hHere p hOdd).congr (hUp.others L p (Nat.le_refl L))
        (hUp.others L (p + 1) (Nat.le_refl L))
  edges := fun l p hl hEnd => by
    rcases Nat.lt_or_ge l L with hBelow | hSame
    · exact hUp.edges l p hBelow hEnd
    · have hEq : l = L := by omega
      rw [hEq] at hEnd ⊢
      exact (hUp.others L p (Nat.le_refl L)).trans (hEdges p hEnd)
  others := fun l p hl => (hUp.others l p (by omega)).trans (hOthers l p (by omega))

theorem levels_start (hSafe : LinksSafe 0 sig α) : LevelsDone 0 sig sig β where
  holds := hSafe.holds
  pairs := fun l _ hl => absurd hl (Nat.not_lt_zero l)
  edges := fun l _ hl => absurd hl (Nat.not_lt_zero l)
  others := fun _ _ _ => rfl

/-- `CompilerART` over all levels for one neuron. -/
theorem art_levels (hMs : 2 ^ L ≤ numMs) (hPlaced : Placed (2 ^ L) α β x y)
    (hSafe : LinksSafe L sig α) :
    LevelsDone L sig (CompilerART.configureLevels numMs L (2 ^ L) (between x y) sig) β := by
  induction L generalizing sig α β x y with
  | zero => exact levels_start hSafe
  | succ L ih =>
      obtain ⟨hUp, hHere, hEdges, hOthers, x', y', hBits, hPlaced'⟩ := level_done hMs hPlaced hSafe
      rw [CompilerART.configureLevels]
      generalize configureLevel numMs (2 ^ (L + 1) / 2) L sig (between x y) = st at *
      have hHalf : 2 ^ (L + 1) / 2 = 2 ^ L := by
        rw [pow_succ, Nat.mul_div_cancel _ Nat.two_pos]
      have hLe : 2 ^ L ≤ numMs := (Nat.pow_le_pow_right Nat.two_pos (Nat.le_succ L)).trans hMs
      simp only [hBits, hHalf]
      split
      · refine levels_done ?_ ?_ ?_ (ih hLe hPlaced' (hUp.congr rfl rfl))
        · exact hHere
        · exact hEdges
        · exact hOthers
      · exact levels_done hHere hEdges hOthers (ih hLe hPlaced' hUp)

/-- `CompilerFEN` up to the level that leaves one adder. -/
theorem fen_levels (hMs : 2 ^ L ≤ numMs) (hPlaced : Placed (2 ^ L) α β x y)
    (hSafe : LinksSafe L sig α) :
    LevelsDone L sig (CompilerFEN.configureLevels numMs L (2 ^ L) (between x y) sig) β := by
  induction L generalizing sig α β x y with
  | zero => exact levels_start hSafe
  | succ L ih =>
      obtain ⟨hUp, hHere, hEdges, hOthers, x', y', hBits, hPlaced'⟩ := level_done hMs hPlaced hSafe
      rw [CompilerFEN.configureLevels]
      generalize configureLevel numMs (2 ^ (L + 1) / 2) L sig (between x y) = st at *
      have hHalf : 2 ^ (L + 1) / 2 = 2 ^ L := by
        rw [pow_succ, Nat.mul_div_cancel _ Nat.two_pos]
      have hLe : 2 ^ L ≤ numMs := (Nat.pow_le_pow_right Nat.two_pos (Nat.le_succ L)).trans hMs
      have hGrows : α / 2 ≤ β / 2 := hPlaced'.starts.trans (hPlaced'.nonempty.trans hPlaced'.ends)
      simp only [hBits, hHalf]
      split
      · refine levels_done ?_ ?_ ?_ ⟨(hUp.mono hGrows).congr rfl rfl, fun _ _ _ => rfl⟩
        · exact hHere
        · exact hEdges
        · exact hOthers
      · exact levels_done hHere hEdges hOthers (ih hLe hPlaced' hUp)

/-- A neuron without multipliers changes nothing. -/
theorem art_levels_empty (numAdders : Nat) :
    CompilerART.configureLevels numMs L numAdders (fun _ => false) sig = sig := by
  induction L generalizing numAdders with
  | zero => rfl
  | succ L ih =>
      rw [CompilerART.configureLevels, configureLevel_empty]
      simp only [bitsEnabled, List.filter_false]
      exact ih _

theorem fen_levels_empty (numAdders : Nat) :
    CompilerFEN.configureLevels numMs L numAdders (fun _ => false) sig = sig := by
  induction L generalizing numAdders with
  | zero => rfl
  | succ L ih =>
      rw [CompilerFEN.configureLevels, configureLevel_empty]
      simp only [bitsEnabled, List.filter_false]
      exact ih _

theorem neuronBits_zero (shift : Nat) : neuronBits shift 0 = fun _ => false := by
  funext j
  rw [neuronBits, decide_eq_false]
  omega

theorem neuronBits_between {shift size : Nat} (hSize : 0 < size) :
    neuronBits shift size = between shift (shift + size - 1) := by
  funext j
  rw [Bool.eq_iff_iff, between_iff, neuronBits, decide_eq_true_iff]
  omega

theorem neuron_placed {shift size n : Nat} (hSize : 0 < size) (hFits : shift + size ≤ n) :
    Placed n shift (shift + size) shift (shift + size - 1) where
  nonempty := by omega
  fits := by omega
  starts := Nat.le_refl shift
  ends := by omega
  tight := by omega

end

/-! ## All neurons -/

/-- The neurons follow each other from the multiplier `c` on. -/
def Following : Nat → List (Nat × Nat) → Prop
  | _, [] => True
  | c, neuron :: rest => neuron.1 = c ∧ Following (c + neuron.2) rest

/-- The multipliers of the neurons. -/
def msNeeded (neurons : List (Nat × Nat)) : Nat :=
  (neurons.map Prod.snd).sum

section

variable {L : Nat} {sig : AdderSignals} {shift size : Nat}

theorem art_neuron (hFits : shift + size ≤ 2 ^ L) (hSafe : LinksSafe L sig shift) :
    LinksSafe L (CompilerART.configureNeuron (2 ^ L) sig (shift, size)) (shift + size) := by
  rw [CompilerART.configureNeuron, nlevelsOf, Nat.log2_two_pow]
  rcases Nat.eq_zero_or_pos size with rfl | hSize
  · rw [neuronBits_zero, art_levels_empty]
    exact hSafe
  · rw [neuronBits_between hSize]
    exact (art_levels (Nat.le_refl _) (neuron_placed hSize hFits) hSafe).toLinksSafe

theorem fen_neuron (hFits : shift + size ≤ 2 ^ L) (hSafe : LinksSafe L sig shift) :
    LinksSafe L (CompilerFEN.configureNeuron (2 ^ L) sig (shift, size)) (shift + size) := by
  rw [CompilerFEN.configureNeuron, nlevelsOf, Nat.log2_two_pow]
  rcases Nat.eq_zero_or_pos size with rfl | hSize
  · rw [neuronBits_zero, fen_levels_empty]
    exact hSafe
  · rw [neuronBits_between hSize]
    exact (fen_levels (Nat.le_refl _) (neuron_placed hSize hFits) hSafe).toLinksSafe

/-- A compiler that keeps the links safe over each neuron keeps them safe over all. -/
theorem foldl_neurons {configure : AdderSignals → Nat × Nat → AdderSignals} {c : Nat}
    (hNeuron : ∀ sig shift size, shift + size ≤ 2 ^ L → LinksSafe L sig shift →
      LinksSafe L (configure sig (shift, size)) (shift + size))
    (neurons : List (Nat × Nat)) (hFollow : Following c neurons)
    (hFits : c + msNeeded neurons ≤ 2 ^ L) (hSafe : LinksSafe L sig c) :
    LinksSafe L (neurons.foldl configure sig) (c + msNeeded neurons) := by
  induction neurons generalizing c sig with
  | nil => exact hSafe
  | cons neuron rest ih =>
      obtain ⟨shift, size⟩ := neuron
      obtain ⟨rfl, hRest⟩ := hFollow
      have hNeeded : shift + msNeeded ((shift, size) :: rest) = shift + size + msNeeded rest := by
        simp [msNeeded, Nat.add_assoc]
      rw [hNeeded] at hFits ⊢
      rw [List.foldl_cons]
      exact ih hRest hFits (hNeuron sig shift size (by omega) hSafe)

theorem linksSafe_start (L : Nat) : LinksSafe L {} 0 where
  holds := rfl
  pairs := fun _ _ _ _ => .inl ⟨rfl, rfl⟩
  edges := fun _ _ _ _ => rfl

end

/-- `numVNs` neurons of `vnSize` multipliers each. -/
def blocks (vnSize numVNs : Nat) : List (Nat × Nat) :=
  (List.range numVNs).map fun i => (i * vnSize, vnSize)

theorem blocks_following (vnSize numVNs c : Nat) :
    Following c ((List.range numVNs).map fun i => (c + i * vnSize, vnSize)) := by
  induction numVNs generalizing c with
  | zero => trivial
  | succ n ih =>
      rw [List.range_succ_eq_map, List.map_cons, List.map_map]
      refine ⟨by simp, ?_⟩
      have hShift : ((fun i => (c + i * vnSize, vnSize)) ∘ Nat.succ) =
          fun i => (c + vnSize + i * vnSize, vnSize) := by
        funext i
        simp only [Function.comp_apply, Nat.succ_mul, Nat.add_assoc, Nat.add_comm vnSize]
      rw [hShift]
      exact ih (c + vnSize)

theorem msNeeded_blocks (vnSize numVNs : Nat) :
    msNeeded (blocks vnSize numVNs) = vnSize * numVNs := by
  simp [msNeeded, blocks, Function.comp_def, Nat.mul_comm]

theorem foldl_blocks {configure : AdderSignals → Nat × Nat → AdderSignals} {L : Nat}
    (hNeuron : ∀ sig shift size, shift + size ≤ 2 ^ L → LinksSafe L sig shift →
      LinksSafe L (configure sig (shift, size)) (shift + size))
    {vnSize numVNs : Nat} (hFits : vnSize * numVNs ≤ 2 ^ L) :
    LinksSafe L ((blocks vnSize numVNs).foldl configure {}) (vnSize * numVNs) := by
  have hFollow := blocks_following vnSize numVNs 0
  simp only [Nat.zero_add] at hFollow
  have hNeeded := msNeeded_blocks vnSize numVNs
  have hSafe := foldl_neurons hNeuron (blocks vnSize numVNs) hFollow (by omega)
    (linksSafe_start L)
  rwa [Nat.zero_add, hNeeded] at hSafe

/-- The assertions of `generate_art_signals` hold for every tile that the compiler accepts. -/
theorem generateArtSignals_holds {L : Nat} {tile : Tile}
    (hFits : tile.vnSize * tile.numVNs ≤ 2 ^ L) :
    (CompilerART.generateArtSignals (2 ^ L) tile).failed = false :=
  (foldl_blocks (fun _ _ _ => art_neuron) hFits).holds

/-- The assertions of `generate_fen_signals` hold for every tile that the compiler accepts. -/
theorem generateFenSignals_holds {L : Nat} {tile : Tile}
    (hFits : tile.vnSize * tile.numVNs ≤ 2 ^ L) :
    (CompilerFEN.generateFenSignals (2 ^ L) tile).failed = false :=
  (foldl_blocks (fun _ _ _ => fen_neuron) hFits).holds

/-! Clusters of different sizes follow each other in the same way. -/

theorem clusters_following (c : Nat) (sparseVNs : List SparseVN) :
    Following c (CompilerART.clusters c sparseVNs) := by
  induction sparseVNs generalizing c with
  | nil => trivial
  | cons vn rest ih => exact ⟨rfl, ih (c + vn.vnSize)⟩

theorem msNeeded_clusters (c : Nat) (sparseVNs : List SparseVN) :
    msNeeded (CompilerART.clusters c sparseVNs) = (sparseVNs.map (·.vnSize)).sum := by
  induction sparseVNs generalizing c with
  | nil => rfl
  | cons vn rest ih =>
      have hRest := ih (c + vn.vnSize)
      simp only [msNeeded] at hRest
      simp [msNeeded, CompilerART.clusters, hRest]

/-- The assertions of `generate_art_signals_sparse` hold for clusters that fit. -/
theorem generateArtSignalsSparse_holds {L : Nat} {sparseVNs : List SparseVN}
    (hFits : (sparseVNs.map (·.vnSize)).sum ≤ 2 ^ L) :
    (CompilerART.generateArtSignalsSparse (2 ^ L) sparseVNs).failed = false := by
  have hNeeded := msNeeded_clusters 0 sparseVNs
  have hSafe := foldl_neurons (fun _ _ _ => art_neuron) (CompilerART.clusters 0 sparseVNs)
    (clusters_following 0 sparseVNs) (by omega) (linksSafe_start L)
  exact hSafe.holds

end Stonne
