import Stonne.Tile

/-!
# The compilers of the reduction trees

`CompilerART` and `CompilerFEN` configure the adders of a tree for one virtual
neuron after the other.  A neuron is a run of bits over the multipliers.  Level by
level, from the leaves to the root, every adder with a set bit below it is entered
in the maps, and neighbours that do not share a parent may be joined by their
forwarding link.  Both compilers contain the same loop over the adders of a level;
they differ in what they do with the last adder of a neuron.

The maps are functions here, and `failed` records a failed assertion.
-/

namespace Stonne

inductive AdderConfig where
  | add21
  | add31
  | add11PlusFw11
  | fw22
  | fold
  deriving DecidableEq, Repr

inductive FlDirection where
  | receive
  | send
  | notConfigured
  deriving DecidableEq, Repr

/-- Level and number in the level of an adder switch. -/
abbrev SwitchId := Nat × Nat

/-- The maps that a compiler fills. -/
structure AdderSignals where
  switchesConfiguration : SwitchId → Option AdderConfig := fun _ => none
  fwlinksConfiguration : SwitchId → Option FlDirection := fun _ => none
  forwardingToMemoryEnabled : SwitchId → Bool := fun _ => false
  forwardingToFoldNodeEnabled : SwitchId → Bool := fun _ => false
  failed : Bool := false

namespace AdderSignals

def setSwitch (sig : AdderSignals) (id : SwitchId) (cfg : AdderConfig) : AdderSignals :=
  { sig with switchesConfiguration := Function.update sig.switchesConfiguration id (some cfg) }

def setFwlink (sig : AdderSignals) (id : SwitchId) (dir : FlDirection) : AdderSignals :=
  { sig with fwlinksConfiguration := Function.update sig.fwlinksConfiguration id (some dir) }

/-- The entry of an adder without a forwarding link. -/
def useSingle (sig : AdderSignals) (id : SwitchId) : AdderSignals :=
  if (sig.switchesConfiguration id).isSome then sig.setSwitch id .fw22
  else sig.setSwitch id .add21

/-- The entry of an adder `id` whose forwarding link is not used by this neuron.  The
assertion is about the right adder `next` of the pair. -/
def usePaired (sig : AdderSignals) (id next : SwitchId) : AdderSignals :=
  if (sig.switchesConfiguration id).isSome then
    if (sig.fwlinksConfiguration id).isSome then
      { sig.setSwitch id .add11PlusFw11 with
        failed := sig.failed || decide (sig.fwlinksConfiguration next ≠ some .send) }
    else sig.setSwitch id .fw22
  else sig.setSwitch id .add21

/-- The entries of two adders joined by their forwarding link. -/
def joinPair (sig : AdderSignals) (asReceive asSend : SwitchId) : AdderSignals :=
  let linked :=
    ((sig.setFwlink asReceive .receive).setFwlink asSend .send).setSwitch asReceive .add31
  if (linked.switchesConfiguration asSend).isSome then linked.setSwitch asSend .add11PlusFw11
  else linked.setSwitch asSend .add21

end AdderSignals

/-- The number of set bits from `s` down to the first clear one. -/
def leftSpan (bits : Nat → Bool) : Nat → Nat
  | 0 => if bits 0 then 1 else 0
  | s + 1 => if bits (s + 1) then leftSpan bits s + 1 else 0

/-- The number of set bits from `s` up to the first clear one, among `n` bits. -/
def rightSpan (bits : Nat → Bool) (s : Nat) : Nat → Nat
  | 0 => 0
  | n + 1 => if bits s then rightSpan bits (s + 1) n + 1 else 0

/-- The state of the loop over the adders of a level. -/
structure LevelState where
  signals : AdderSignals
  vectorBits : Nat → Bool
  parentBits : Nat → Bool := fun _ => false

namespace LevelState

def setParent (st : LevelState) (s : Nat) (b : Bool) : LevelState :=
  { st with parentBits := Function.update st.parentBits s b }

/-- The first and the last adder of a level, which have no forwarding link. -/
def configureSingle (l : Nat) (st : LevelState) (as : Nat) : LevelState :=
  if st.vectorBits (as * 2) || st.vectorBits (as * 2 + 1) then
    { st with signals := st.signals.useSingle (l, as) }.setParent as true
  else st.setParent as false

/-- A pair of adders whose forwarding link stays off. -/
def configureApart (l : Nat) (st : LevelState) (as left right : Nat) : LevelState :=
  let sig := if 0 < left then st.signals.usePaired (l, as) (l, as + 1) else st.signals
  { st with
    signals := if 0 < right then sig.usePaired (l, as + 1) (l, as + 1) else sig }

/-- The pair of adders `as` and `as + 1`, which share a forwarding link. -/
def configurePair (numMs l : Nat) (st : LevelState) (as : Nat) : LevelState :=
  let lastChild := as * 2 + 1
  let lastChildEnabled := if st.vectorBits lastChild then lastChild else as * 2
  let left := leftSpan st.vectorBits lastChildEnabled
  let firstChildEnabled :=
    if st.vectorBits (lastChild + 1) then lastChild + 1 else lastChild + 2
  let right := rightSpan st.vectorBits firstChildEnabled (numMs - firstChildEnabled)
  if left = 0 ∨ right = 0 then
    configureApart l ((st.setParent as (decide (0 < left))).setParent (as + 1)
      (decide (0 < right))) as left right
  else if right ≤ left then
    if st.vectorBits (lastChild + 3) || st.vectorBits (lastChild + 4) then
      configureApart l ((st.setParent as true).setParent (as + 1) true) as left right
    else
      { (st.setParent as true).setParent (as + 1) false with
        vectorBits := fun s => st.vectorBits s && decide (s < as * 2 + 2)
        signals := st.signals.joinPair (l, as) (l, as + 1) }
  else
    if st.vectorBits (lastChild - 2) || st.vectorBits (lastChild - 3) then
      configureApart l ((st.setParent as true).setParent (as + 1) true) as left right
    else
      { (st.setParent (as + 1) true).setParent as false with
        vectorBits := fun s => st.vectorBits s && decide (as * 2 + 1 < s)
        signals := st.signals.joinPair (l, as + 1) (l, as) }

/-- One round of the loop: single adders, and pairs at their left adder. -/
def configureAdder (numMs numAdders l : Nat) (st : LevelState) (as : Nat) : LevelState :=
  if as = 0 ∨ as + 1 = numAdders then configureSingle l st as
  else if as % 2 = 1 then configurePair numMs l st as
  else st

/-- The loop over the adders of level `l`. -/
def configureLevel (numMs numAdders l : Nat) (sig : AdderSignals)
    (vectorBits : Nat → Bool) : LevelState :=
  (List.range numAdders).foldl (configureAdder numMs numAdders l)
    { signals := sig, vectorBits := vectorBits }

end LevelState

/-- The adders that a level passes on to the next one. -/
def bitsEnabled (numMs : Nat) (bits : Nat → Bool) : List Nat :=
  (List.range numMs).filter bits

/-- The bits of the neuron on the multipliers `shift`, …, `shift + size - 1`. -/
def neuronBits (shift size : Nat) : Nat → Bool :=
  fun j => decide (shift ≤ j ∧ j < shift + size)

/-- `childs_enabled` says that the adder `id` sends to its parent. -/
def AdderSignals.sendsToParent (sig : AdderSignals) (id : SwitchId) : Bool :=
  match sig.switchesConfiguration id with
  | some .add31 => true
  | some .add11PlusFw11 => true
  | some .fw22 => true
  | some .add21 => (sig.fwlinksConfiguration id).isNone
  | some .fold => false
  | none => false

/-- The table of the enabled children: at the leaves from the number of multipliers in
use, above them from the configuration of the children. -/
def AdderSignals.childsEnabled (nlevels msUsed : Nat) (sig : AdderSignals)
    (id : SwitchId) : Bool × Bool :=
  if id.1 + 1 = nlevels then
    (decide (id.2 * 2 < msUsed), decide (id.2 * 2 + 1 < msUsed))
  else
    (sig.sendsToParent (id.1 + 1, id.2 * 2), sig.sendsToParent (id.1 + 1, id.2 * 2 + 1))

/-- `log10(num_ms) / log10(2)`. -/
def nlevelsOf (numMs : Nat) : Nat :=
  Nat.log2 numMs

namespace CompilerART

/-- The levels `l - 1`, …, `0` for one neuron.  A level that leaves one adder makes it
the one that sends to memory. -/
def configureLevels (numMs : Nat) : Nat → Nat → (Nat → Bool) → AdderSignals → AdderSignals
  | 0, _, _, sig => sig
  | l + 1, numAdders, vectorBits, sig =>
      let st := LevelState.configureLevel numMs (numAdders / 2) l sig vectorBits
      let marked :=
        match bitsEnabled numMs st.parentBits with
        | [last] =>
            { st.signals with
              forwardingToMemoryEnabled :=
                Function.update st.signals.forwardingToMemoryEnabled (l, last) true }
        | _ => st.signals
      configureLevels numMs l (numAdders / 2) st.parentBits marked

/-- One neuron, given by its first multiplier and its size. -/
def configureNeuron (numMs : Nat) (sig : AdderSignals) (neuron : Nat × Nat) :
    AdderSignals :=
  configureLevels numMs (nlevelsOf numMs) numMs (neuronBits neuron.1 neuron.2) sig

/-- The first multiplier and the size of every neuron of a dense tile. -/
def neurons (tile : Tile) : List (Nat × Nat) :=
  (List.range tile.numVNs).map fun i => (i * tile.vnSize, tile.vnSize)

def generateArtSignals (numMs : Nat) (tile : Tile) : AdderSignals :=
  (neurons tile).foldl (configureNeuron numMs) {}

/-- The first multiplier and the size of every cluster, starting at `shift`. -/
def clusters : Nat → List SparseVN → List (Nat × Nat)
  | _, [] => []
  | shift, vn :: rest => (shift, vn.vnSize) :: clusters (shift + vn.vnSize) rest

def generateArtSignalsSparse (numMs : Nat) (sparseVNs : List SparseVN) : AdderSignals :=
  (clusters 0 sparseVNs).foldl (configureNeuron numMs) {}

/-- The assertion of `configureSignals` about the tile. -/
def accepts (numMs : Nat) (tile : Tile) : Bool :=
  decide (tile.vnSize * tile.numVNs ≤ numMs)

def msUsed (tile : Tile) : Nat :=
  tile.numVNs * tile.vnSize

def msUsedSparse (sparseVNs : List SparseVN) : Nat :=
  sparseVNs.foldl (fun used vn => used + vn.vnSize) 0

end CompilerART

/-- How often `current_node` is odd on the way up, and the even node at the end. -/
def climbOdd (currentNode : Nat) : Nat × Nat :=
  if _h : currentNode % 2 = 1 then
    ((climbOdd (currentNode / 2)).1 + 1, (climbOdd (currentNode / 2)).2)
  else (0, currentNode)
termination_by currentNode
decreasing_by all_goals omega

namespace CompilerFEN

/-- The node that folds the results of the adder `(l, lastBitEnabled)`: its parent, the
parent of the first even node above it, or the special node. -/
def foldNode (l lastBitEnabled : Nat) : SwitchId :=
  if l = 0 then (0, 1)
  else if lastBitEnabled % 2 = 0 then (l - 1, lastBitEnabled / 2)
  else
    let climbed := climbOdd lastBitEnabled
    if l < climbed.1 + 1 then (0, 1) else (l - climbed.1 - 1, climbed.2 / 2)

/-- The levels `l - 1`, …, `0` for one neuron, up to the first one that leaves a single
adder. -/
def configureLevels (numMs : Nat) : Nat → Nat → (Nat → Bool) → AdderSignals → AdderSignals
  | 0, _, _, sig => sig
  | l + 1, numAdders, vectorBits, sig =>
      let st := LevelState.configureLevel numMs (numAdders / 2) l sig vectorBits
      match bitsEnabled numMs st.parentBits with
      | [last] =>
          { st.signals.setSwitch (foldNode l last) .fold with
            forwardingToFoldNodeEnabled :=
              Function.update st.signals.forwardingToFoldNodeEnabled (l, last) true
            forwardingToMemoryEnabled :=
              Function.update st.signals.forwardingToMemoryEnabled (foldNode l last) true }
      | _ => configureLevels numMs l (numAdders / 2) st.parentBits st.signals

def configureNeuron (numMs : Nat) (sig : AdderSignals) (neuron : Nat × Nat) :
    AdderSignals :=
  configureLevels numMs (nlevelsOf numMs) numMs (neuronBits neuron.1 neuron.2) sig

def generateFenSignals (numMs : Nat) (tile : Tile) : AdderSignals :=
  (CompilerART.neurons tile).foldl (configureNeuron numMs) {}

end CompilerFEN

end Stonne
