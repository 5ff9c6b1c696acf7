import Stonne.Reduction.Compiler
import Stonne.Reduction.FoldConfig

/-!
# The adders of the reduction tree

`ASwitch::cycle` takes the packages of its children and of its forwarding link into fifos, routes
them as its mode says, and sends what it has to its parent, to memory or over the forwarding
link.  `ASNetwork::cycle` goes through the adders from the root to the leaves; of two adders that
are joined the receiver comes first.

`failed` records a failed assertion.  A package for a forwarding link that does not send goes
nowhere, since the assertion before it has failed.
-/

namespace Stonne

open Dataflow

/-- The signals of an adder. -/
structure ASwitchConfig where
  configMode : AdderConfig := .add21
  fwEnabled : Bool := false
  flDirection : FlDirection := .notConfigured
  leftChildEnabled : Bool := false
  rightChildEnabled : Bool := false
  forwardToMemory : Bool := false
  deriving DecidableEq, Repr

namespace ASwitchConfig

def receives (cfg : ASwitchConfig) : Bool :=
  cfg.fwEnabled && cfg.flDirection = .receive

def sends (cfg : ASwitchConfig) : Bool :=
  cfg.fwEnabled && cfg.flDirection = .send

end ASwitchConfig

structure ASwitch where
  inputPsumLeftFifo : Fifo := []
  inputPsumRightFifo : Fifo := []
  inputFwFifo : Fifo := []
  outputPsumFifo : Fifo := []
  outputFwFifo : Fifo := []
  operationMode : AdderOperation := .adder
  /-- An assertion has failed. -/
  failed : Bool := false
  deriving DecidableEq, Repr

namespace ASwitch

def assert (s : ASwitch) (b : Bool) : ASwitch :=
  { s with failed := s.failed || !b }

def receiveChilds (s : ASwitch) (left right : List DataPackage) : ASwitch :=
  { s with
    inputPsumLeftFifo := s.inputPsumLeftFifo ++ left
    inputPsumRightFifo := s.inputPsumRightFifo ++ right }

def receiveFwlink (cfg : ASwitchConfig) (s : ASwitch) (fw : List DataPackage) : ASwitch :=
  if cfg.receives && !fw.isEmpty then
    { s.assert (fw.length = 1) with inputFwFifo := s.inputFwFifo ++ fw }
  else s

def performOperation2Operands (s : ASwitch) (left right : DataPackage) : DataPackage :=
  match s.operationMode with
  | .adder => psumPackage left.vn (left.data + right.data)
  | .comparator =>
    psumPackage left.vn (if left.data > right.data then left.data else right.data)

/-- The result for the parent or, if the link is enabled, for the neighbour. -/
def pushResult (cfg : ASwitchConfig) (s : ASwitch) (pck : DataPackage) : ASwitch :=
  if cfg.fwEnabled then { s with outputFwFifo := s.outputFwFifo ++ [pck] }
  else { s with outputPsumFifo := s.outputPsumFifo ++ [pck] }

/-- A package of the left child passes if there is no right child. -/
def passLeft (cfg : ASwitchConfig) (s : ASwitch) : ASwitch :=
  match s.inputPsumLeftFifo, s.inputPsumRightFifo with
  | pckReceived :: rest, [] =>
      if cfg.rightChildEnabled then s
      else pushResult cfg { s with inputPsumLeftFifo := rest } pckReceived
  | _, _ => s

def passRight (cfg : ASwitchConfig) (s : ASwitch) : ASwitch :=
  match s.inputPsumLeftFifo, s.inputPsumRightFifo with
  | [], pckReceived :: rest =>
      if cfg.leftChildEnabled then s
      else pushResult cfg { s with inputPsumRightFifo := rest } pckReceived
  | _, _ => s

def addBoth (cfg : ASwitchConfig) (s : ASwitch) : ASwitch :=
  match s.inputPsumLeftFifo, s.inputPsumRightFifo with
  | pckLeft :: left, pckRight :: right =>
      pushResult cfg
        ({ s with inputPsumLeftFifo := left, inputPsumRightFifo := right }.assert
          (cfg.leftChildEnabled && cfg.rightChildEnabled && pckLeft.vn = pckRight.vn))
        (s.performOperation2Operands pckLeft pckRight)
  | _, _ => s

def route21Config (cfg : ASwitchConfig) (s : ASwitch) : ASwitch :=
  addBoth cfg (passRight cfg (passLeft cfg s))

def performOperation3Operands (pckLeft pckRight pckForward : DataPackage) : DataPackage :=
  psumPackage pckLeft.vn (pckLeft.data + pckRight.data + pckForward.data)

/-- A 3:1 adder does not compare. -/
def route31Config (cfg : ASwitchConfig) (s : ASwitch) : ASwitch :=
  let s := s.assert (cfg.leftChildEnabled && cfg.rightChildEnabled && cfg.receives)
  match s.inputPsumLeftFifo, s.inputPsumRightFifo, s.inputFwFifo with
  | pckLeft :: left, pckRight :: right, pckForward :: forward =>
      { s.assert (pckLeft.vn = pckRight.vn && pckRight.vn = pckForward.vn &&
          s.operationMode = .adder) with
        inputPsumLeftFifo := left
        inputPsumRightFifo := right
        inputFwFifo := forward
        outputPsumFifo :=
          s.outputPsumFifo ++ [performOperation3Operands pckLeft pckRight pckForward] }
  | _, _, _ => s

/-- The left child feeds the forwarding link of an even adder. -/
def route11PlusFw11Left (numInLevel : Nat) (s : ASwitch) : ASwitch :=
  match s.inputPsumLeftFifo with
  | [] => s
  | pckLeft :: rest =>
      if numInLevel % 2 = 0 then
        { s with inputPsumLeftFifo := rest, outputFwFifo := s.outputFwFifo ++ [pckLeft] }
      else { s with inputPsumLeftFifo := rest, outputPsumFifo := s.outputPsumFifo ++ [pckLeft] }

/-- The right child feeds the forwarding link of an odd adder.  The right package of an even one
must not belong to the first neuron. -/
def route11PlusFw11Right (numInLevel : Nat) (s : ASwitch) : ASwitch :=
  match s.inputPsumRightFifo with
  | [] => s
  | pckRight :: rest =>
      if numInLevel % 2 = 0 then
        { s.assert (pckRight.vn ≠ 0) with
          inputPsumRightFifo := rest
          outputPsumFifo := s.outputPsumFifo ++ [pckRight] }
      else { s with inputPsumRightFifo := rest, outputFwFifo := s.outputFwFifo ++ [pckRight] }

def route11PlusFw11Config (cfg : ASwitchConfig) (numInLevel : Nat) (s : ASwitch) : ASwitch :=
  route11PlusFw11Right numInLevel
    (route11PlusFw11Left numInLevel (s.assert (cfg.leftChildEnabled && cfg.rightChildEnabled)))

def routeFw22Config (s : ASwitch) : ASwitch :=
  { s with
    inputPsumLeftFifo := []
    inputPsumRightFifo := []
    outputPsumFifo := s.outputPsumFifo ++ s.inputPsumLeftFifo ++ s.inputPsumRightFifo }

def route (cfg : ASwitchConfig) (numInLevel : Nat) (s : ASwitch) : ASwitch :=
  match cfg.configMode with
  | .add21 => route21Config cfg s
  | .add31 => route31Config cfg s
  | .add11PlusFw11 => route11PlusFw11Config cfg numInLevel s
  | .fw22 => routeFw22Config s
  | .fold => s.assert false

/-- What an adder sends in a cycle. -/
structure Output where
  fw : List DataPackage
  psum : List DataPackage
  deriving DecidableEq, Repr

def send (cfg : ASwitchConfig) (s : ASwitch) : ASwitch × Output :=
  ({ s.assert (s.outputFwFifo.isEmpty || cfg.sends) with outputFwFifo := [], outputPsumFifo := [] },
    { fw := if cfg.sends then s.outputFwFifo else []
      psum := s.outputPsumFifo })

/-- A cycle with these packages on the connections. -/
def fire (cfg : ASwitchConfig) (numInLevel : Nat) (s : ASwitch)
    (left right fw : List DataPackage) : ASwitch × Output :=
  send cfg (route cfg numInLevel (receiveFwlink cfg (s.receiveChilds left right) fw))

/-- The connections of an adder. -/
structure Links (ω : Type*) where
  left : ω
  right : ω
  forwarding : ω
  parent : ω
  memory : ω

/-- Where the sums go. -/
def Links.out {ω : Type*} (links : Links ω) (cfg : ASwitchConfig) : ω :=
  if cfg.forwardToMemory then links.memory else links.parent

section

variable {ω : Type*} [DecidableEq ω]

def cycle (cfg : ASwitchConfig) (numInLevel : Nat) (links : Links ω) (s : ASwitch)
    (conns : Connections ω) : ASwitch × Connections ω :=
  let left := conns.receive links.left
  let right := left.2.receive links.right
  let fw := if cfg.receives then right.2.receive links.forwarding else ([], right.2)
  let result := fire cfg numInLevel s left.1 right.1 fw.1
  (result.1, (fw.2.sendAll links.forwarding result.2.fw).sendAll (links.out cfg) result.2.psum)

end

end ASwitch

/-- The connections of a reduction tree: the input connections of a level, numbered from left to
right, the forwarding links, named by their right adder, and those to memory. -/
inductive ReduceWire where
  | input (l c : Nat)
  | forwarding (l j : Nat)
  | memory (l j : Nat)
  | output
  deriving DecidableEq, Repr

/-- The reduction tree with its signals. -/
structure ASNetwork where
  nlevels : Nat
  config : SwitchId → ASwitchConfig

namespace ASNetwork

/-- The right adder of the pair to which `j` belongs. -/
def pairRight (j : Nat) : Nat :=
  if j % 2 = 1 then j + 1 else j

def links (id : SwitchId) : ASwitch.Links ReduceWire where
  left := .input id.1 (id.2 * 2)
  right := .input id.1 (id.2 * 2 + 1)
  forwarding := .forwarding id.1 (pairRight id.2)
  parent := if id.1 = 0 then .output else .input (id.1 - 1) id.2
  memory := .memory id.1 id.2

/-- The adders of level `i` from `j` on, `n` of them, as the loop goes through them. -/
def levelOrder (config : SwitchId → ASwitchConfig) (i : Nat) : Nat → Nat → List SwitchId
  | 0, _ => []
  | 1, j =>
      if (config (i, j)).fwEnabled then
        if (config (i, j)).flDirection = .send then [(i, j + 1), (i, j)]
        else [(i, j), (i, j + 1)]
      else [(i, j)]
  | n + 2, j =>
      if (config (i, j)).fwEnabled then
        if (config (i, j)).flDirection = .send then
          (i, j + 1) :: (i, j) :: levelOrder config i n (j + 2)
        else (i, j) :: (i, j + 1) :: levelOrder config i n (j + 2)
      else (i, j) :: levelOrder config i (n + 1) (j + 1)

/-- The adders in the order of a cycle. -/
def cycleOrder (net : ASNetwork) : List SwitchId :=
  (0, 0) :: (List.range' 1 (net.nlevels - 1)).flatMap fun i => levelOrder net.config i (2 ^ i) 0

def cycleSwitch (net : ASNetwork) (st : (SwitchId → ASwitch) × Connections ReduceWire)
    (id : SwitchId) : (SwitchId → ASwitch) × Connections ReduceWire :=
  let result := ASwitch.cycle (net.config id) id.2 (links id) (st.1 id) st.2
  (Function.update st.1 id result.1, result.2)

def cycle (net : ASNetwork) (st : (SwitchId → ASwitch) × Connections ReduceWire) :
    (SwitchId → ASwitch) × Connections ReduceWire :=
  net.cycleOrder.foldl net.cycleSwitch st

end ASNetwork

/-- The signals that the maps of a compiler give an adder. -/
def AdderSignals.switchConfig (nlevels msUsed : Nat) (sig : AdderSignals) (id : SwitchId) :
    ASwitchConfig where
  configMode := (sig.switchesConfiguration id).getD .add21
  fwEnabled := (sig.fwlinksConfiguration id).isSome
  flDirection := (sig.fwlinksConfiguration id).getD .notConfigured
  leftChildEnabled := (sig.childsEnabled nlevels msUsed id).1
  rightChildEnabled := (sig.childsEnabled nlevels msUsed id).2
  forwardToMemory := sig.forwardingToMemoryEnabled id

/-- `ASNetwork::configureSignals`: the maps of the compiler for a dense tile. -/
def ASNetwork.configureSignals (numMs : Nat) (tile : Tile) : ASNetwork where
  nlevels := nlevelsOf numMs
  config := (CompilerART.generateArtSignals numMs tile).switchConfig (nlevelsOf numMs)
    (CompilerART.msUsed tile)

/-- `ASNetwork::configureSparseSignals`: those for clusters. -/
def ASNetwork.configureSparseSignals (numMs : Nat) (sparseVNs : List SparseVN) : ASNetwork where
  nlevels := nlevelsOf numMs
  config := (CompilerART.generateArtSignalsSparse numMs sparseVNs).switchConfig
    (nlevelsOf numMs) (CompilerART.msUsedSparse sparseVNs)

end Stonne
