import Stonne.Accumulator

/-!
# The processing element of the systolic mesh

`MultiplierOS::cycle` takes the activation on its left and the weight on its top
connection into fifos, multiplies the oldest pair once both fifos hold something,
and passes the operands on to the right and to the bottom when it is configured
to.  The product goes to the accumulator of the element.

The model adds a log of the operands since the last `resetSignals`: the pairs that
were popped together, what was sent to the right and to the bottom, and what
arrived on either side.  No component reads the log.
-/

namespace Stonne

open Dataflow

/-- What happened to an element since its last reset. -/
structure MultiplierOS.Log where
  /-- Activation and weight of each pair, in the order of the multiplications. -/
  popped : List (DataPackage × DataPackage) := []
  sentRight : List DataPackage := []
  sentBottom : List DataPackage := []
  receivedLeft : List DataPackage := []
  receivedTop : List DataPackage := []

structure MultiplierOS where
  topFifo : Fifo := []
  bottomFifo : Fifo := []
  rightFifo : Fifo := []
  leftFifo : Fifo := []
  accbufferFifo : Fifo := []
  forwardRight : Bool := false
  forwardBottom : Bool := false
  vn : Nat := 0
  /-- One of the assertions of `receive` has failed. -/
  failed : Bool := false
  log : MultiplierOS.Log := {}

/-- The five connections of an element. -/
structure MultiplierOS.Links (ω : Type*) where
  left : ω
  top : ω
  right : ω
  bottom : ω
  accbuffer : ω

namespace MultiplierOS

def resetSignals (ms : MultiplierOS) : MultiplierOS :=
  { ms with
    forwardRight := false
    forwardBottom := false
    vn := 0
    leftFifo := []
    rightFifo := []
    topFifo := []
    bottomFifo := []
    log := {} }

def configureBottomSignal (ms : MultiplierOS) (bottomSignal : Bool) : MultiplierOS :=
  { ms with forwardBottom := bottomSignal }

def configureRightSignal (ms : MultiplierOS) (rightSignal : Bool) : MultiplierOS :=
  { ms with forwardRight := rightSignal }

def setVirtualNeuron (ms : MultiplierOS) (vn : Nat) : MultiplierOS :=
  { ms with vn := vn }

/-- The packages of the left connection are pushed; there must be one, an
activation. -/
def receiveLeft (ms : MultiplierOS) (pcks : List DataPackage) : MultiplierOS :=
  { ms with
    leftFifo := ms.leftFifo ++ pcks
    failed := ms.failed || pcks.any (fun pck => pck.dataType != .iactivation) ||
      decide (1 < pcks.length)
    log := { ms.log with receivedLeft := ms.log.receivedLeft ++ pcks } }

/-- The packages of the top connection are pushed; there must be one, a weight. -/
def receiveTop (ms : MultiplierOS) (pcks : List DataPackage) : MultiplierOS :=
  { ms with
    topFifo := ms.topFifo ++ pcks
    failed := ms.failed || pcks.any (fun pck => pck.dataType != .weight) ||
      decide (1 < pcks.length)
    log := { ms.log with receivedTop := ms.log.receivedTop ++ pcks } }

def performOperation2Operands (ms : MultiplierOS) (left right : DataPackage) :
    DataPackage :=
  psumPackage ms.vn (left.data * right.data)

/-- The multiplication and the forwarding of one pair. -/
def multiply (ms : MultiplierOS) : MultiplierOS :=
  match ms.leftFifo, ms.topFifo with
  | activation :: leftRest, weight :: topRest =>
      { ms with
        leftFifo := leftRest
        topFifo := topRest
        accbufferFifo :=
          ms.accbufferFifo ++ [ms.performOperation2Operands activation weight]
        rightFifo :=
          if ms.forwardRight then ms.rightFifo ++ [activation] else ms.rightFifo
        bottomFifo :=
          if ms.forwardBottom then ms.bottomFifo ++ [weight] else ms.bottomFifo
        log := { ms.log with popped := ms.log.popped ++ [(activation, weight)] } }
  | _, _ => ms

/-- Both fifos hold an operand. -/
def ready (ms : MultiplierOS) : Bool :=
  !ms.leftFifo.isEmpty && !ms.topFifo.isEmpty

/-- The element after `send` emptied its output fifos. -/
def drainOutputs (ms : MultiplierOS) : MultiplierOS :=
  { ms with
    bottomFifo := []
    rightFifo := []
    accbufferFifo := []
    log := { ms.log with
      sentRight := ms.log.sentRight ++ ms.rightFifo
      sentBottom := ms.log.sentBottom ++ ms.bottomFifo } }

section

variable {ω : Type*} [DecidableEq ω]

def send (ms : MultiplierOS) (links : Links ω) (conns : Connections ω) :
    MultiplierOS × Connections ω :=
  (ms.drainOutputs,
    ((conns.sendAll links.bottom ms.bottomFifo).sendAll links.right ms.rightFifo).sendAll
      links.accbuffer ms.accbufferFifo)

def receive (ms : MultiplierOS) (links : Links ω) (conns : Connections ω) :
    MultiplierOS × Connections ω :=
  let left := conns.receive links.left
  let top := left.2.receive links.top
  ((ms.receiveLeft left.1).receiveTop top.1, top.2)

def cycle (ms : MultiplierOS) (links : Links ω) (conns : Connections ω) :
    MultiplierOS × Connections ω :=
  let received := ms.receive links conns
  if received.1.ready then received.1.multiply.send links received.2 else received

end

/-- What an element sends in a cycle. -/
structure Output where
  right : List DataPackage := []
  bottom : List DataPackage := []
  accbuffer : List DataPackage := []

/-- The cycle without its connections, from the packages that arrived. -/
def fire (ms : MultiplierOS) (left top : List DataPackage) : MultiplierOS × Output :=
  let received := (ms.receiveLeft left).receiveTop top
  if received.ready then
    (received.multiply.drainOutputs,
      { right := received.multiply.rightFifo
        bottom := received.multiply.bottomFifo
        accbuffer := received.multiply.accbufferFifo })
  else (received, {})

/-- What the element puts on the connection `w`. -/
def Output.on {ω : Type*} [DecidableEq ω] (out : Output) (links : Links ω) (w : ω) :
    List DataPackage :=
  if w = links.right then out.right
  else if w = links.bottom then out.bottom
  else out.accbuffer

/-- The links of an element are five different connections. -/
structure Links.Separate {ω : Type*} (links : Links ω) : Prop where
  top_left : links.top ≠ links.left
  right_left : links.right ≠ links.left
  right_top : links.right ≠ links.top
  bottom_left : links.bottom ≠ links.left
  bottom_top : links.bottom ≠ links.top
  bottom_right : links.bottom ≠ links.right
  accbuffer_left : links.accbuffer ≠ links.left
  accbuffer_top : links.accbuffer ≠ links.top
  accbuffer_right : links.accbuffer ≠ links.right
  accbuffer_bottom : links.accbuffer ≠ links.bottom

section

variable {ω : Type*} [DecidableEq ω] {links : Links ω}

private theorem receive_top_fst (h : links.Separate) (conns : Connections ω) :
    ((conns.receive links.left).2.receive links.top).1 =
      conns.store.recv links.top := by
  rw [Connections.receive_fst]
  simp [Store.recv, Connections.store, Connections.content_receive, h.top_left]

private theorem receive_eq (h : links.Separate) (ms : MultiplierOS)
    (conns : Connections ω) :
    (ms.receive links conns).1 =
      (ms.receiveLeft (conns.store.recv links.left)).receiveTop
        (conns.store.recv links.top) := by
  simp only [receive, receive_top_fst h, Connections.receive_fst]

theorem cycle_fst (h : links.Separate) (ms : MultiplierOS) (conns : Connections ω) :
    (ms.cycle links conns).1 =
      (ms.fire (conns.store.recv links.left) (conns.store.recv links.top)).1 := by
  simp only [cycle, fire]
  rw [receive_eq h]
  split
  · rfl
  · exact receive_eq h ms conns

/-- The connections after a cycle: both inputs drained, the outputs sent. -/
theorem cycle_snd (h : links.Separate) (ms : MultiplierOS) (conns : Connections ω) :
    let out := (ms.fire (conns.store.recv links.left) (conns.store.recv links.top)).2
    (ms.cycle links conns).2 =
      ((((ms.receive links conns).2.sendAll links.bottom out.bottom).sendAll
        links.right out.right).sendAll links.accbuffer out.accbuffer) := by
  simp only [cycle, fire]
  rw [receive_eq h]
  split
  · rfl
  · simp [Connections.sendAll]

private theorem content_received (ms : MultiplierOS) (conns : Connections ω) (w : ω) :
    ((ms.receive links conns).2 w).content =
      if w = links.left ∨ w = links.top then none else (conns w).content := by
  simp only [receive, Connections.content_receive]
  by_cases hTop : w = links.top
  · simp [hTop]
  · simp [hTop]

private theorem overwritten_received (ms : MultiplierOS) (conns : Connections ω) (w : ω) :
    ((ms.receive links conns).2 w).overwritten = (conns w).overwritten := by
  simp only [receive, Connections.overwritten_receive]

theorem content_cycle (h : links.Separate) (ms : MultiplierOS) (conns : Connections ω)
    (w : ω) :
    let out := (ms.fire (conns.store.recv links.left) (conns.store.recv links.top)).2
    ((ms.cycle links conns).2 w).content =
      if w ∈ [links.right, links.bottom, links.accbuffer] ∧ out.on links w ≠ [] then
        some (out.on links w)
      else if w ∈ [links.left, links.top] then none
      else (conns w).content := by
  simp only [cycle_snd h, Connections.content_sendAll, content_received]
  rcases h with ⟨_, _, _, _, _, hBottomRight, _, _, hAccRight, hAccBottom⟩
  by_cases hRight : w = links.right
  · subst hRight
    simp [Output.on, hBottomRight.symm, hAccRight.symm]
  · by_cases hBottom : w = links.bottom
    · subst hBottom
      simp [Output.on, hBottomRight, hAccBottom.symm]
    · by_cases hAcc : w = links.accbuffer
      · subst hAcc
        simp [Output.on, hAccRight, hAccBottom]
      · simp [hRight, hBottom, hAcc]

theorem overwritten_cycle (h : links.Separate) (ms : MultiplierOS)
    (conns : Connections ω) (w : ω) :
    let out := (ms.fire (conns.store.recv links.left) (conns.store.recv links.top)).2
    ((ms.cycle links conns).2 w).overwritten =
      ((conns w).overwritten ||
        decide (w ∈ [links.right, links.bottom, links.accbuffer] ∧
          out.on links w ≠ [] ∧ w ∉ [links.left, links.top] ∧
          (conns w).content.isSome)) := by
  simp only [cycle_snd h, Connections.overwritten_sendAll, Connections.content_sendAll,
    content_received, overwritten_received]
  rcases h with ⟨_, _, _, _, _, hBottomRight, _, _, hAccRight, hAccBottom⟩
  by_cases hInput : w = links.left ∨ w = links.top
  · by_cases hRight : w = links.right
    · subst hRight
      simp_all
    · by_cases hBottom : w = links.bottom
      · subst hBottom
        simp_all
      · simp_all
  · by_cases hRight : w = links.right
    · subst hRight
      simp [Output.on, hBottomRight.symm, hAccRight.symm, hInput]
    · by_cases hBottom : w = links.bottom
      · subst hBottom
        simp [Output.on, hBottomRight, hAccBottom.symm, hInput]
      · by_cases hAcc : w = links.accbuffer
        · subst hAcc
          simp [Output.on, hAccRight, hAccBottom, hInput]
        · simp [hRight, hBottom, hAcc]

end

/-! ## What a cycle sends -/

@[simp]
theorem multiply_forwardRight (ms : MultiplierOS) :
    ms.multiply.forwardRight = ms.forwardRight := by
  unfold multiply
  split <;> rfl

@[simp]
theorem multiply_forwardBottom (ms : MultiplierOS) :
    ms.multiply.forwardBottom = ms.forwardBottom := by
  unfold multiply
  split <;> rfl

private theorem multiply_rightFifo {ms : MultiplierOS} (h : ms.forwardRight = false) :
    ms.multiply.rightFifo = ms.rightFifo := by
  unfold multiply
  split
  · simp [h]
  · rfl

private theorem multiply_bottomFifo {ms : MultiplierOS} (h : ms.forwardBottom = false) :
    ms.multiply.bottomFifo = ms.bottomFifo := by
  unfold multiply
  split
  · simp [h]
  · rfl

theorem fire_forwardRight (ms : MultiplierOS) (left top : List DataPackage) :
    (ms.fire left top).1.forwardRight = ms.forwardRight := by
  unfold fire
  simp only
  split
  · simp [drainOutputs, receiveTop, receiveLeft]
  · rfl

theorem fire_forwardBottom (ms : MultiplierOS) (left top : List DataPackage) :
    (ms.fire left top).1.forwardBottom = ms.forwardBottom := by
  unfold fire
  simp only
  split
  · simp [drainOutputs, receiveTop, receiveLeft]
  · rfl

/-- An element that is not told to forward to the right sends nothing there. -/
theorem fire_right_of_not_forward {ms : MultiplierOS} (hFifo : ms.rightFifo = [])
    (h : ms.forwardRight = false) (left top : List DataPackage) :
    (ms.fire left top).2.right = [] := by
  unfold fire
  simp only
  split
  · have hKept : ((ms.receiveLeft left).receiveTop top).multiply.rightFifo = ms.rightFifo :=
      multiply_rightFifo h
    exact hKept.trans hFifo
  · rfl

theorem fire_bottom_of_not_forward {ms : MultiplierOS} (hFifo : ms.bottomFifo = [])
    (h : ms.forwardBottom = false) (left top : List DataPackage) :
    (ms.fire left top).2.bottom = [] := by
  unfold fire
  simp only
  split
  · have hKept : ((ms.receiveLeft left).receiveTop top).multiply.bottomFifo = ms.bottomFifo :=
      multiply_bottomFifo h
    exact hKept.trans hFifo
  · rfl

theorem fire_rightFifo {ms : MultiplierOS} (h : ms.rightFifo = [])
    (left top : List DataPackage) :
    (ms.fire left top).1.rightFifo = [] := by
  unfold fire
  simp only
  split
  · rfl
  · exact h

theorem fire_bottomFifo {ms : MultiplierOS} (h : ms.bottomFifo = [])
    (left top : List DataPackage) :
    (ms.fire left top).1.bottomFifo = [] := by
  unfold fire
  simp only
  split
  · rfl
  · exact h

/-! ## Operand streams -/

/-- The element that got the first `l` activations of the stream `a` and the first
`t` weights of the stream `b`, and multiplied the first `n` pairs. -/
def streaming (a b : Nat → DataPackage) (forwardRight forwardBottom : Bool) (vn l t n : Nat) :
    MultiplierOS where
  leftFifo := seg a n l
  topFifo := seg b n t
  forwardRight := forwardRight
  forwardBottom := forwardBottom
  vn := vn
  log :=
    { popped := seg (fun k => (a k, b k)) 0 n
      sentRight := if forwardRight then seg a 0 n else []
      sentBottom := if forwardBottom then seg b 0 n else []
      receivedLeft := seg a 0 l
      receivedTop := seg b 0 t }

section

variable {a b : Nat → DataPackage} {forwardRight forwardBottom : Bool} {vn l l' t t' n : Nat}

private theorem seg_types {f : Nat → DataPackage} {operand : Operand}
    (h : ∀ k, (f k).dataType = operand) (x y : Nat) :
    (seg f x y).any (fun pck => pck.dataType != operand) = false := by
  simp [seg, h]

/-- More operands of the streams arrive, at most one on either side. -/
private theorem streaming_receive (ha : ∀ k, (a k).dataType = .iactivation)
    (hb : ∀ k, (b k).dataType = .weight) (hn : n ≤ l) (hn' : n ≤ t)
    (hl : l ≤ l') (hl' : l' ≤ l + 1) (ht : t ≤ t') (ht' : t' ≤ t + 1) :
    ((streaming a b forwardRight forwardBottom vn l t n).receiveLeft (seg a l l')).receiveTop
        (seg b t t') =
      streaming a b forwardRight forwardBottom vn l' t' n := by
  have hLeft : ¬1 < l' - l := by omega
  have hTop : ¬1 < t' - t := by omega
  simp [receiveLeft, receiveTop, streaming, seg_types ha, seg_types hb, hLeft, hTop,
    seg_append a hn hl, seg_append b hn' ht, seg_append a (Nat.zero_le l) hl,
    seg_append b (Nat.zero_le t) ht]

/-- A pair is multiplied as soon as both of its operands are there. -/
private theorem streaming_multiply (hl : n < l) (ht : n < t) :
    (streaming a b forwardRight forwardBottom vn l t n).multiply =
      { streaming a b forwardRight forwardBottom vn l t (n + 1) with
        rightFifo := if forwardRight then [a n] else []
        bottomFifo := if forwardBottom then [b n] else []
        accbufferFifo := [psumPackage vn ((a n).data * (b n).data)]
        log :=
          { popped := seg (fun k => (a k, b k)) 0 (n + 1)
            sentRight := if forwardRight then seg a 0 n else []
            sentBottom := if forwardBottom then seg b 0 n else []
            receivedLeft := seg a 0 l
            receivedTop := seg b 0 t } } := by
  simp [multiply, streaming, seg_cons a hl, seg_cons b ht, performOperation2Operands,
    seg_succ _ (Nat.zero_le n)]

/-- The number of pairs after a cycle in which `l` activations and `t` weights have
arrived. -/
def nextPair (l t n : Nat) : Nat :=
  if n < l ∧ n < t then n + 1 else n

/-- One cycle of an element fed with streams: whatever the skew between the two
sides, the next pair consists of the next activation and the next weight. -/
theorem fire_streaming (ha : ∀ k, (a k).dataType = .iactivation)
    (hb : ∀ k, (b k).dataType = .weight) (hn : n ≤ l) (hn' : n ≤ t)
    (hl : l ≤ l') (hl' : l' ≤ l + 1) (ht : t ≤ t') (ht' : t' ≤ t + 1) :
    (streaming a b forwardRight forwardBottom vn l t n).fire (seg a l l') (seg b t t') =
      (streaming a b forwardRight forwardBottom vn l' t' (nextPair l' t' n),
        { right := if forwardRight then seg a n (nextPair l' t' n) else []
          bottom := if forwardBottom then seg b n (nextPair l' t' n) else []
          accbuffer :=
            seg (fun k => psumPackage vn ((a k).data * (b k).data)) n
              (nextPair l' t' n) }) := by
  unfold fire
  simp only [streaming_receive ha hb hn hn' hl hl' ht ht']
  by_cases hReady : n < l' ∧ n < t'
  · have hBoth : (streaming a b forwardRight forwardBottom vn l' t' n).ready = true := by
      simp [ready, streaming, seg_eq_nil_iff, hReady]
    have hNext : nextPair l' t' n = n + 1 := by simp [nextPair, hReady]
    simp only [hBoth, if_true, streaming_multiply hReady.1 hReady.2, hNext]
    cases forwardRight <;> cases forwardBottom <;>
      simp [drainOutputs, streaming, seg_singleton, seg_succ _ (Nat.zero_le n)]
  · have hNot : (streaming a b forwardRight forwardBottom vn l' t' n).ready = false := by
      have hSide : l' ≤ n ∨ t' ≤ n := by omega
      rcases hSide with h | h
      · simp [ready, streaming, seg_of_le a h]
      · simp [ready, streaming, seg_of_le b h]
    have hNext : nextPair l' t' n = n := by simp [nextPair, hReady]
    simp [hNot, hNext]

/-- What a reset does not clear is empty. -/
structure Settled (ms : MultiplierOS) : Prop where
  accbufferFifo : ms.accbufferFifo = []
  failed : ms.failed = false

/-- No operand is left in an element. -/
structure Drained (ms : MultiplierOS) : Prop where
  leftFifo : ms.leftFifo = []
  topFifo : ms.topFifo = []
  rightFifo : ms.rightFifo = []
  bottomFifo : ms.bottomFifo = []

/-- A settled element that is reset and configured stands at the start of its streams. -/
theorem Settled.configured {ms : MultiplierOS} (h : ms.Settled)
    (a b : Nat → DataPackage) (forwardRight forwardBottom : Bool) (vn : Nat) :
    ((ms.resetSignals.configureBottomSignal forwardBottom).configureRightSignal
        forwardRight).setVirtualNeuron vn =
      streaming a b forwardRight forwardBottom vn 0 0 0 := by
  simp [resetSignals, configureBottomSignal, configureRightSignal, setVirtualNeuron,
    streaming, h.accbufferFifo, h.failed]

/-- A cycle without arrivals changes nothing in an element that holds no operands. -/
theorem fire_idle : ({} : MultiplierOS).fire [] [] = ({}, {}) := by
  rfl

end

end MultiplierOS

end Stonne
