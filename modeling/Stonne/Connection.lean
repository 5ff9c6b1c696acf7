import Stonne.Lib.SlotNet

/-!
# Packages, fifos and connections

A `DataPackage` carries the fields that the modelled components read.  A fifo is
the list of its packages, oldest first; the source never bounds it.

A `Connection` is a single slot.  `send` replaces what the slot holds: the check
that it is free is an assertion compiled only under `DEBUG`.  The model keeps the
outcome of that check in `overwritten`, which no component reads.
-/

namespace Stonne

open Dataflow

inductive Operand where
  | weight
  | iactivation
  | oactivation
  | psum
  deriving DecidableEq, Repr

/-- Destination of a package in the distribution network. -/
inductive Traffic where
  | broadcast
  | multicast (dests : List Bool)
  | unicast (dest : Nat)
  deriving DecidableEq, Repr

structure DataPackage where
  data : Int
  dataType : Operand
  vn : Nat := 0
  traffic : Traffic := .unicast 0
  iterationK : Nat := 0
  deriving DecidableEq, Repr

abbrev Fifo := List DataPackage

structure Connection where
  data : List DataPackage := []
  pendingData : Bool := false
  /-- `send` was called while data was pending. -/
  overwritten : Bool := false
  deriving DecidableEq, Repr

namespace Connection

def existPendingData (c : Connection) : Bool :=
  c.pendingData

def send (c : Connection) (data : List DataPackage) : Connection :=
  { data := data
    pendingData := true
    overwritten := c.overwritten || c.pendingData }

def receive (c : Connection) : List DataPackage × Connection :=
  if c.pendingData then (c.data, { c with pendingData := false })
  else ([], { c with data := [], pendingData := false })

/-- What a reader can still take from the connection. -/
def content (c : Connection) : Option (List DataPackage) :=
  if c.pendingData then some c.data else none

@[simp]
theorem content_send (c : Connection) (data : List DataPackage) :
    (c.send data).content = some data := by
  simp [send, content]

@[simp]
theorem overwritten_send (c : Connection) (data : List DataPackage) :
    (c.send data).overwritten = (c.overwritten || c.content.isSome) := by
  cases h : c.pendingData <;> simp [send, content, h]

@[simp]
theorem receive_fst (c : Connection) :
    c.receive.1 = c.content.getD [] := by
  cases h : c.pendingData <;> simp [receive, content, h]

@[simp]
theorem content_receive (c : Connection) :
    c.receive.2.content = none := by
  cases h : c.pendingData <;> simp [receive, content, h]

@[simp]
theorem overwritten_receive (c : Connection) :
    c.receive.2.overwritten = c.overwritten := by
  cases h : c.pendingData <;> simp [receive, h]

theorem existPendingData_eq (c : Connection) :
    c.existPendingData = c.content.isSome := by
  cases h : c.pendingData <;> simp [existPendingData, content, h]

end Connection

section

variable {ω : Type*} [DecidableEq ω]

/-- The connections of a machine, by the name of the wire. -/
structure Connections (ω : Type*) where
  link : ω → Connection

instance {ω : Type*} : CoeFun (Connections ω) fun _ => ω → Connection :=
  ⟨Connections.link⟩

namespace Connections

/-- Connections that never carried anything. -/
def idle {ω : Type*} : Connections ω :=
  ⟨fun _ => {}⟩

def set (conns : Connections ω) (w : ω) (c : Connection) : Connections ω :=
  ⟨Function.update conns.link w c⟩

@[simp]
theorem set_self (conns : Connections ω) (w : ω) (c : Connection) :
    conns.set w c w = c := by
  simp [set]

@[simp]
theorem set_of_ne (conns : Connections ω) {w w' : ω} (h : w' ≠ w) (c : Connection) :
    conns.set w c w' = conns w' := by
  simp [set, h]

def send (conns : Connections ω) (w : ω) (data : List DataPackage) : Connections ω :=
  conns.set w ((conns w).send data)

/-- `existPendingData` followed by `receive`, the way every component takes the
packages of a connection. -/
def receive (conns : Connections ω) (w : ω) : List DataPackage × Connections ω :=
  if (conns w).existPendingData then
    ((conns w).receive.1, conns.set w (conns w).receive.2)
  else ([], conns)

/-- Sending the packages collected by a component: nothing happens without any. -/
def sendAll (conns : Connections ω) (w : ω) (data : List DataPackage) :
    Connections ω :=
  if data.isEmpty then conns else conns.send w data

/-- The slots of the connections, without the stale data of drained ones. -/
def store (conns : Connections ω) : Store ω DataPackage where
  content w := (conns w).content
  clobbered w := (conns w).overwritten

theorem receive_fst (conns : Connections ω) (w : ω) :
    (conns.receive w).1 = conns.store.recv w := by
  unfold receive
  split
  · simp [store, Store.recv]
  · rename_i h
    have hNone : (conns w).content = none := by
      rw [Connection.existPendingData_eq] at h
      simpa using h
    simp [store, Store.recv, hNone]

theorem content_receive (conns : Connections ω) (w w' : ω) :
    ((conns.receive w).2 w').content =
      if w' = w then none else (conns w').content := by
  unfold receive
  split
  · by_cases hw : w' = w
    · subst hw
      simp
    · simp [hw]
  · rename_i h
    rw [Connection.existPendingData_eq] at h
    by_cases hw : w' = w
    · subst hw
      simpa using h
    · simp [hw]

theorem overwritten_receive (conns : Connections ω) (w w' : ω) :
    ((conns.receive w).2 w').overwritten = (conns w').overwritten := by
  unfold receive
  split
  · by_cases hw : w' = w
    · subst hw
      simp
    · simp [hw]
  · rfl

theorem content_sendAll (conns : Connections ω) (w w' : ω) (data : List DataPackage) :
    ((conns.sendAll w data) w').content =
      if w' = w ∧ data ≠ [] then some data else (conns w').content := by
  unfold sendAll
  by_cases hData : data = []
  · simp [hData]
  · by_cases hw : w' = w
    · subst hw
      simp [hData, send]
    · simp [hData, send, hw]

theorem overwritten_sendAll (conns : Connections ω) (w w' : ω)
    (data : List DataPackage) :
    ((conns.sendAll w data) w').overwritten =
      ((conns w').overwritten ||
        decide (w' = w ∧ data ≠ [] ∧ (conns w').content.isSome)) := by
  unfold sendAll
  by_cases hData : data = []
  · simp [hData]
  · by_cases hw : w' = w
    · subst hw
      simp [hData, send]
    · simp [hData, send, hw]

end Connections

/-- The states of a table of components together with the connections, as a
network of nodes over slots. -/
def toNet {ν σ : Type*} (st : (ν → σ) × Connections ω) : Net ν ω σ DataPackage where
  node := st.1
  store := st.2.store

/-- A component cycle is a visit when it leaves its own next state and, on every
connection, what a visit leaves there. -/
theorem toNet_eq_visit {ν σ : Type*} [DecidableEq ν] {W : Wiring ν ω}
    {fire : Program ν ω σ DataPackage} {tab : ν → σ} {conns conns' : Connections ω}
    {v : ν} {s : σ}
    (hState : s = (fire v (tab v) (inbox W conns.store v)).1)
    (hContent : ∀ w, (conns' w).content =
      if w ∈ W.outs v ∧ outbox W fire (toNet (tab, conns)) v w ≠ [] then
        some (outbox W fire (toNet (tab, conns)) v w)
      else if w ∈ W.ins v then none
      else (conns w).content)
    (hOverwritten : ∀ w, (conns' w).overwritten =
      ((conns w).overwritten ||
        decide (w ∈ W.outs v ∧ outbox W fire (toNet (tab, conns)) v w ≠ [] ∧
          w ∉ W.ins v ∧ (conns w).content.isSome))) :
    toNet (Function.update tab v s, conns') = visit W fire (toNet (tab, conns)) v := by
  have hStore : conns'.store = (visit W fire (toNet (tab, conns)) v).store :=
    Store.ext (funext hContent) (funext hOverwritten)
  subst hState
  exact Net.ext rfl hStore


end

end Stonne
