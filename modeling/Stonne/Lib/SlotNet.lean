import Mathlib.Data.List.Nodup
import Mathlib.Tactic

/-!
# Networks of nodes over single-slot channels

A cycle-accurate model of a synchronous machine usually visits its nodes one
after another.  Each node drains the slots it reads, changes its own state and
fills the slots it writes.  A slot has at most one reader and one writer.

When every reader is visited before the writer of the same slot, the sequential
visit has the same effect as one simultaneous step in which all nodes read the
slots as they were at the start (`sweep_eq_step`).  The ghost flag `clobbered`
records a write to a slot that was still full.
-/

namespace Dataflow

variable {ν ω σ α : Type*}

/-- Single-slot channels: what each slot holds, and whether a write ever found
it full. -/
@[ext]
structure Store (ω α : Type*) where
  content : ω → Option (List α)
  clobbered : ω → Bool

/-- What a reader obtains from a slot: nothing when it is empty. -/
def Store.recv (c : Store ω α) (w : ω) : List α :=
  (c.content w).getD []

/-- The content of a slot that was empty before `l` was sent. -/
def filled (l : List α) : Option (List α) :=
  if l ≠ [] then some l else none

@[simp]
theorem filled_nil : filled ([] : List α) = none := by
  simp [filled]

@[simp]
theorem filled_getD (l : List α) : (filled l).getD [] = l := by
  by_cases h : l = [] <;> simp [filled, h]

@[simp]
theorem filled_eq_none (l : List α) : filled l = none ↔ l = [] := by
  by_cases h : l = [] <;> simp [filled, h]

theorem Store.recv_of_filled {c : Store ω α} {w : ω} {l : List α}
    (h : c.content w = filled l) :
    c.recv w = l := by
  simp [Store.recv, h]

/-- The slots that each node reads and writes. -/
structure Wiring (ν ω : Type*) where
  ins : ν → List ω
  outs : ν → List ω

/-- The program of a node: its next state and what it sends on each slot, from
its state and what arrived on each slot.  `[]` stands for no send. -/
abbrev Program (ν ω σ α : Type*) :=
  ν → σ → (ω → List α) → σ × (ω → List α)

/-- The states of the nodes together with the slots between them. -/
@[ext]
structure Net (ν ω σ α : Type*) where
  node : ν → σ
  store : Store ω α

/-- Nodes that share no slot as readers, none as writers, and of which the first
writes nothing that the second reads. -/
def Wiring.Independent (W : Wiring ν ω) (a b : ν) : Prop :=
  a ≠ b ∧ (W.ins a).Disjoint (W.ins b) ∧ (W.outs a).Disjoint (W.outs b) ∧
    (W.outs a).Disjoint (W.ins b)

/-- `order` visits every node once, and the reader of a slot before its writer. -/
def Wiring.ReadersFirst (W : Wiring ν ω) (order : List ν) : Prop :=
  order.Pairwise W.Independent

section

variable [DecidableEq ν] [DecidableEq ω] (W : Wiring ν ω) (fire : Program ν ω σ α)

/-- What node `v` finds on the slots it reads. -/
def inbox (c : Store ω α) (v : ν) : ω → List α :=
  fun w => if w ∈ W.ins v then c.recv w else []

/-- What node `v` sends in its cycle. -/
def outbox (n : Net ν ω σ α) (v : ν) : ω → List α :=
  (fire v (n.node v) (inbox W n.store v)).2

/-- One visit to node `v`. -/
def visit (n : Net ν ω σ α) (v : ν) : Net ν ω σ α where
  node := Function.update n.node v (fire v (n.node v) (inbox W n.store v)).1
  store :=
    { content := fun w =>
        if w ∈ W.outs v ∧ outbox W fire n v w ≠ [] then some (outbox W fire n v w)
        else if w ∈ W.ins v then none
        else n.store.content w
      clobbered := fun w =>
        n.store.clobbered w ||
          decide (w ∈ W.outs v ∧ outbox W fire n v w ≠ [] ∧
            w ∉ W.ins v ∧ (n.store.content w).isSome) }

/-- Visiting the nodes of `order` one after another. -/
def sweep (order : List ν) (n : Net ν ω σ α) : Net ν ω σ α :=
  order.foldl (visit W fire) n

/-- Some node of `order` reads the slot `w`. -/
def Drained (order : List ν) (w : ω) : Prop :=
  ∃ r ∈ order, w ∈ W.ins r

instance (order : List ν) (w : ω) : Decidable (Drained W order w) :=
  inferInstanceAs (Decidable (∃ r ∈ order, w ∈ W.ins r))

/-- What the nodes of `order` send on the slot `w` when all of them start from `n`. -/
def sent (order : List ν) (n : Net ν ω σ α) (w : ω) : List α :=
  match order.find? (fun x => w ∈ W.outs x) with
  | some x => outbox W fire n x w
  | none => []

/-- The nodes of `order` take one step simultaneously. -/
def step (order : List ν) (n : Net ν ω σ α) : Net ν ω σ α where
  node := fun v =>
    if v ∈ order then (fire v (n.node v) (inbox W n.store v)).1 else n.node v
  store :=
    { content := fun w =>
        if sent W fire order n w ≠ [] then some (sent W fire order n w)
        else if Drained W order w then none
        else n.store.content w
      clobbered := fun w =>
        n.store.clobbered w ||
          decide (sent W fire order n w ≠ [] ∧ ¬Drained W order w ∧
            (n.store.content w).isSome) }

variable {W fire}

omit [DecidableEq ν] in
theorem sent_of_no_writer {order : List ν} {n : Net ν ω σ α} {w : ω}
    (h : ∀ x ∈ order, w ∉ W.outs x) :
    sent W fire order n w = [] := by
  have hFind : order.find? (fun x => w ∈ W.outs x) = none := by
    simpa [List.find?_eq_none] using h
  simp [sent, hFind]

omit [DecidableEq ν] in
theorem sent_of_writer {order : List ν} {n : Net ν ω σ α} {w : ω} {x : ν}
    (hOrder : W.ReadersFirst order) (hx : x ∈ order) (hw : w ∈ W.outs x) :
    sent W fire order n w = outbox W fire n x w := by
  induction order with
  | nil => simp at hx
  | cons v order ih =>
      obtain ⟨hHead, hTail⟩ := List.pairwise_cons.mp hOrder
      by_cases hv : w ∈ W.outs v
      · have hEq : x = v := by
          rcases List.mem_cons.mp hx with rfl | hMem
          · rfl
          · exact absurd hw ((hHead x hMem).2.2.1 hv)
        subst hEq
        simp [sent, hv]
      · have hMem : x ∈ order := by
          rcases List.mem_cons.mp hx with rfl | hMem
          · exact absurd hw hv
          · exact hMem
        simpa [sent, hv] using ih hTail hMem

omit [DecidableEq ν] in
private theorem sent_cons_of_not_mem {order : List ν} {n : Net ν ω σ α} {v : ν} {w : ω}
    (h : w ∉ W.outs v) :
    sent W fire (v :: order) n w = sent W fire order n w := by
  simp [sent, h]

/-- A node that reads nothing that `v` reads or writes has the same inbox after
`v` was visited. -/
private theorem inbox_visit {n : Net ν ω σ α} {v b : ν} (h : W.Independent v b) :
    inbox W (visit W fire n v).store b = inbox W n.store b := by
  obtain ⟨_, hIns, _, hUp⟩ := h
  funext w
  unfold inbox
  by_cases hRead : w ∈ W.ins b
  · have hWriter : w ∉ W.outs v := fun hMem => hUp hMem hRead
    have hReader : w ∉ W.ins v := fun hMem => hIns hMem hRead
    simp [hRead, Store.recv, visit, hWriter, hReader]
  · simp [hRead]

private theorem outbox_visit {n : Net ν ω σ α} {v b : ν} (h : W.Independent v b) :
    outbox W fire (visit W fire n v) b = outbox W fire n b := by
  unfold outbox
  rw [inbox_visit h]
  simp [visit, h.1.symm]

private theorem sent_visit {order : List ν} {n : Net ν ω σ α} {v : ν}
    (h : ∀ b ∈ order, W.Independent v b) (w : ω) :
    sent W fire order (visit W fire n v) w = sent W fire order n w := by
  unfold sent
  split
  · rename_i x hFind
    rw [outbox_visit (h x (List.mem_of_find?_eq_some hFind))]
  · rfl

private theorem visit_content (n : Net ν ω σ α) (v : ν) (w : ω) :
    (visit W fire n v).store.content w =
      if w ∈ W.outs v ∧ outbox W fire n v w ≠ [] then some (outbox W fire n v w)
      else if w ∈ W.ins v then none
      else n.store.content w :=
  rfl

private theorem visit_clobbered (n : Net ν ω σ α) (v : ν) (w : ω) :
    (visit W fire n v).store.clobbered w =
      (n.store.clobbered w ||
        decide (w ∈ W.outs v ∧ outbox W fire n v w ≠ [] ∧
          w ∉ W.ins v ∧ (n.store.content w).isSome)) :=
  rfl

omit [DecidableEq ν] [DecidableEq ω] in
private theorem drained_cons {order : List ν} {v : ν} {w : ω} :
    Drained W (v :: order) w ↔ w ∈ W.ins v ∨ Drained W order w := by
  simp [Drained]

/-- Visiting one more node in front of a simultaneous step. -/
private theorem step_visit {order : List ν} {n : Net ν ω σ α} {v : ν}
    (h : ∀ b ∈ order, W.Independent v b) :
    step W fire order (visit W fire n v) = step W fire (v :: order) n := by
  have hFresh : v ∉ order := fun hMem => (h v hMem).1 rfl
  have hNode : (step W fire order (visit W fire n v)).node =
      (step W fire (v :: order) n).node := by
    funext u
    by_cases hu : u = v
    · subst hu
      simp [step, visit, hFresh]
    · by_cases hMem : u ∈ order
      · simp only [step, hMem, if_true, List.mem_cons, or_true]
        rw [inbox_visit (h u hMem)]
        simp [visit, hu]
      · simp [step, visit, hu, hMem]
  have hSlot : ∀ w,
      (step W fire order (visit W fire n v)).store.content w =
          (step W fire (v :: order) n).store.content w ∧
        (step W fire order (visit W fire n v)).store.clobbered w =
          (step W fire (v :: order) n).store.clobbered w := by
    intro w
    by_cases hWriter : w ∈ W.outs v
    · -- `v` writes `w`, so nobody visited after `v` reads or writes it
      have hNotDrained : ¬Drained W order w := by
        rintro ⟨r, hr, hReader⟩
        exact (h r hr).2.2.2 hWriter hReader
      have hNone : sent W fire order (visit W fire n v) w = [] :=
        sent_of_no_writer fun x hx hMem => (h x hx).2.2.1 hWriter hMem
      have hSent : sent W fire (v :: order) n w = outbox W fire n v w := by
        simp [sent, hWriter]
      constructor
      · simp [step, hNone, hSent, hNotDrained, visit_content, hWriter, drained_cons]
      · simp [step, hNone, hSent, hNotDrained, visit_clobbered, hWriter, drained_cons]
    · have hSent : sent W fire order (visit W fire n v) w =
          sent W fire (v :: order) n w := by
        rw [sent_visit h, sent_cons_of_not_mem hWriter]
      by_cases hReader : w ∈ W.ins v
      · constructor
        · simp [step, hSent, visit_content, hWriter, hReader, drained_cons]
        · simp [step, hSent, visit_content, visit_clobbered, hWriter, hReader,
            drained_cons]
      · constructor
        · simp [step, hSent, visit_content, hWriter, hReader, drained_cons]
        · simp [step, hSent, visit_content, visit_clobbered, hWriter, hReader,
            drained_cons]
  exact Net.ext hNode
    (Store.ext (funext fun w => (hSlot w).1) (funext fun w => (hSlot w).2))

/-- A sequential sweep that visits readers first is one simultaneous step. -/
theorem sweep_eq_step {order : List ν} (hOrder : W.ReadersFirst order)
    (n : Net ν ω σ α) :
    sweep W fire order n = step W fire order n := by
  induction order generalizing n with
  | nil => simp [sweep, step, sent, Drained]
  | cons v order ih =>
      obtain ⟨hHead, hTail⟩ := List.pairwise_cons.mp hOrder
      have hRest : sweep W fire (v :: order) n =
          sweep W fire order (visit W fire n v) := rfl
      rw [hRest, ih hTail, step_visit hHead]

/-! ## What a simultaneous step leaves -/

theorem step_node {order : List ν} {v : ν} (n : Net ν ω σ α) (hv : v ∈ order) :
    (step W fire order n).node v = (fire v (n.node v) (inbox W n.store v)).1 := by
  simp [step, hv]

theorem step_node_of_not_mem {order : List ν} {v : ν} (n : Net ν ω σ α)
    (hv : v ∉ order) :
    (step W fire order n).node v = n.node v := by
  simp [step, hv]

/-- A slot that is both written and drained holds what was sent. -/
theorem step_content_of_writer {order : List ν} {n : Net ν ω σ α} {w : ω} {x : ν}
    (hOrder : W.ReadersFirst order) (hx : x ∈ order) (hw : w ∈ W.outs x)
    (hEmpty : Drained W order w ∨ n.store.content w = none) :
    (step W fire order n).store.content w = filled (outbox W fire n x w) := by
  simp only [step, filled]
  rw [sent_of_writer hOrder hx hw]
  split
  · rfl
  · rcases hEmpty with hDrained | hNone
    · simp [hDrained]
    · simp [hNone]

theorem step_content_of_no_writer {order : List ν} {n : Net ν ω σ α} {w : ω}
    (h : ∀ x ∈ order, w ∉ W.outs x) :
    (step W fire order n).store.content w =
      if Drained W order w then none else n.store.content w := by
  simp [step, sent_of_no_writer h]

/-- Nothing is clobbered when every slot that is written was drained or empty. -/
theorem step_clobbered {order : List ν} {n : Net ν ω σ α} {w : ω}
    (hOrder : W.ReadersFirst order)
    (h : ∀ x ∈ order, w ∈ W.outs x → outbox W fire n x w ≠ [] →
      Drained W order w ∨ n.store.content w = none) :
    (step W fire order n).store.clobbered w = n.store.clobbered w := by
  simp only [step, Bool.or_eq_left_iff_imp, decide_eq_true_eq]
  rintro ⟨hSent, hNotDrained, hSome⟩
  have hWriter : ∃ x ∈ order, w ∈ W.outs x := by
    by_contra hNone
    simp only [not_exists, not_and] at hNone
    exact hSent (sent_of_no_writer hNone)
  obtain ⟨x, hx, hw⟩ := hWriter
  rw [sent_of_writer hOrder hx hw] at hSent
  rcases h x hx hw hSent with hDrained | hEmpty
  · exact absurd hDrained hNotDrained
  · simp [hEmpty] at hSome

end

end Dataflow
