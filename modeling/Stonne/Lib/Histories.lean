import Stonne.Lib.SlotNet

/-!
# Histories of a network

The history of a slot is what has been sent on it, and what has been received from it.  A relation
between the state of a node and its own histories that every firing keeps holds in every run of
the network, if what a node receives is as its senders promise.
-/

namespace Dataflow

variable {ν ω σ α : Type*}

/-- Everything that has been received from a slot and sent on it. -/
structure History (ω α : Type*) where
  received : ω → List α
  sent : ω → List α

section

variable [DecidableEq ν] [DecidableEq ω] (W : Wiring ν ω) (fire : Program ν ω σ α)
  (order : List ν)

/-- The histories after a step. -/
def History.step (h : History ω α) (n : Net ν ω σ α) : History ω α where
  received w := if Drained W order w then h.received w ++ n.store.recv w else h.received w
  sent w := h.sent w ++ Dataflow.sent W fire order n w

/-- Packages from outside on slots that are empty. -/
def Store.supply (c : Store ω α) (arrivals : ω → List α) : Store ω α where
  content w := if arrivals w ≠ [] then some (arrivals w) else c.content w
  clobbered w := c.clobbered w || decide (arrivals w ≠ [] ∧ (c.content w).isSome)

def History.supply (h : History ω α) (arrivals : ω → List α) : History ω α :=
  { h with sent := fun w => h.sent w ++ arrivals w }

/-- What somebody outside takes from some slots. -/
def Store.take (c : Store ω α) (taken : ω → Bool) : Store ω α :=
  { c with content := fun w => if taken w then none else c.content w }

def History.take (h : History ω α) (c : Store ω α) (taken : ω → Bool) : History ω α :=
  { h with received := fun w => if taken w then h.received w ++ c.recv w else h.received w }

/-- A relation between the state of a node and its histories that holds of the histories of its
own slots only, and what it says about the slots that the node writes: `Sound` of all that is ever
sent on a slot, and `Fits` of what is sent at once. -/
structure Contract (Rel : ν → σ → History ω α → Prop) (Sound Fits : ω → List α → Prop) :
    Prop where
  congr : ∀ {v s h h'}, (∀ w ∈ W.ins v, h'.received w = h.received w) →
    (∀ w ∈ W.outs v, h'.sent w = h.sent w) → Rel v s h → Rel v s h'
  fire : ∀ {v s h h'} {arrived : ω → List α}, v ∈ order → Rel v s h →
    (∀ w ∈ W.ins v, h'.received w = h.received w ++ arrived w) →
    (∀ w ∈ W.outs v, h'.sent w = h.sent w ++ (fire v s arrived).2 w) →
    (∀ w ∉ W.ins v, arrived w = []) →
    (∀ w ∈ W.ins v, Sound w (h'.received w)) → (∀ w ∈ W.ins v, Fits w (arrived w)) →
    Rel v (fire v s arrived).1 h' ∧ ∀ w ∈ W.outs v, Fits w ((fire v s arrived).2 w)
  sound : ∀ {v s h}, v ∈ order → Rel v s h → ∀ w ∈ W.outs v, Sound w (h.sent w)
  nothing : ∀ w, Fits w []

/-- What holds of a network and its histories. -/
structure Keeps (Rel : ν → σ → History ω α → Prop) (Sound Fits : ω → List α → Prop)
    (n : Net ν ω σ α) (h : History ω α) : Prop where
  queued : ∀ w, h.sent w = h.received w ++ n.store.recv w
  related : ∀ v ∈ order, Rel v (n.node v) h
  sound : ∀ w, Sound w (h.sent w)
  fits : ∀ w, Fits w (n.store.recv w)

variable {W fire order} {Rel : ν → σ → History ω α → Prop} {Sound Fits : ω → List α → Prop}
  {n : Net ν ω σ α} {h : History ω α}

omit [DecidableEq ν] in
theorem History.step_received {v : ν} {w : ω} (hv : v ∈ order) (hw : w ∈ W.ins v) :
    (h.step W fire order n).received w = h.received w ++ inbox W n.store v w := by
  rw [inbox, if_pos hw]
  exact if_pos ⟨v, hv, hw⟩

omit [DecidableEq ν] in
theorem History.step_sent {v : ν} {w : ω} (hOrder : W.ReadersFirst order) (hv : v ∈ order)
    (hw : w ∈ W.outs v) : (h.step W fire order n).sent w =
      h.sent w ++ (fire v (n.node v) (inbox W n.store v)).2 w := by
  change h.sent w ++ Dataflow.sent W fire order n w = _
  rw [sent_of_writer hOrder hv hw]
  rfl

omit [DecidableEq ν] in
/-- A node that reads a slot has then received everything that was sent on it. -/
theorem Keeps.step_received (hKeeps : Keeps order Rel Sound Fits n h) {v : ν} {w : ω}
    (hv : v ∈ order)
    (hw : w ∈ W.ins v) : (h.step W fire order n).received w = h.sent w := by
  rw [History.step_received hv hw, inbox, if_pos hw, ← hKeeps.queued w]

/-- Every step keeps the contracts of the nodes. -/
theorem Keeps.step (hKeeps : Keeps order Rel Sound Fits n h)
    (hContract : Contract W fire order Rel Sound Fits) (hOrder : W.ReadersFirst order)
    (hEmpty : ∀ v ∈ order, ∀ w ∈ W.outs v, Drained W order w ∨ n.store.content w = none) :
    Keeps order Rel Sound Fits (Dataflow.step W fire order n) (h.step W fire order n) := by
  have hFired : ∀ v ∈ order,
      Rel v (fire v (n.node v) (inbox W n.store v)).1 (h.step W fire order n) ∧
        ∀ w ∈ W.outs v, Fits w (outbox W fire n v w) := by
    intro v hv
    refine hContract.fire hv (hKeeps.related v hv) (fun w hw => History.step_received hv hw)
      (fun w hw => History.step_sent hOrder hv hw) (fun w hw => if_neg hw) (fun w hw => ?_)
      fun w hw => ?_
    · rw [hKeeps.step_received hv hw]
      exact hKeeps.sound w
    · rw [inbox, if_pos hw]
      exact hKeeps.fits w
  have hRelated : ∀ v ∈ order,
      Rel v ((Dataflow.step W fire order n).node v) (h.step W fire order n) := by
    intro v hv
    rw [step_node n hv]
    exact (hFired v hv).1
  have hWriter : ∀ w, (∃ v ∈ order, w ∈ W.outs v) ∨ Dataflow.sent W fire order n w = [] := by
    intro w
    by_cases hSome : ∃ v ∈ order, w ∈ W.outs v
    · exact .inl hSome
    · exact .inr (sent_of_no_writer fun x hx hw => hSome ⟨x, hx, hw⟩)
  refine ⟨fun w => ?_, hRelated, fun w => ?_, fun w => ?_⟩
  · have hQueued := hKeeps.queued w
    have hWriter := hWriter w
    simp only [History.step, Dataflow.step, Store.recv] at hQueued ⊢
    generalize Dataflow.sent W fire order n w = now at *
    by_cases hDrained : Drained W order w
    · rw [if_pos hDrained, hQueued]
      by_cases hNow : now = []
      · rw [if_neg (not_not.mpr hNow), if_pos hDrained, hNow]
        rfl
      · rw [if_pos hNow, Option.getD_some]
    · rw [if_neg hDrained, hQueued]
      rcases hWriter with ⟨v, hv, hw⟩ | hNone
      · rw [(hEmpty v hv w hw).resolve_left hDrained, Option.getD_none, List.append_nil]
        by_cases hNow : now = []
        · rw [if_neg (not_not.mpr hNow), if_neg hDrained, hNow, Option.getD_none]
        · rw [if_pos hNow, Option.getD_some]
      · rw [hNone, if_neg (not_not.mpr rfl), if_neg hDrained, List.append_nil]
  · rcases hWriter w with ⟨v, hv, hw⟩ | hNone
    · exact hContract.sound hv (hRelated v hv) w hw
    · change Sound w (h.sent w ++ Dataflow.sent W fire order n w)
      rw [hNone, List.append_nil]
      exact hKeeps.sound w
  · have hNow : Fits w (Dataflow.sent W fire order n w) := by
      rcases hWriter w with ⟨v, hv, hw⟩ | hNone
      · rw [sent_of_writer hOrder hv hw]
        exact (hFired v hv).2 w hw
      · rw [hNone]
        exact hContract.nothing w
    have hBefore := hKeeps.fits w
    simp only [Dataflow.step, Store.recv] at hBefore ⊢
    split_ifs
    · exact hNow
    · exact hContract.nothing w
    · exact hBefore

omit [DecidableEq ν] [DecidableEq ω] in
/-- Packages from outside keep the contracts if they are as the readers expect. -/
theorem Keeps.supply (hKeeps : Keeps order Rel Sound Fits n h)
    (hContract : Contract W fire order Rel Sound Fits) {arrivals : ω → List α}
    (hEmpty : ∀ w, arrivals w ≠ [] → n.store.content w = none)
    (hOutside : ∀ v ∈ order, ∀ w ∈ W.outs v, arrivals w = [])
    (hSound : ∀ w, Sound w (h.sent w ++ arrivals w)) (hFits : ∀ w, Fits w (arrivals w)) :
    Keeps order Rel Sound Fits { n with store := n.store.supply arrivals } (h.supply arrivals) := by
  refine ⟨fun w => ?_, fun v hv => ?_, hSound, fun w => ?_⟩
  · have hQueued := hKeeps.queued w
    simp only [History.supply, Store.supply, Store.recv] at hQueued ⊢
    by_cases hNone : arrivals w = []
    · rw [if_neg (not_not.mpr hNone), hNone, List.append_nil, hQueued]
    · rw [if_pos hNone, hQueued, hEmpty w hNone, Option.getD_none, List.append_nil,
        Option.getD_some]
  · refine hContract.congr (h := h) (fun _ _ => rfl) (fun w hw => ?_) (hKeeps.related v hv)
    change h.sent w ++ arrivals w = h.sent w
    rw [hOutside v hv w hw, List.append_nil]
  · have hBefore := hKeeps.fits w
    simp only [Store.supply, Store.recv] at hBefore ⊢
    split_ifs
    · exact hFits w
    · exact hBefore

omit [DecidableEq ν] [DecidableEq ω] in
/-- Taking packages from slots that no node reads keeps the contracts. -/
theorem Keeps.take (hKeeps : Keeps order Rel Sound Fits n h)
    (hContract : Contract W fire order Rel Sound Fits) {taken : ω → Bool}
    (hOutside : ∀ v ∈ order, ∀ w ∈ W.ins v, taken w = false) :
    Keeps order Rel Sound Fits { n with store := n.store.take taken } (h.take n.store taken) := by
  refine ⟨fun w => ?_, fun v hv => ?_, hKeeps.sound, fun w => ?_⟩
  · have hQueued := hKeeps.queued w
    simp only [History.take, Store.take, Store.recv] at hQueued ⊢
    by_cases hTaken : taken w = true
    · rw [if_pos hTaken, if_pos hTaken, Option.getD_none, List.append_nil, hQueued]
    · rw [if_neg hTaken, if_neg hTaken, hQueued]
  · refine hContract.congr (h := h) (fun w hw => ?_) (fun _ _ => rfl) (hKeeps.related v hv)
    exact if_neg (by simp [hOutside v hv w hw])
  · have hBefore := hKeeps.fits w
    simp only [Store.take, Store.recv] at hBefore ⊢
    split_ifs
    · exact hContract.nothing w
    · exact hBefore

/-! ## Rounds -/

/-- A network after its outlets have been read. -/
def Net.take (n : Net ν ω σ α) (outlet : ω → Bool) : Net ν ω σ α :=
  { n with store := n.store.take outlet }

variable (W fire order) in
/-- A round: what stands on the outlets is taken, the nodes step, and packages come from outside. -/
def Net.round (outlet : ω → Bool) (arrivals : ω → List α) (n : Net ν ω σ α) : Net ν ω σ α :=
  let stepped := Dataflow.step W fire order (n.take outlet)
  { stepped with store := stepped.store.supply arrivals }

variable (W fire order) in
/-- The histories after a round. -/
def History.round (outlet : ω → Bool) (arrivals : ω → List α) (n : Net ν ω σ α)
    (h : History ω α) : History ω α :=
  ((h.take n.store outlet).step W fire order (n.take outlet)).supply arrivals

/-- Where packages leave and enter a network: no node reads an outlet, every slot that is written
is an outlet or is read, and the slots for packages from outside are read and not written. -/
structure Border (W : Wiring ν ω) (order : List ν) (outlet : ω → Bool) (inlet : ω → Prop) :
    Prop where
  unread : ∀ v ∈ order, ∀ w ∈ W.ins v, outlet w = false
  closed : ∀ v ∈ order, ∀ w ∈ W.outs v, Drained W order w ∨ outlet w = true
  read : ∀ w, inlet w → Drained W order w
  unwritten : ∀ w, inlet w → ∀ v ∈ order, w ∉ W.outs v

variable {outlet : ω → Bool} {inlet : ω → Prop} {arrivals : ω → List α}

omit [DecidableEq ν] in
/-- Taking from the outlets leaves the nodes what they read. -/
theorem Border.inbox_take (hBorder : Border W order outlet inlet) {v : ν} (hv : v ∈ order)
    (c : Store ω α) : inbox W (c.take outlet) v = inbox W c v := by
  funext w
  unfold inbox
  split
  · rename_i hw
    simp only [Store.take, Store.recv, hBorder.unread v hv w hw, Bool.false_eq_true, if_false]
  · rfl

theorem Net.round_node_of_not_mem {v : ν} (hv : v ∉ order) :
    (n.round W fire order outlet arrivals).node v = n.node v :=
  step_node_of_not_mem (n.take outlet) hv

omit [DecidableEq ν] in
/-- A node reads what stood on its slots. -/
theorem Border.round_received (hBorder : Border W order outlet inlet) {v : ν} {w : ω}
    (hv : v ∈ order) (hw : w ∈ W.ins v) :
    (h.round W fire order outlet arrivals n).received w =
      h.received w ++ inbox W n.store v w := by
  have hReceived : ((h.take n.store outlet).step W fire order (n.take outlet)).received w =
      (h.take n.store outlet).received w ++ inbox W (n.store.take outlet) v w :=
    History.step_received hv hw
  rw [hBorder.inbox_take hv] at hReceived
  refine hReceived.trans (congrArg (· ++ _) (if_neg ?_))
  rw [hBorder.unread v hv w hw]
  exact Bool.false_ne_true

omit [DecidableEq ν] in
/-- What leaves the network is what was sent on its outlets. -/
theorem Keeps.round_taken (hKeeps : Keeps order Rel Sound Fits n h)
    (hBorder : Border W order outlet inlet) {w : ω} (hw : outlet w = true) :
    (h.round W fire order outlet arrivals n).received w = h.sent w := by
  have hNot : ¬Drained W order w := by
    rintro ⟨v, hv, hRead⟩
    rw [hBorder.unread v hv w hRead] at hw
    cases hw
  change (if Drained W order w then _ else (h.take n.store outlet).received w) = _
  rw [if_neg hNot, hKeeps.queued w]
  exact if_pos hw

omit [DecidableEq ν] in
theorem Border.round_sent (hBorder : Border W order outlet inlet) (hOrder : W.ReadersFirst order)
    (hInlet : ∀ w, arrivals w ≠ [] → inlet w) {v : ν} {w : ω} (hv : v ∈ order)
    (hw : w ∈ W.outs v) : (h.round W fire order outlet arrivals n).sent w =
      h.sent w ++ (fire v (n.node v) (inbox W n.store v)).2 w := by
  have hNone : arrivals w = [] := by
    by_contra hSome
    exact hBorder.unwritten w (hInlet w hSome) v hv hw
  have hSent : ((h.take n.store outlet).step W fire order (n.take outlet)).sent w =
      h.sent w ++ (fire v (n.node v) (inbox W (n.store.take outlet) v)).2 w :=
    History.step_sent hOrder hv hw
  rw [hBorder.inbox_take hv] at hSent
  change _ ++ arrivals w = _
  rw [hNone, List.append_nil]
  exact hSent

omit [DecidableEq ν] in
theorem Border.round_supplied (hBorder : Border W order outlet inlet) {w : ω} (hw : inlet w) :
    (h.round W fire order outlet arrivals n).sent w = h.sent w ++ arrivals w := by
  change h.sent w ++ Dataflow.sent W fire order _ w ++ arrivals w = _
  rw [sent_of_no_writer (hBorder.unwritten w hw), List.append_nil]

omit [DecidableEq ν] [DecidableEq ω] in
/-- Every slot that is written is empty by then. -/
theorem Border.empty (hBorder : Border W order outlet inlet) {v : ν} {w : ω} (hv : v ∈ order)
    (hw : w ∈ W.outs v) : Drained W order w ∨ (n.store.take outlet).content w = none :=
  (hBorder.closed v hv w hw).imp_right fun hOutlet => if_pos hOutlet

theorem Border.free (hBorder : Border W order outlet inlet) {w : ω} (hw : inlet w) :
    (Dataflow.step W fire order (n.take outlet)).store.content w = none := by
  rw [step_content_of_no_writer (hBorder.unwritten w hw), if_pos (hBorder.read w hw)]

/-- No package is overwritten in a round. -/
theorem Border.round_clobbered (hBorder : Border W order outlet inlet)
    (hOrder : W.ReadersFirst order) (hInlet : ∀ w, arrivals w ≠ [] → inlet w) (w : ω) :
    (n.round W fire order outlet arrivals).store.clobbered w = n.store.clobbered w := by
  have hStep : (Dataflow.step W fire order (n.take outlet)).store.clobbered w =
      (n.take outlet).store.clobbered w :=
    step_clobbered hOrder fun v hv hw _ => hBorder.empty hv hw
  have hSupply : decide (arrivals w ≠ [] ∧ ((Dataflow.step W fire order
      (n.take outlet)).store.content w).isSome) = false := by
    rw [decide_eq_false_iff_not]
    rintro ⟨hSome, hContent⟩
    rw [hBorder.free (hInlet w hSome)] at hContent
    cases hContent
  change ((Dataflow.step W fire order _).store.clobbered w || _) = _
  rw [hSupply, Bool.or_false, hStep]
  rfl

/-- Every round keeps the contracts of the nodes. -/
theorem Keeps.round (hKeeps : Keeps order Rel Sound Fits n h)
    (hContract : Contract W fire order Rel Sound Fits) (hOrder : W.ReadersFirst order)
    (hBorder : Border W order outlet inlet) (hInlet : ∀ w, arrivals w ≠ [] → inlet w)
    (hSound : ∀ w, inlet w → Sound w (h.sent w ++ arrivals w))
    (hFits : ∀ w, inlet w → Fits w (arrivals w)) :
    Keeps order Rel Sound Fits (n.round W fire order outlet arrivals)
      (h.round W fire order outlet arrivals n) := by
  have hStepped := (hKeeps.take hContract hBorder.unread).step hContract hOrder
    fun v hv w hw => hBorder.empty hv hw
  refine hStepped.supply hContract (fun w hSome => hBorder.free (hInlet w hSome))
    (fun v hv w hw => ?_) (fun w => ?_) fun w => ?_
  · by_contra hSome
    exact hBorder.unwritten w (hInlet w hSome) v hv hw
  · by_cases hNone : arrivals w = []
    · rw [hNone, List.append_nil]
      exact hStepped.sound w
    · have hw := hInlet w hNone
      change Sound w (h.sent w ++ Dataflow.sent W fire order _ w ++ arrivals w)
      rw [sent_of_no_writer (hBorder.unwritten w hw), List.append_nil]
      exact hSound w hw
  · by_cases hNone : arrivals w = []
    · rw [hNone]
      exact hContract.nothing w
    · exact hFits w (hInlet w hNone)

end

/-- A count that rises up to `n` in every step reaches `n`. -/
theorem exists_count {count : Nat → Nat} {n : Nat} (start : Nat)
    (h : ∀ t, start ≤ t → min (count t + 1) n ≤ count (t + 1)) : ∃ t, n ≤ count t := by
  have hAfter : ∀ k, min k n ≤ count (start + k) := by
    intro k
    induction k with
    | zero => exact (Nat.min_le_left 0 n).trans (Nat.zero_le _)
    | succ k ih =>
        have hStep := h (start + k) (Nat.le_add_right start k)
        rw [← Nat.add_assoc]
        omega
  have hLast := hAfter n
  rw [Nat.min_self] at hLast
  exact ⟨start + n, hLast⟩

end Dataflow
