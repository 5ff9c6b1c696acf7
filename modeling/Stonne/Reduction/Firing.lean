import Stonne.Reduction.ASwitch

/-!
# What an adder does in a cycle

Between two cycles an adder has nothing to send: all that it keeps waits in the fifos of its
inputs.  The lemmas say for each mode what becomes of the packages at the heads of these fifos.
-/

namespace Stonne

namespace ASwitch

/-- An adder between two cycles, without failed assertions. -/
def waiting (left right forward : Fifo) : ASwitch where
  inputPsumLeftFifo := left
  inputPsumRightFifo := right
  inputFwFifo := forward

/-- The outputs of an adder whose sums go to its parent, or over its forwarding link. -/
def Output.sums (cfg : ASwitchConfig) (new : List DataPackage) : Output :=
  if cfg.fwEnabled then { fw := new, psum := [] } else { fw := [], psum := new }

section

variable {cfg : ASwitchConfig} {numInLevel : Nat} {left right forward : Fifo}
  {pckLeft pckRight pckForward : DataPackage}

/-- One package comes over a forwarding link in a cycle, if any. -/
theorem fire_waiting {arrivedLeft arrivedRight fw : List DataPackage} (hFw : fw.length ≤ 1)
    (hOff : cfg.receives = false → fw = []) :
    fire cfg numInLevel (waiting left right forward) arrivedLeft arrivedRight fw =
      send cfg (route cfg numInLevel
        (waiting (left ++ arrivedLeft) (right ++ arrivedRight) (forward ++ fw))) := by
  have hReceive : receiveFwlink cfg
      ((waiting left right forward).receiveChilds arrivedLeft arrivedRight) fw =
        waiting (left ++ arrivedLeft) (right ++ arrivedRight) (forward ++ fw) := by
    cases fw with
    | nil => simp [receiveFwlink, receiveChilds, waiting]
    | cons pck rest =>
        have hReceives : cfg.receives = true := by
          by_contra hNot
          exact List.cons_ne_nil _ _ (hOff (eq_false_of_ne_true hNot))
        have hRest : rest = [] := by
          rw [List.length_cons] at hFw
          exact List.length_eq_zero_iff.mp (by omega)
        subst hRest
        simp [receiveFwlink, receiveChilds, waiting, assert, hReceives]
  rw [fire, hReceive]

theorem send_waiting : send cfg (waiting left right forward) =
    (waiting left right forward, { fw := [], psum := [] }) := by
  simp [send, waiting, assert]

theorem send_pushResult (hLink : cfg.fwEnabled = false ∨ cfg.sends = true) (pck : DataPackage) :
    send cfg (pushResult cfg (waiting left right forward) pck) =
      (waiting left right forward, Output.sums cfg [pck]) := by
  rcases hLink with hOff | hSends
  · simp [pushResult, send, waiting, assert, Output.sums, hOff]
  · have hOn : cfg.fwEnabled = true := (Bool.and_eq_true_iff.mp hSends).1
    simp [pushResult, send, waiting, assert, Output.sums, hOn, hSends]

theorem Output.sums_nil : Output.sums cfg [] = { fw := [], psum := [] } := by
  rw [Output.sums, ite_self]

/-! ## Adding up -/

/-- Two children are waited for. -/
theorem add_wait (hMode : cfg.configMode = .add21) (hLeft : cfg.leftChildEnabled = true)
    (hRight : cfg.rightChildEnabled = true) (h : left = [] ∨ right = []) :
    send cfg (route cfg numInLevel (waiting left right forward)) =
      (waiting left right forward, { fw := [], psum := [] }) := by
  have hRoute : route cfg numInLevel (waiting left right forward) = waiting left right forward := by
    rcases h with rfl | rfl
    · cases right <;>
        simp [route, hMode, route21Config, passLeft, passRight, addBoth, waiting, hLeft]
    · cases left <;>
        simp [route, hMode, route21Config, passLeft, passRight, addBoth, waiting, hRight]
  rw [hRoute, send_waiting]

theorem add_both (hMode : cfg.configMode = .add21) (hLeft : cfg.leftChildEnabled = true)
    (hRight : cfg.rightChildEnabled = true) (hLink : cfg.fwEnabled = false ∨ cfg.sends = true)
    (hVn : pckLeft.vn = pckRight.vn) :
    send cfg (route cfg numInLevel (waiting (pckLeft :: left) (pckRight :: right) forward)) =
      (waiting left right forward,
        Output.sums cfg [psumPackage pckLeft.vn (pckLeft.data + pckRight.data)]) := by
  rw [← send_pushResult hLink]
  simp [route, hMode, route21Config, passLeft, passRight, addBoth, waiting, assert,
    performOperation2Operands, hLeft, hRight, hVn]

/-- A child without a neighbour is passed on. -/
theorem pass_left (hMode : cfg.configMode = .add21) (hRight : cfg.rightChildEnabled = false)
    (hLink : cfg.fwEnabled = false ∨ cfg.sends = true) :
    send cfg (route cfg numInLevel (waiting (pckLeft :: left) [] forward)) =
      (waiting left [] forward, Output.sums cfg [pckLeft]) := by
  rw [← send_pushResult hLink]
  cases hFw : cfg.fwEnabled <;> cases left <;>
    simp [route, hMode, route21Config, passLeft, passRight, addBoth, pushResult, waiting,
      hRight, hFw]

theorem pass_right (hMode : cfg.configMode = .add21) (hLeft : cfg.leftChildEnabled = false)
    (hLink : cfg.fwEnabled = false ∨ cfg.sends = true) :
    send cfg (route cfg numInLevel (waiting [] (pckRight :: right) forward)) =
      (waiting [] right forward, Output.sums cfg [pckRight]) := by
  rw [← send_pushResult hLink]
  cases hFw : cfg.fwEnabled <;> cases right <;>
    simp [route, hMode, route21Config, passLeft, passRight, addBoth, pushResult, waiting, hLeft,
      hFw]

theorem pass_none (hMode : cfg.configMode = .add21) :
    send cfg (route cfg numInLevel (waiting [] [] forward)) =
      (waiting [] [] forward, { fw := [], psum := [] }) := by
  have hSend : send cfg (waiting [] [] forward) = _ := send_waiting
  rw [← hSend]
  simp [route, hMode, route21Config, passLeft, passRight, addBoth, waiting]

/-! ## Three operands -/

theorem gather_wait (hMode : cfg.configMode = .add31) (hLeft : cfg.leftChildEnabled = true)
    (hRight : cfg.rightChildEnabled = true) (hLink : cfg.receives = true)
    (h : left = [] ∨ right = [] ∨ forward = []) :
    send cfg (route cfg numInLevel (waiting left right forward)) =
      (waiting left right forward, { fw := [], psum := [] }) := by
  have hRoute : route cfg numInLevel (waiting left right forward) = waiting left right forward := by
    rcases h with rfl | rfl | rfl
    · simp [route, hMode, route31Config, waiting, assert, hLeft, hRight, hLink]
    · cases left <;> simp [route, hMode, route31Config, waiting, assert, hLeft, hRight, hLink]
    · cases left <;> cases right <;>
        simp [route, hMode, route31Config, waiting, assert, hLeft, hRight, hLink]
  rw [hRoute, send_waiting]

theorem gather_all (hMode : cfg.configMode = .add31) (hLeft : cfg.leftChildEnabled = true)
    (hRight : cfg.rightChildEnabled = true) (hLink : cfg.receives = true)
    (hVn : pckLeft.vn = pckRight.vn) (hVn' : pckRight.vn = pckForward.vn) :
    send cfg (route cfg numInLevel
        (waiting (pckLeft :: left) (pckRight :: right) (pckForward :: forward))) =
      (waiting left right forward,
        { fw := []
          psum := [psumPackage pckLeft.vn (pckLeft.data + pckRight.data + pckForward.data)] }) := by
  simp [route, hMode, route31Config, waiting, assert, hLeft, hRight, hLink, hVn, hVn', send,
    performOperation3Operands]

/-! ## Two neurons -/

/-- The children are passed on to the parent and to the neighbour, each as it comes. -/
theorem share (hMode : cfg.configMode = .add11PlusFw11) (hLeft : cfg.leftChildEnabled = true)
    (hRight : cfg.rightChildEnabled = true) (hLink : cfg.sends = true)
    (hVn : numInLevel % 2 = 0 → ∀ pck ∈ right, pck.vn ≠ 0) :
    send cfg (route cfg numInLevel (waiting left right forward)) =
      (waiting left.tail right.tail forward,
        if numInLevel % 2 = 0 then { fw := left.take 1, psum := right.take 1 }
        else { fw := right.take 1, psum := left.take 1 }) := by
  rcases Nat.mod_two_eq_zero_or_one numInLevel with hEven | hOdd
  · have hHead := hVn hEven
    cases left <;> cases right <;>
      simp_all [route, route11PlusFw11Config, route11PlusFw11Left, route11PlusFw11Right, waiting,
        assert, send]
  · cases left <;> cases right <;>
      simp [route, hMode, route11PlusFw11Config, route11PlusFw11Left, route11PlusFw11Right,
        waiting, assert, hLeft, hRight, hLink, hOdd, send]

/-- The children are passed on, all that has come. -/
theorem forward_both (hMode : cfg.configMode = .fw22) :
    send cfg (route cfg numInLevel (waiting left right forward)) =
      (waiting [] [] forward, { fw := [], psum := left ++ right }) := by
  simp [route, hMode, routeFw22Config, waiting, assert, send]

end

end ASwitch

end Stonne
