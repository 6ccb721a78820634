import MiddleEnd.DataFlow.Edit

/-!
# Constant folding

An instruction without effects whose operands are all constants has a constant result, unless the
operation is undefined for them.
-/

namespace MiddleEnd.DataFlow

def constPair? (g : DataFlow) (x y : ValueId) : Checked (Option (Word × Word)) := do
  match ← g.const? x with
  | none => .ok none
  | some a =>
    match ← g.const? y with
    | none => .ok none
    | some b => .ok (some (a, b))

/-- The constant an instruction always yields, if its operands tell. -/
def fold? (g : DataFlow) (i : InstId) : Checked (Option Word) := do
  match ← g.inst i with
  | .unary op x =>
    if op.isUnaryArith then
      return (← g.const? x).bind (Word.evalUnary op)
    else if op.isCast then
      let width ← (← g.ty (← g.result i)).width
      match ← g.const? x with
      | some a => Word.evalCast op a width
      | none => return none
    else
      return none
  | .binary op x y =>
    if op.isBinaryArith then
      match ← g.constPair? x y with
      | some (a, b) => Word.evalBinary op a b
      | none => return none
    else if op.isCompare then
      match ← g.constPair? x y with
      | some (a, b) => Word.evalCompare op a b
      | none => return none
    else
      return none
  | _ => return none

end MiddleEnd.DataFlow
