import MiddleEnd.Func.Basic

/-!
# Functions as text

Values print as `%` and a name or number; a name that several values carry is followed by the
number. Constants print as their value. A named block prints as its name and its number.
-/

namespace MiddleEnd.Func

def valueText (f : Func) (v : ValueId) : String :=
  match f.flow.origin? v with
  | none => s!"%<invalid {v}>"
  | some (.const w) => w.text
  | some (.undef _) => "undef"
  | some _ =>
    match f.flow.name? v with
    | none => "%" ++ toString v.index
    | some name =>
      if f.flow.isNameShared v then "%" ++ name ++ "." ++ toString v.index else "%" ++ name

def blockText (f : Func) (b : BlockId) : String :=
  match (f.blockTable.get? b).bind (·.name?) with
  | some name => name ++ "." ++ toString b.index
  | none => toString b

def blockListText (f : Func) (bs : List BlockId) : String :=
  String.intercalate ", " (bs.map f.blockText)

/-- What an instruction refers to. -/
def operandText (f : Func) : Inst → Checked String
  | .call _ callee args => do
    let target ← f.flow.imports.get callee
    .ok (" @" ++ target.name ++ " (" ++ String.intercalate ", " (args.map f.valueText) ++ ")")
  | .phi _ args preds =>
    let edges := (args.zip preds).map fun (v, b) => "[" ++ f.valueText v ++ ", " ++
      f.blockText b ++ "]"
    .ok (if edges.isEmpty then "" else " " ++ String.intercalate ", " edges)
  | i =>
    let operands := i.args.map f.valueText ++ i.blocks.map f.blockText
    .ok (if operands.isEmpty then "" else " " ++ String.intercalate ", " operands)

def instText (f : Func) (i : InstId) : Checked String := do
  let inst ← f.flow.inst i
  let head ← match f.flow.result? i with
    | some v => pure (f.valueText v ++ " = " ++ inst.op.text ++ " " ++ (← f.flow.ty v).text)
    | none => pure inst.op.text
  .ok (head ++ (← f.operandText inst))

def headText (f : Func) : Checked String := do
  let params ← f.params.mapM fun v => do
    return (← f.flow.ty v).text ++ " " ++ f.valueText v
  .ok ("func @" ++ f.name ++ " (" ++ String.intercalate ", " params ++ ") " ++ f.sig.returns.text)

/-- A block with its neighbours, a remark on it, and its instructions. -/
def rowText (f : Func) (remark : BlockId → Checked String) (row : Row) : Checked String := do
  let preds := f.blockListText (f.predecessors row.block)
  let succs := f.blockListText (← f.successors row.block)
  let head := s!"{f.blockText row.block}:  ; preds=({preds}) succs=({succs})"
  let remark ← remark row.block
  let lines ← row.insts.mapM fun i => do
    return "    " ++ (← f.instText i) ++ "\n"
  .ok (head ++ remark ++ "\n" ++ String.join lines)

def textWith (f : Func) (remark : BlockId → Checked String) : Checked String := do
  let head ← f.headText
  let rows ← f.layout.rows.mapM (f.rowText remark)
  .ok (head ++ " \x7b\n" ++ String.join rows ++ "\x7d")

def text (f : Func) : Checked String :=
  f.textWith fun _ => .ok ""

end MiddleEnd.Func
