import MiddleEnd.Func.Basic

/-!
# Execution

What a function does when it runs. A step runs one instruction; a branch also runs the phis of the
block it leads to, which read their values at once. A value may be undefined: phis, copies, stores
and operations without effects pass that on, and only a branch, a return or an access to memory
needs to know better. Calls are left open here: a step that comes to a call says so and goes no
further.
-/

namespace MiddleEnd

/-- A place in memory: the slot of one `alloca` in one activation of its function. -/
structure Cell where
  activation : Nat
  slot : InstId
  deriving DecidableEq, Repr

/-- What a value holds at run time. -/
inductive Datum where
  /-- Nothing in particular, as `undef` and memory that was never stored to. -/
  | undefined
  | word (w : Word)
  | address (cell : Cell)
  deriving DecidableEq, Repr

def Datum.fits : Datum → Ty → Bool
  | undefined, _ => true
  | word w, ty => ty = w.ty
  | address _, ty => ty.isPtr

inductive Stuck where
  /-- The value is read before anything computed it. -/
  | unset (v : ValueId)
  /-- The phi has no value for where control comes from. -/
  | noIncoming (phi : InstId)
  /-- The block ended without leading anywhere. -/
  | fellThrough (b : BlockId)
  | divisionByZero (i : InstId)
  /-- Addresses are merged, copied, stored and accessed; nothing is computed from them. -/
  | addressOperand (i : InstId)
  /-- A branch, a return or an access depends on an undefined value. -/
  | undefinedUse (i : InstId)
  /-- The instruction means nothing in its form and with its types. -/
  | malformed (i : InstId)
  deriving DecidableEq, Repr

/-- One activation of a function in the middle of its run. -/
structure Frame where
  block : BlockId
  /-- The block control came from. The entry is reached from nowhere at first. -/
  source? : Option BlockId := none
  /-- The instructions of the block that are still to run. -/
  rest : List InstId
  values : ValueId → Option Datum
  memory : Cell → Datum
  activation : Nat := 0
  /-- The number of the next activation. -/
  fresh : Nat := 1

inductive Step where
  | next (s : Frame)
  /-- Instruction `i` calls a function. -/
  | call (i : InstId) (callee : ImportId) (args : List Datum)
  | done (result? : Option Datum)

namespace Frame

/-- The start of a run: parameters hold the arguments. -/
def start (f : Func) (args : List Datum) : Checked Frame := do
  let block ← f.entry
  let rest ← f.insts block
  return {
    block
    rest
    values := fun v => (f.params.idxOf? v).bind (args[·]?)
    memory := fun _ => .undefined }

def read (f : Func) (s : Frame) (v : ValueId) : Except Stuck Datum :=
  match f.flow.origin? v, s.values v with
  | some (.const w), _ => .ok (.word w)
  | some (.undef _), _ => .ok .undefined
  | _, some d => .ok d
  | _, none => .error (.unset v)

def set (s : Frame) (v : ValueId) (d : Datum) : Frame :=
  { s with values := fun w => if w = v then some d else s.values w }

def store (s : Frame) (cell : Cell) (d : Datum) : Frame :=
  { s with memory := fun other => if other = cell then d else s.memory other }

def yield (f : Func) (s : Frame) (i : InstId) (d : Datum) : Except Stuck Step :=
  match f.flow.result? i with
  | some v => .ok (.next (s.set v d))
  | none => .error (.malformed i)

def cellAt (f : Func) (s : Frame) (i : InstId) (v : ValueId) : Except Stuck Cell := do
  match ← s.read f v with
  | .address cell => .ok cell
  | .undefined => .error (.undefinedUse i)
  | .word _ => .error (.malformed i)

def resultWidth? (f : Func) (i : InstId) : Option Nat :=
  match (f.flow.result? i).bind f.flow.origin? with
  | some origin => origin.ty.width.toOption
  | none => none

def onWord (f : Func) (i : InstId) (op : Opcode) (a : Word) : Except Stuck Word :=
  let result := if op.isCast then
      (resultWidth? f i).bind fun width => (Word.evalCast op a width).toOption.join
    else Word.evalUnary op a
  match result with
  | some w => .ok w
  | none => .error (.malformed i)

def onWords (i : InstId) (op : Opcode) (a b : Word) : Except Stuck Word :=
  match if op.isCompare then Word.evalCompare op a b else Word.evalBinary op a b with
  | .ok (some w) => .ok w
  | .ok none => if op.isBinaryArith then .error (.divisionByZero i) else .error (.malformed i)
  | .error _ => .error (.malformed i)

def compute (f : Func) (i : InstId) (op : Opcode) (args : List Datum) : Except Stuck Datum :=
  if .undefined ∈ args then .ok .undefined
  else match args with
    | [.word a] => (onWord f i op a).map .word
    | [.word a, .word b] => (onWords i op a b).map .word
    | _ => .error (.addressOperand i)

def merged (f : Func) (s : Frame) (source : BlockId) (phi : InstId) :
    Except Stuck (ValueId × Datum) := do
  match f.flow.incoming? phi source, f.flow.result? phi with
  | .ok (some v), some result => return (result, ← s.read f v)
  | .ok none, _ => .error (.noIncoming phi)
  | _, _ => .error (.malformed phi)

/-- Control goes to another block. Its phis read their values before any of them changes. -/
def enter (f : Func) (s : Frame) (i : InstId) (b : BlockId) : Except Stuck Frame := do
  match f.insts b with
  | .error _ => .error (.malformed i)
  | .ok insts =>
    let phis ← (insts.takeWhile f.flow.isPhi).mapM (s.merged f s.block)
    return phis.foldl (fun s (v, d) => s.set v d)
      { s with block := b, source? := some s.block, rest := insts.dropWhile f.flow.isPhi }

/-- Run an instruction. A phi that no branch ran stands where control comes from nowhere. -/
def execute (f : Func) (s : Frame) (i : InstId) : Inst → Except Stuck Step
  | .nullary op =>
    if op = .alloca then s.yield f i (.address ⟨s.activation, i⟩)
    else if op = .ret then .ok (.done none)
    else .error (.malformed i)
  | .unary op x => do
    if op = .load then
      let cell ← s.cellAt f i x
      s.yield f i (s.memory cell)
    else
      let d ← s.read f x
      if op = .retValue then
        if d = .undefined then .error (.undefinedUse i) else return .done (some d)
      else
        let result ← compute f i op [d]
        s.yield f i result
  | .binary op x y => do
    if op = .store then
      let cell ← s.cellAt f i x
      return .next (s.store cell (← s.read f y))
    else if op = .copy then
      return .next (s.set x (← s.read f y))
    else
      let result ← compute f i op [← s.read f x, ← s.read f y]
      s.yield f i result
  | .phi _ _ _ => .error (.noIncoming i)
  | .jump _ b => (s.enter f i b).map .next
  | .branch _ c onTrue onFalse => do
    match ← s.read f c with
    | .word w => (s.enter f i (if w.isZero then onFalse else onTrue)).map .next
    | .undefined => .error (.undefinedUse i)
    | .address _ => .error (.addressOperand i)
  | .call _ callee args => do
    return .call i callee (← args.mapM (s.read f))

def step (f : Func) (s : Frame) : Except Stuck Step :=
  match s.rest with
  | [] => .error (.fellThrough s.block)
  | i :: rest =>
    match f.flow.inst? i with
    | some inst => { s with rest }.execute f i inst
    | none => .error (.malformed i)

def run (f : Func) : Nat → Frame → Except Stuck Step
  | 0, s => .ok (.next s)
  | n + 1, s =>
    match s.step f with
    | .ok (.next t) => t.run f n
    | last => last

theorem run_add {f : Func} {m : Nat} {s t : Frame} (h : s.run f m = .ok (.next t)) (n : Nat) :
    s.run f (m + n) = t.run f n := by
  induction m generalizing s with
  | zero =>
    simp only [run, Except.ok.injEq, Step.next.injEq] at h
    rw [Nat.zero_add, h]
  | succ m ih =>
    rw [Nat.succ_add]
    simp only [run] at h ⊢
    split at h
    · exact ih h
    · rename_i h'
      exact absurd h (h' t)

theorem run_done {f : Func} {m : Nat} {s : Frame} {d : Option Datum}
    (h : s.run f m = .ok (.done d)) (n : Nat) : s.run f (m + n) = .ok (.done d) := by
  induction m generalizing s with
  | zero => simp [run] at h
  | succ m ih =>
    rw [Nat.succ_add]
    simp only [run] at h ⊢
    split at h
    · exact ih h
    · exact h

end Frame

def Func.Returns (f : Func) (args : List Datum) (d : Datum) : Prop :=
  ∃ s n, Frame.start f args = .ok s ∧ s.run f n = .ok (.done (some d))

end MiddleEnd
