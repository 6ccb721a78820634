import MiddleEnd.Inst
import MiddleEnd.Ty

/-!
# Faults

An operation that is asked for something impossible ends in a fault. A fault names its cause; the
wording is in `Fault.message` alone.
-/

namespace MiddleEnd

inductive Fault where
  /-- A table has no entry under the key. -/
  | keyAbsent
  /-- The key already carries an entry. -/
  | keyTaken
  /-- The key carries no data. -/
  | dataAbsent
  /-- A snapshot of the control flow has no such block. -/
  | entryAbsent
  /-- A position beyond the end of a list. -/
  | outOfBounds
  /-- A removal at a position beyond the end of a list. -/
  | removalOutOfBounds (index length : Nat)
  | zeroWidth
  /-- A comparison of integers of different widths. -/
  | widthsDiffer
  /-- Arithmetic on integers of different widths. -/
  | operandWidthsDiffer (op : Opcode)
  | notInt (ty : Ty)
  | notPtr (ty : Ty)
  | operandAbsent (value : ValueId) (inst : InstId)
  | valueAbsent (value : ValueId)
  | resultInUse (inst : InstId) (result : ValueId)
  | notResult (value : ValueId)
  | notPhi (inst : InstId)
  | blockInUse (block : BlockId)
  /-- A branch, given as text, still leads to the block. -/
  | blockTargeted (block : BlockId) (branch : String)
  | blockNotPlaced (block : BlockId)
  | blockNotEmpty (block : BlockId)
  | instPlaced (inst : InstId) (old new : BlockId)
  | instNotPlaced (inst : InstId)
  /-- The instruction has no links in the block it should be in. -/
  | instNotLinked (inst : InstId)
  | noInsertionPoint
  | noEntry (func : String)
  | noParam (func : String) (position : Nat)
  | notUnary (op : Opcode)
  | notBinary (op : Opcode)
  | emptyPhi
  /-- A phi with more values than blocks or the other way round. -/
  | phiListsDiffer
  | funcTwice (name : String)
  | noProcessedPredecessor (block : BlockId)
  | staleDominators (func : String)
  /-- The operation never comes in the form the instruction has. -/
  | wrongForm (inst : Inst)
  | unverified
  /-- The errors of a verification, as text. -/
  | verification (report : String)
  | notPure (inst : InstId)
  | phiNotPlaced
  | headerWithoutDominator (header : BlockId)
  /-- A search did not end within the steps its input allows. -/
  | unfinished
  deriving DecidableEq, Repr, Inhabited

namespace Fault

def message : Fault → String
  | keyAbsent => "key not in table"
  | keyTaken => "key already in table"
  | dataAbsent => "key not in secondary table"
  | entryAbsent => "no entry found for key"
  | outOfBounds => "index out of bounds"
  | removalOutOfBounds i n => s!"removal index (is {i}) should be < len (is {n})"
  | zeroWidth => "integer values must be at least one bit wide"
  | widthsDiffer => "assertion `left == right` failed"
  | operandWidthsDiffer op => s!"assertion `left == right` failed: {op} operands differ in width"
  | notInt ty => s!"unwrap_int called on {ty}"
  | notPtr ty => s!"unwrap_pointer called on {ty}"
  | operandAbsent v i => s!"operand {v} of {i} does not exist"
  | valueAbsent v => s!"value {v} does not exist"
  | resultInUse i v => s!"{i} removed while its result {v} is still used"
  | notResult v => s!"value {v} not the result of an instruction"
  | notPhi i => s!"{i} is not a phi"
  | blockInUse b => s!"{b} removed while still in use"
  | blockTargeted b text => s!"{b} removed while still targeted by `{text}`"
  | blockNotPlaced b => s!"{b} is not inserted"
  | blockNotEmpty b => s!"{b} removed while it still contains instructions"
  | instPlaced i old new => s!"inst {i} already inserted in {old}, now being inserted into {new}"
  | instNotPlaced i => s!"inst {i} was not inserted"
  | instNotLinked i => s!"inst {i} not in block layout"
  | noInsertionPoint => "no block selected to insert instruction"
  | noEntry f => s!"function @{f} has no entry block"
  | noParam f n => s!"@{f} has no argument {n}"
  | notUnary op => s!"{op} is not a unary op"
  | notBinary op => s!"{op} is not a binary op"
  | emptyPhi => "assertion failed: args.len() > 0"
  | phiListsDiffer => "assertion `left == right` failed"
  | funcTwice name => s!"function @{name} defined twice"
  | noProcessedPredecessor b => s!"reachable {b} has no processed predecessor"
  | staleDominators f => s!"dominator tree of @{f} is stale"
  | wrongForm i =>
    i.op.name ++ " (" ++ i.op.text ++ ") has mismatching instruction format " ++ i.fieldText
  | unverified => "verification failed"
  | verification report => "Verification failed:\n" ++ report
  | notPure i => s!"{i} is not a pure expression"
  | phiNotPlaced => "phi not inserted"
  | headerWithoutDominator b => s!"loop header {b} has no dominator"
  | unfinished => "search did not finish"

end Fault

abbrev Checked (α : Type) := Except Fault α

def Checked.ofOption {α : Type} (fault : Fault) : Option α → Checked α
  | some a => .ok a
  | none => .error fault

def Checked.nth {α : Type} (xs : List α) (n : Nat) : Checked α :=
  .ofOption .outOfBounds xs[n]?

namespace Ty

def width : Ty → Checked Nat
  | int w => .ok w
  | t => .error (.notInt t)

def target : Ty → Checked Ty
  | ptr t => .ok t
  | t => .error (.notPtr t)

end Ty

end MiddleEnd
