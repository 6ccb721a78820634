/-!
# Operations

The operations of the intermediate language and the traits that classify them. What an operation may
be used for is decided by its traits alone.
-/

namespace MiddleEnd

inductive Opcode where
  | alloca | load | store
  | neg | not
  | add | sub | mul | sdiv | srem | udiv | urem | and | or | xor | shl | shr
  | eq | neq | slt | sgt | sle | sge | ult | ugt | ule | uge
  | zext | sext | trunc
  | call | phi | copy
  | br | brCond | ret | retValue
  deriving DecidableEq, Repr, Inhabited

/-- A property that decides how an operation may be treated. -/
inductive Trait where
  /-- Ends a basic block. -/
  | terminator
  /-- Has an effect beyond its result. -/
  | sideEffect
  /-- The two operands may trade places. -/
  | commutative
  /-- Arithmetic or logic on two operands. -/
  | arith
  /-- Compares two operands and yields one bit. -/
  | compare
  /-- Touches memory. -/
  | memory
  /-- Changes the width of an integer. -/
  | cast
  /-- Arithmetic on one operand. -/
  | unary
  deriving DecidableEq, Repr

/-- The bit that stands for a trait in a set of traits. -/
def Trait.bit : Trait → Nat
  | terminator => 1
  | sideEffect => 2
  | commutative => 4
  | arith => 8
  | compare => 16
  | memory => 32
  | cast => 64
  | unary => 128

namespace Opcode

def all : List Opcode :=
  [alloca, load, store, neg, not, add, sub, mul, sdiv, srem, udiv, urem, and, or, xor, shl, shr,
    eq, neq, slt, sgt, sle, sge, ult, ugt, ule, uge, zext, sext, trunc, call, phi, copy,
    br, brCond, ret, retValue]

/-- The word an operation is printed as. Both branches share one word, and so do both returns. -/
def text : Opcode → String
  | alloca => "alloca" | load => "load" | store => "store"
  | neg => "neg" | not => "not"
  | add => "add" | sub => "sub" | mul => "mul"
  | sdiv => "sdiv" | srem => "srem" | udiv => "udiv" | urem => "urem"
  | and => "and" | or => "or" | xor => "xor" | shl => "shl" | shr => "shr"
  | eq => "eq" | neq => "neq"
  | slt => "slt" | sgt => "sgt" | sle => "sle" | sge => "sge"
  | ult => "ult" | ugt => "ugt" | ule => "ule" | uge => "uge"
  | zext => "zext" | sext => "sext" | trunc => "trunc"
  | call => "call" | phi => "phi" | copy => "copy"
  | br => "br" | brCond => "br" | ret => "ret" | retValue => "ret"

instance : ToString Opcode := ⟨text⟩

/-- The name of the operation itself, different for every operation. -/
def name : Opcode → String
  | alloca => "Alloca" | load => "Load" | store => "Store"
  | neg => "Neg" | not => "Not"
  | add => "Add" | sub => "Sub" | mul => "Mul"
  | sdiv => "Sdiv" | srem => "Srem" | udiv => "Udiv" | urem => "Urem"
  | and => "And" | or => "Or" | xor => "Xor" | shl => "Shl" | shr => "Shr"
  | eq => "Eq" | neq => "Neq"
  | slt => "Slt" | sgt => "Sgt" | sle => "Sle" | sge => "Sge"
  | ult => "Ult" | ugt => "Ugt" | ule => "Ule" | uge => "Uge"
  | zext => "Zext" | sext => "Sext" | trunc => "Trunc"
  | call => "Call" | phi => "Phi" | copy => "Copy"
  | br => "Br" | brCond => "BrCond" | ret => "Ret" | retValue => "RetValue"

def keyword : Opcode → String
  | brCond => "br_cond"
  | retValue => "ret_value"
  | op => op.text

def ofKeyword? (s : String) : Option Opcode := all.find? (·.keyword = s)

def traits : Opcode → List Trait
  | alloca => [.memory]
  | load | store => [.memory, .sideEffect]
  | neg | not => [.unary]
  | add | mul | and | or | xor => [.arith, .commutative]
  | sub | sdiv | srem | udiv | urem | shl | shr => [.arith]
  | eq | neq => [.compare, .commutative]
  | slt | sgt | sle | sge | ult | ugt | ule | uge => [.compare]
  | zext | sext | trunc => [.cast]
  | call | copy => [.sideEffect]
  | phi => []
  | br | brCond | ret | retValue => [.terminator, .sideEffect]

def flags (op : Opcode) : Nat :=
  op.traits.foldl (fun n t => n + t.bit) 0

def has (op : Opcode) (t : Trait) : Bool :=
  op.traits.contains t

def isPhi (op : Opcode) : Bool := op == phi

def isTerminator (op : Opcode) : Bool := op.has .terminator

def isReturn : Opcode → Bool
  | ret | retValue => true
  | _ => false

def hasSideEffects (op : Opcode) : Bool := op.has .sideEffect

def isCommutative (op : Opcode) : Bool := op.has .commutative

def isBinaryArith (op : Opcode) : Bool := op.has .arith

def isUnaryArith (op : Opcode) : Bool := op.has .unary

def isCompare (op : Opcode) : Bool := op.has .compare

def isCast (op : Opcode) : Bool := op.has .cast

def isPure (op : Opcode) : Bool :=
  op.isBinaryArith || op.isUnaryArith || op.isCompare || op.isCast

theorem mem_all (op : Opcode) : op ∈ all := by
  cases op <;> decide

theorem ofKeyword?_keyword (op : Opcode) : ofKeyword? op.keyword = some op := by
  cases op <;> rfl

end Opcode

end MiddleEnd
