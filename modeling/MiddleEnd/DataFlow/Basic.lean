import MiddleEnd.Data.Dict
import MiddleEnd.Data.KeySet
import MiddleEnd.Data.Table
import MiddleEnd.Signature
import MiddleEnd.Word

/-!
# Data flow

The values and instructions of a function and who uses what. Beside every value stands the set of
instructions that have it as an operand, and for every block the set of instructions that refer to
it, so that replacing a value touches its users only. Constants and `undef` are shared: there is one
value for each constant and one for the `undef` of each type.
-/

namespace MiddleEnd

/-- How a value comes about. -/
inductive ValueDef where
  | result (ty : Ty) (inst : InstId)
  | param (ty : Ty) (param : ParamId)
  | const (word : Word)
  | undef (ty : Ty)
  /-- A register, written by any number of copies. -/
  | reg (ty : Ty)
  deriving DecidableEq, Repr

namespace ValueDef

def ty : ValueDef → Ty
  | result t _ | param t _ | undef t | reg t => t
  | const w => w.ty

def isConst : ValueDef → Bool
  | const _ => true
  | _ => false

def isUndef : ValueDef → Bool
  | undef _ => true
  | _ => false

def isReg : ValueDef → Bool
  | reg _ => true
  | _ => false

end ValueDef

/-- A value and the instructions that have it as an operand. -/
structure ValueEntry where
  origin : ValueDef
  users : KeySet InstId := ∅

/-- An instruction and the value it yields, if any. -/
structure InstEntry where
  inst : Inst
  result? : Option ValueId := none

/-- A function of the same or another module, known by its name. -/
structure Import where
  name : String
  sig : Signature
  deriving Repr, Inhabited

structure DataFlow where
  insts : Table InstId InstEntry := {}
  values : Table ValueId ValueEntry := {}
  imports : Table ImportId Import := {}
  /-- The values of the parameters, in order. -/
  params : List ValueId := []
  names : Dict ValueId String := ∅
  /-- How many values carry each name. -/
  nameCounts : Dict String Nat := ∅
  /-- The instructions that refer to each block. -/
  blockUsers : Dict BlockId (KeySet InstId) := ∅
  /-- Moves on whenever an edge between blocks may have changed. -/
  epoch : Nat := 0
  deriving Inhabited

namespace DataFlow

def inst? (g : DataFlow) (i : InstId) : Option Inst := (g.insts.get? i).map (·.inst)

def inst (g : DataFlow) (i : InstId) : Checked Inst := .ofOption .keyAbsent (g.inst? i)

def hasInst (g : DataFlow) (i : InstId) : Bool := g.insts.contains i

def op? (g : DataFlow) (i : InstId) : Option Opcode := (g.inst? i).map (·.op)

def isPhi (g : DataFlow) (i : InstId) : Bool := (g.op? i).any (·.isPhi)

def isTerminator (g : DataFlow) (i : InstId) : Bool := (g.op? i).any (·.isTerminator)

def hasSideEffects (g : DataFlow) (i : InstId) : Bool := (g.op? i).any (·.hasSideEffects)

def result? (g : DataFlow) (i : InstId) : Option ValueId := (g.insts.get? i).bind (·.result?)

def result (g : DataFlow) (i : InstId) : Checked ValueId := .ofOption .dataAbsent (g.result? i)

def origin? (g : DataFlow) (v : ValueId) : Option ValueDef := (g.values.get? v).map (·.origin)

def origin (g : DataFlow) (v : ValueId) : Checked ValueDef := .ofOption .keyAbsent (g.origin? v)

def hasValue (g : DataFlow) (v : ValueId) : Bool := g.values.contains v

def ty (g : DataFlow) (v : ValueId) : Checked Ty := do
  let origin ← g.origin v
  .ok origin.ty

def definer? (g : DataFlow) (v : ValueId) : Checked (Option InstId) := do
  match ← g.origin v with
  | .result _ i => .ok (some i)
  | _ => .ok none

def definer (g : DataFlow) (v : ValueId) : Checked InstId := do
  .ofOption (.notResult v) (← g.definer? v)

/-- The instructions that yield the values of a list, results of instructions only. -/
def definers (g : DataFlow) (vs : List ValueId) : Checked (List InstId) := do
  .ok ((← vs.mapM g.definer?).filterMap id)

def param? (g : DataFlow) (v : ValueId) : Checked (Option ParamId) := do
  match ← g.origin v with
  | .param _ p => .ok (some p)
  | _ => .ok none

def const? (g : DataFlow) (v : ValueId) : Checked (Option Word) := do
  match ← g.origin v with
  | .const w => .ok (some w)
  | _ => .ok none

def users (g : DataFlow) (v : ValueId) : Checked (KeySet InstId) :=
  .ofOption (.valueAbsent v) ((g.values.get? v).map (·.users))

def hasUsers (g : DataFlow) (v : ValueId) : Checked Bool := do
  .ok !(← g.users v).isEmpty

def usersOfBlock (g : DataFlow) (b : BlockId) : KeySet InstId := (g.blockUsers.get? b).getD ∅

def touch (g : DataFlow) : DataFlow := { g with epoch := g.epoch + 1 }

def addValue (g : DataFlow) (origin : ValueDef) : ValueId × DataFlow :=
  let (v, values) := g.values.add { origin }
  (v, { g with values })

def find? (g : DataFlow) (origin : ValueDef) : Option ValueId :=
  (g.values.toList.find? (·.2.origin = origin)).map (·.1)

def shared (g : DataFlow) (origin : ValueDef) : ValueId × DataFlow :=
  match g.find? origin with
  | some v => (v, g)
  | none => g.addValue origin

def const (g : DataFlow) (w : Word) : ValueId × DataFlow := g.shared (.const w)

def undef (g : DataFlow) (ty : Ty) : ValueId × DataFlow := g.shared (.undef ty)

def addReg (g : DataFlow) (ty : Ty) : ValueId × DataFlow := g.addValue (.reg ty)

def ofSignature (sig : Signature) : DataFlow :=
  sig.params.zipIdx.foldl
    (fun g (ty, n) =>
      let (v, g) := g.addValue (.param ty ⟨n⟩)
      { g with params := g.params ++ [v] })
    {}

def name? (g : DataFlow) (v : ValueId) : Option String := g.names.get? v

/-- Take the name off a value. -/
def clearName (g : DataFlow) (v : ValueId) : Option String × DataFlow :=
  match g.names.get? v with
  | none => (none, g)
  | some name =>
    let counts := match g.nameCounts.get? name with
      | some count =>
        if count = 1 then g.nameCounts.erase name else g.nameCounts.insert name (count - 1)
      | none => g.nameCounts
    (some name, { g with names := g.names.erase v, nameCounts := counts })

def setName (g : DataFlow) (v : ValueId) (name : String) : DataFlow :=
  let g := (g.clearName v).2
  { g with
    names := g.names.insert v name
    nameCounts := g.nameCounts.insert name ((g.nameCounts.get? name).getD 0 + 1) }

def isNameShared (g : DataFlow) (v : ValueId) : Bool :=
  match g.names.get? v with
  | some name => 1 < (g.nameCounts.get? name).getD 0
  | none => false

end DataFlow

end MiddleEnd
