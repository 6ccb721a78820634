import MiddleEnd.Key
import MiddleEnd.Opcode

/-!
# Instructions

An instruction has one of seven forms; the form says how many values and blocks it refers to.
Nothing ties an operation to a form: that is for the verifier to check.
-/

namespace MiddleEnd

inductive Inst where
  | nullary (op : Opcode)
  | unary (op : Opcode) (x : ValueId)
  | binary (op : Opcode) (x y : ValueId)
  /-- Merges `args`, one for each block control may come from. -/
  | phi (op : Opcode) (args : List ValueId) (preds : List BlockId)
  | jump (op : Opcode) (target : BlockId)
  | branch (op : Opcode) (cond : ValueId) (onTrue onFalse : BlockId)
  | call (op : Opcode) (callee : ImportId) (args : List ValueId)
  deriving DecidableEq, Repr, Inhabited

namespace Inst

def op : Inst → Opcode
  | nullary op | unary op _ | binary op _ _ | phi op _ _ | jump op _ | branch op _ _ _ |
      call op _ _ => op

def args : Inst → List ValueId
  | nullary _ | jump _ _ => []
  | unary _ x => [x]
  | binary _ x y => [x, y]
  | phi _ args _ => args
  | branch _ c _ _ => [c]
  | call _ _ args => args

def blocks : Inst → List BlockId
  | phi _ _ preds => preds
  | jump _ b => [b]
  | branch _ _ t e => [t, e]
  | _ => []

def callee? : Inst → Option ImportId
  | call _ f _ => some f
  | _ => none

def mapArgs (g : ValueId → ValueId) : Inst → Inst
  | unary op x => unary op (g x)
  | binary op x y => binary op (g x) (g y)
  | phi op args preds => phi op (args.map g) preds
  | branch op c t e => branch op (g c) t e
  | call op f args => call op f (args.map g)
  | i => i

def mapBlocks (g : BlockId → BlockId) : Inst → Inst
  | phi op args preds => phi op args (preds.map g)
  | jump op b => jump op (g b)
  | branch op c t e => branch op c (g t) (g e)
  | i => i

/-- The instruction with the operand at position `n` replaced, if there is one. -/
def setArg (i : Inst) (n : Nat) (v : ValueId) : Inst :=
  match i, n with
  | unary op _, 0 => unary op v
  | binary op _ y, 0 => binary op v y
  | binary op x _, 1 => binary op x v
  | phi op args preds, n => phi op (args.set n v) preds
  | branch op _ t e, 0 => branch op v t e
  | call op f args, n => call op f (args.set n v)
  | i, _ => i

def edges : Inst → List (ValueId × BlockId)
  | phi _ args preds => args.zip preds
  | _ => []

private def listText {α : Type} [ToString α] (xs : List α) : String :=
  "[" ++ String.intercalate ", " (xs.map toString) ++ "]"

/-- The form and every field by name. -/
def fieldText (i : Inst) : String :=
  let op := "opcode: " ++ i.op.name
  match i with
  | nullary _ => "Nullary \x7b " ++ op ++ " \x7d"
  | unary _ _ => "Unary \x7b " ++ op ++ ", args: " ++ listText i.args ++ " \x7d"
  | binary _ _ _ => "Binary \x7b " ++ op ++ ", args: " ++ listText i.args ++ " \x7d"
  | phi _ args preds =>
    "Phi \x7b " ++ op ++ ", args: " ++ listText args ++ ", bbs: " ++ listText preds ++ " \x7d"
  | jump _ b => "Jump \x7b " ++ op ++ ", bbs: " ++ listText [b] ++ " \x7d"
  | branch _ c t e =>
    "Branch \x7b " ++ op ++ ", args: " ++ listText [c] ++ ", bbs: " ++ listText [t, e] ++ " \x7d"
  | call _ f args =>
    "Call \x7b " ++ op ++ ", unit: " ++ toString f ++ ", args: " ++ listText args ++ " \x7d"

end Inst

end MiddleEnd
