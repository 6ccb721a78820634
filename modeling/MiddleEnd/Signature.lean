import MiddleEnd.Fault

/-!
# Signatures

The types of the parameters of a function and of its result. A signature without a result type
returns `void`.
-/

namespace MiddleEnd

structure Signature where
  params : List Ty := []
  result? : Option Ty := none
  deriving DecidableEq, Repr, Inhabited

namespace Signature

def returns (sig : Signature) : Ty := sig.result?.getD .void

def keys (sig : Signature) : List ParamId :=
  (List.range sig.params.length).map ParamId.mk

def arity (sig : Signature) : Nat := sig.params.length

def paramTy (sig : Signature) (p : ParamId) : Checked Ty :=
  .ofOption .keyAbsent sig.params[p.index]?

def agrees (a b : Signature) : Bool :=
  a.returns == b.returns && a.params == b.params

def text (sig : Signature) : String :=
  "(" ++ String.intercalate ", " (sig.params.map Ty.text) ++ ") " ++ sig.returns.text

end Signature

end MiddleEnd
