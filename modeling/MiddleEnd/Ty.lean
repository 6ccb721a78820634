/-!
# Types of values

Integers of any width, pointers, and `void` for the absence of a value. Types are equal when they
are built alike.
-/

namespace MiddleEnd

inductive Ty where
  | void
  | int (width : Nat)
  | ptr (target : Ty)
  deriving DecidableEq, Repr, Inhabited

namespace Ty

def text : Ty → String
  | void => "void"
  | int w => "i" ++ toString w
  | ptr t => t.text ++ "*"

instance : ToString Ty := ⟨text⟩

def parseBase? : List Char → Option Ty
  | ['v', 'o', 'i', 'd'] => some void
  | 'i' :: d :: ds =>
    if (d :: ds).all Char.isDigit then
      some (int ((d :: ds).foldl (fun n c => 10 * n + (c.toNat - '0'.toNat)) 0))
    else none
  | _ => none

/-- Read a type: `void` or a width after an `i`, then a star for each pointer. -/
def parse? (s : String) : Option Ty := do
  let base ← parseBase? (s.toList.takeWhile (· ≠ '*'))
  let stars := s.toList.dropWhile (· ≠ '*')
  if stars.all (· = '*') then some (stars.foldl (fun t _ => ptr t) base) else none

def isVoid : Ty → Bool
  | void => true
  | _ => false

def isInt : Ty → Bool
  | int _ => true
  | _ => false

def isPtr : Ty → Bool
  | ptr _ => true
  | _ => false

end Ty

end MiddleEnd
