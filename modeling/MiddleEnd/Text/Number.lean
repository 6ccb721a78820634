/-!
# Numbers in text

Reading an unsigned machine word in decimal.
-/

namespace MiddleEnd

/-- Why a text is no machine word. -/
inductive NumberError where
  | empty
  | invalidDigit
  | tooLarge
  deriving DecidableEq, Repr

def NumberError.message : NumberError → String
  | empty => "cannot parse integer from empty string"
  | invalidDigit => "invalid digit found in string"
  | tooLarge => "number too large to fit in target type"

def machineLimit : Nat := 18446744073709551616

/-- Read digits after the digits of `n`. The first digit that is wrong or too much decides. -/
def readDigits (n : Nat) : List Char → Except NumberError Nat
  | [] => .ok n
  | c :: rest =>
    if '0' ≤ c ∧ c ≤ '9' then
      let n := 10 * n + (c.toNat - '0'.toNat)
      if n < machineLimit then readDigits n rest else .error .tooLarge
    else .error .invalidDigit

def readMachineWord (s : String) : Except NumberError Nat :=
  match s.toList with
  | [] => .error .empty
  | ['+'] => .error .invalidDigit
  | '+' :: rest => readDigits 0 rest
  | cs => readDigits 0 cs

end MiddleEnd
