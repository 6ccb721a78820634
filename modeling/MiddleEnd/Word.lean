import MiddleEnd.Fault

/-!
# Words

A word is an integer of a positive number of bits. It is kept as an unsigned bit pattern below two
to the width; signed operations read the pattern in two's complement. Operations on two words yield
a word of the width of the first.
-/

namespace MiddleEnd

def twoPow (width : Nat) : Nat := Nat.pow 2 width

theorem twoPow_pos (width : Nat) : 0 < twoPow width := Nat.two_pow_pos width

theorem twoPow_succ (width : Nat) : twoPow (width + 1) = twoPow width * 2 := rfl

structure Word where
  width : Nat
  bits : Nat
  width_pos : 0 < width
  bits_lt : bits < twoPow width
  deriving DecidableEq, Repr

namespace Word

def wrap (width : Nat) (pos : 0 < width) (n : Nat) : Word :=
  ⟨width, n % twoPow width, pos, Nat.mod_lt n (twoPow_pos width)⟩

def wrapInt (width : Nat) (pos : 0 < width) (i : Int) : Word :=
  wrap width pos (i % twoPow width).toNat

def ofNat (width n : Nat) : Checked Word :=
  if pos : 0 < width then .ok (wrap width pos n) else .error .zeroWidth

def ofInt (width : Nat) (i : Int) : Checked Word :=
  if pos : 0 < width then .ok (wrapInt width pos i) else .error .zeroWidth

def allOnes (width : Nat) : Checked Word :=
  ofNat width (twoPow width - 1)

def ofBool (b : Bool) : Word :=
  wrap 1 Nat.one_pos b.toNat

def isNegative (a : Word) : Bool := twoPow (a.width - 1) ≤ a.bits

def isZero (a : Word) : Bool := a.bits == 0

def isOne (a : Word) : Bool := a.bits == 1

def isAllOnes (a : Word) : Bool := a.bits == twoPow a.width - 1

def toInt (a : Word) : Int :=
  if a.isNegative then a.bits - twoPow a.width else a.bits

def toMachineWord? (a : Word) : Option Nat :=
  if a.bits < twoPow 64 then some a.bits else none

def ty (a : Word) : Ty := .int a.width

def text (a : Word) : String :=
  if a.width = 1 then toString a.bits else toString a.toInt

instance : ToString Word := ⟨text⟩

def typedText (a : Word) : String :=
  a.ty.text ++ " " ++ a.text

def cmp (a b : Word) : Ordering :=
  (compare a.width b.width).then (compare a.bits b.bits)

def not (a : Word) : Word := wrap a.width a.width_pos (twoPow a.width - 1 - a.bits)

def neg (a : Word) : Word := wrap a.width a.width_pos (twoPow a.width - a.bits)

def add (a b : Word) : Word := wrap a.width a.width_pos (a.bits + b.bits)

def sub (a b : Word) : Word := wrapInt a.width a.width_pos (a.toInt - b.toInt)

def mul (a b : Word) : Word := wrap a.width a.width_pos (a.bits * b.bits)

def and (a b : Word) : Word := wrap a.width a.width_pos (a.bits &&& b.bits)

def or (a b : Word) : Word := wrap a.width a.width_pos (a.bits ||| b.bits)

def xor (a b : Word) : Word := wrap a.width a.width_pos (a.bits ^^^ b.bits)

def udiv? (a b : Word) : Option Word :=
  if b.isZero then none else some (wrap a.width a.width_pos (a.bits / b.bits))

def urem? (a b : Word) : Option Word :=
  if b.isZero then none else some (wrap a.width a.width_pos (a.bits % b.bits))

def sdiv? (a b : Word) : Option Word :=
  if b.isZero then none else some (wrapInt a.width a.width_pos (a.toInt.tdiv b.toInt))

/-- Signed remainder with the sign of the dividend; nothing for a zero divisor. -/
def srem? (a b : Word) : Option Word :=
  if b.isZero then none else some (wrapInt a.width a.width_pos (a.toInt.tmod b.toInt))

def shl (a amount : Word) : Word :=
  if amount.bits < a.width then wrap a.width a.width_pos (a.bits <<< amount.bits)
  else wrap a.width a.width_pos 0

/-- Arithmetic right shift. Only the sign is left once the amount reaches the width. -/
def shr (a amount : Word) : Word :=
  if amount.bits < a.width then wrapInt a.width a.width_pos (a.toInt >>> amount.bits)
  else if a.isNegative then wrap a.width a.width_pos (twoPow a.width - 1)
  else wrap a.width a.width_pos 0

def ult (a b : Word) : Checked Bool :=
  if a.width = b.width then .ok (decide (a.bits < b.bits)) else .error .widthsDiffer

def slt (a b : Word) : Checked Bool :=
  if a.width = b.width then .ok (decide (a.toInt < b.toInt)) else .error .widthsDiffer

def evalUnary (op : Opcode) (a : Word) : Option Word :=
  match op with
  | .not => some a.not
  | .neg => some a.neg
  | _ => none

/-- The result of a binary operation; nothing for other operations and for a division by zero. -/
def evalBinary (op : Opcode) (a b : Word) : Checked (Option Word) :=
  if a.width = b.width then
    .ok <| match op with
      | .add => some (a.add b)
      | .sub => some (a.sub b)
      | .mul => some (a.mul b)
      | .and => some (a.and b)
      | .or => some (a.or b)
      | .xor => some (a.xor b)
      | .shl => some (a.shl b)
      | .shr => some (a.shr b)
      | .sdiv => a.sdiv? b
      | .srem => a.srem? b
      | .udiv => a.udiv? b
      | .urem => a.urem? b
      | _ => none
  else .error (.operandWidthsDiffer op)

/-- The truth value of a comparison; nothing for other operations. -/
def evalOrder (op : Opcode) (a b : Word) : Checked (Option Bool) :=
  match op with
  | .eq => .ok (some (a == b))
  | .neq => .ok (some (a != b))
  | .ult => (a.ult b).map some
  | .ugt => (b.ult a).map some
  | .ule => (b.ult a).map (some !·)
  | .uge => (a.ult b).map (some !·)
  | .slt => (a.slt b).map some
  | .sgt => (b.slt a).map some
  | .sle => (b.slt a).map (some !·)
  | .sge => (a.slt b).map (some !·)
  | _ => .ok none

/-- The result of a comparison, one bit wide; nothing for other operations. -/
def evalCompare (op : Opcode) (a b : Word) : Checked (Option Word) :=
  (evalOrder op a b).map (·.map ofBool)

def evalCast (op : Opcode) (a : Word) (width : Nat) : Checked (Option Word) :=
  match op with
  | .zext | .trunc => (ofNat width a.bits).map some
  | .sext => (ofInt width a.toInt).map some
  | _ => .ok none

end Word

end MiddleEnd
