import MiddleEnd.Proofs.Folding
import Mathlib.Algebra.Group.Int.Defs
import Mathlib.Algebra.Group.Nat.Defs

/-!
# Words compute in two's complement

The operations on words are the operations on integers: those that wrap agree with them modulo the
number of patterns, divisions, right shifts and orders agree with them on the unsigned or signed
values themselves. The signed value of a word is the only integer in the signed range that is
congruent to the pattern, so an operation that wraps an integer inside the range yields the integer.
-/

namespace MiddleEnd.Word

section Signed

variable {a : Word} {w : Nat} {x : Int}

theorem twoPow_half (pos : 0 < w) : twoPow w = 2 * twoPow (w - 1) := by
  obtain ⟨n, rfl⟩ : ∃ n, w = n + 1 := ⟨w - 1, by omega⟩
  rw [twoPow_succ, Nat.add_sub_cancel, Nat.mul_comm]

def InRange (w : Nat) (x : Int) : Prop := -(twoPow (w - 1) : Int) ≤ x ∧ x < twoPow (w - 1)

theorem toInt_inRange (a : Word) : InRange a.width a.toInt := by
  have hhalf := twoPow_half a.width_pos
  have hlt := a.bits_lt
  unfold InRange toInt isNegative
  split
  · rename_i h
    have := of_decide_eq_true h
    omega
  · rename_i h
    have : ¬ twoPow (a.width - 1) ≤ a.bits := fun hle => h (decide_eq_true hle)
    omega

theorem toInt_emod (a : Word) : a.toInt % twoPow a.width = a.bits := by
  have hbits : (a.bits : Int) % twoPow a.width = a.bits :=
    Int.emod_eq_of_lt (Int.natCast_nonneg _) (Int.ofNat_lt.2 a.bits_lt)
  unfold toInt
  split
  · rw [Int.sub_emod_right, hbits]
  · exact hbits

theorem InRange.unique {y : Int} (pos : 0 < w) (hx : InRange w x) (hy : InRange w y)
    (h : x % twoPow w = y % twoPow w) : x = y := by
  have hhalf := twoPow_half pos
  have hdvd : (twoPow w : Int) ∣ x - y :=
    Int.dvd_of_emod_eq_zero (Int.emod_eq_emod_iff_emod_sub_eq_zero.1 h)
  have hzero : x - y = 0 := by
    refine Int.eq_zero_of_dvd_of_natAbs_lt_natAbs hdvd ?_
    unfold InRange at hx hy
    omega
  omega

theorem bits_wrapInt (pos : 0 < w) (x : Int) : ((wrapInt w pos x).bits : Int) = x % twoPow w := by
  have hpos : (0 : Int) < twoPow w := Int.ofNat_lt.2 (twoPow_pos w)
  have hnonneg := Int.emod_nonneg x (Int.ne_of_gt hpos)
  have hlt := Int.emod_lt_of_pos x hpos
  show (((x % twoPow w).toNat % twoPow w : Nat) : Int) = _
  rw [Nat.mod_eq_of_lt (by omega), Int.toNat_of_nonneg hnonneg]

theorem toInt_wrapInt_emod (pos : 0 < w) (x : Int) :
    (wrapInt w pos x).toInt % twoPow w = x % twoPow w :=
  (toInt_emod (wrapInt w pos x)).trans (bits_wrapInt pos x)

theorem toInt_eq (hx : InRange a.width x) (h : x % twoPow a.width = a.bits) : a.toInt = x :=
  (toInt_inRange a).unique a.width_pos hx ((toInt_emod a).trans h.symm)

theorem toInt_wrapInt (pos : 0 < w) (hx : InRange w x) : (wrapInt w pos x).toInt = x :=
  toInt_eq hx (bits_wrapInt pos x).symm

theorem isNegative_iff (a : Word) : a.isNegative = true ↔ a.toInt < 0 := by
  have hlt := a.bits_lt
  unfold toInt
  split
  · rename_i h
    exact iff_of_true h (by omega)
  · rename_i h
    exact iff_of_false h (by omega)

end Signed

section Operations

variable {a b : Word}

theorem natCast_twoPow (n : Nat) : (twoPow n : Int) = 2 ^ n := Int.natCast_pow 2 n

theorem bits_neg (a : Word) : (a.neg.bits : Int) = -a.bits % twoPow a.width := by
  have hlt := a.bits_lt
  show (((twoPow a.width - a.bits) % twoPow a.width : Nat) : Int) = _
  rw [Int.natCast_emod, Int.ofNat_sub (Nat.le_of_lt hlt), Int.sub_emod_left]

theorem testBit_not (a : Word) (i : Nat) :
    a.not.bits.testBit i = (decide (i < a.width) && !a.bits.testBit i) := by
  have hlt := a.bits_lt
  have hbits : a.not.bits = 2 ^ a.width - (a.bits + 1) := by
    show (twoPow a.width - 1 - a.bits) % twoPow a.width = twoPow a.width - (a.bits + 1)
    rw [Nat.mod_eq_of_lt (by omega), Nat.sub_sub, Nat.add_comm 1]
  rw [hbits]
  exact Nat.testBit_two_pow_sub_succ hlt i

theorem bits_sub (h : a.width = b.width) :
    ((a.sub b).bits : Int) = (a.bits - b.bits) % twoPow a.width := by
  show ((wrapInt a.width a.width_pos (a.toInt - b.toInt)).bits : Int) = _
  have hb : b.toInt % twoPow a.width = b.bits := h ▸ toInt_emod b
  rw [bits_wrapInt, Int.sub_emod, toInt_emod, hb]

theorem bits_and (h : a.width = b.width) : (a.and b).bits = a.bits &&& b.bits :=
  Nat.mod_eq_of_lt (Nat.and_lt_two_pow a.bits (h ▸ b.bits_lt))

theorem bits_or (h : a.width = b.width) : (a.or b).bits = a.bits ||| b.bits :=
  Nat.mod_eq_of_lt (Nat.or_lt_two_pow a.bits_lt (h ▸ b.bits_lt))

theorem bits_xor (h : a.width = b.width) : (a.xor b).bits = a.bits ^^^ b.bits :=
  Nat.mod_eq_of_lt (Nat.xor_lt_two_pow a.bits_lt (h ▸ b.bits_lt))

theorem bits_shl (a b : Word) : (a.shl b).bits = a.bits * twoPow b.bits % twoPow a.width := by
  unfold shl
  split
  · show (a.bits <<< b.bits) % twoPow a.width = _
    rw [Nat.shiftLeft_eq]
    rfl
  · rename_i hle
    have hdvd : twoPow a.width ∣ a.bits * twoPow b.bits :=
      Nat.dvd_trans (Nat.pow_dvd_pow 2 (Nat.le_of_not_lt hle)) (Nat.dvd_mul_left _ _)
    rw [Nat.mod_eq_zero_of_dvd hdvd]
    exact Nat.zero_mod _

theorem InRange.ediv {w : Nat} {x d : Int} (hx : InRange w x) (hd : 0 < d) : InRange w (x / d) := by
  obtain ⟨hlo, hhi⟩ := hx
  have hgrow : (twoPow (w - 1) : Int) ≤ twoPow (w - 1) * d := by
    have := Int.mul_le_mul_of_nonneg_left (show 1 ≤ d from hd) (Int.natCast_nonneg (twoPow (w - 1)))
    rwa [Int.mul_one] at this
  refine ⟨(Int.le_ediv_iff_mul_le hd).2 ?_,
    (Int.ediv_lt_iff_lt_mul hd).2 (Int.lt_of_lt_of_le hhi hgrow)⟩
  rw [Int.neg_mul]
  omega

theorem inRange_zero (w : Nat) : InRange w 0 := by
  have := twoPow_pos (w - 1)
  constructor <;> omega

theorem inRange_neg_one (w : Nat) : InRange w (-1) := by
  have := twoPow_pos (w - 1)
  constructor <;> omega

theorem toInt_ones {w : Nat} (pos : 0 < w) : (wrap w pos (twoPow w - 1)).toInt = -1 := by
  refine toInt_eq (inRange_neg_one w) ?_
  have hpos := twoPow_pos w
  show (-1 : Int) % twoPow w = (((twoPow w - 1) % twoPow w : Nat) : Int)
  rw [Int.neg_emod_eq_sub_emod, Int.natCast_emod, Int.ofNat_sub hpos]
  rfl

theorem toInt_shr (a b : Word) : (a.shr b).toInt = a.toInt / twoPow b.bits := by
  have hpos : (0 : Int) < twoPow b.bits := Int.ofNat_lt.2 (twoPow_pos b.bits)
  obtain ⟨hlo, hhi⟩ := toInt_inRange a
  unfold shr
  split
  · rw [Int.shiftRight_eq_div_pow]
    exact toInt_wrapInt a.width_pos ((toInt_inRange a).ediv hpos)
  · rename_i hle
    have hbig : twoPow (a.width - 1) ≤ twoPow b.bits := Nat.pow_le_pow_right (by decide) (by omega)
    split
    · rename_i hneg
      have hneg := (isNegative_iff a).1 hneg
      have h1 := (Int.le_ediv_iff_mul_le hpos (a := -1) (b := a.toInt)).2 (by omega)
      have h2 := (Int.ediv_lt_iff_lt_mul hpos (a := a.toInt) (b := 0)).2 (by omega)
      rw [toInt_ones]
      omega
    · rename_i hneg
      have hneg : ¬ a.toInt < 0 := fun h => hneg ((isNegative_iff a).2 h)
      have h1 := (Int.le_ediv_iff_mul_le hpos (a := 0) (b := a.toInt)).2 (by omega)
      have h2 := (Int.ediv_lt_iff_lt_mul hpos (a := a.toInt) (b := 1)).2 (by omega)
      have hzero : (wrap a.width a.width_pos 0).toInt = 0 :=
        toInt_eq (inRange_zero _) (Int.zero_emod _)
      rw [hzero]
      omega

theorem InRange.tdiv {w : Nat} {x y : Int} (hx : InRange w x) (hy : y ≠ 0)
    (hmin : ¬ (x = -twoPow (w - 1) ∧ y = -1)) : InRange w (x.tdiv y) := by
  obtain ⟨hlo, hhi⟩ := hx
  have habs := Int.natAbs_tdiv_le_natAbs x y
  by_cases hneg : y = -1
  · subst hneg
    rw [Int.tdiv_neg, Int.tdiv_one]
    constructor <;> omega
  · have hlt : x.tdiv y < twoPow (w - 1) := by
      refine Int.lt_of_not_ge fun hge => ?_
      -- the quotient is as large as the dividend, so that the divisor is 1 or -1
      have hpos := twoPow_pos (w - 1)
      have hone : ¬ 1 < y.natAbs := fun hlt => by
        have hdiv := Nat.div_lt_self (show 0 < x.natAbs by omega) hlt
        have hquot : (x.tdiv y).natAbs = x.natAbs / y.natAbs := Int.natAbs_tdiv x y
        omega
      obtain rfl : y = 1 := by omega
      rw [Int.tdiv_one] at hge
      omega
    constructor <;> omega

theorem inRange_tmod {w : Nat} (x : Int) {y : Int} (hy : InRange w y) (h0 : y ≠ 0) :
    InRange w (x.tmod y) := by
  obtain ⟨hlo, hhi⟩ := hy
  have habs := Int.natAbs_tmod x y
  have hlt : x.natAbs % y.natAbs < y.natAbs := Nat.mod_lt _ (Int.natAbs_pos.2 h0)
  constructor <;> omega

theorem isZero_iff (b : Word) : b.isZero = true ↔ b.bits = 0 := beq_iff_eq

theorem toInt_ne_zero (h : b.bits ≠ 0) : b.toInt ≠ 0 := by
  intro h0
  have := toInt_emod b
  rw [h0, Int.zero_emod] at this
  omega

theorem udiv?_ok (h0 : b.bits ≠ 0) : ∃ r, a.udiv? b = some r ∧ r.bits = a.bits / b.bits := by
  refine ⟨_, if_neg (mt (isZero_iff b).1 h0), Nat.mod_eq_of_lt ?_⟩
  exact Nat.lt_of_le_of_lt (Nat.div_le_self _ _) a.bits_lt

theorem urem?_ok (h0 : b.bits ≠ 0) : ∃ r, a.urem? b = some r ∧ r.bits = a.bits % b.bits := by
  refine ⟨_, if_neg (mt (isZero_iff b).1 h0), Nat.mod_eq_of_lt ?_⟩
  exact Nat.lt_of_le_of_lt (Nat.mod_le _ _) a.bits_lt

theorem sdiv?_ok (h0 : b.bits ≠ 0) : ∃ r, a.sdiv? b = some r ∧
    r.toInt =
    if a.toInt = -(twoPow (a.width - 1) : Int) ∧ b.toInt = -1 then -(twoPow (a.width - 1) : Int)
    else a.toInt.tdiv b.toInt := by
  refine ⟨_, if_neg (mt (isZero_iff b).1 h0), ?_⟩
  split
  · rename_i hmin
    obtain ⟨ha, hb⟩ := hmin
    have hpos := twoPow_pos (a.width - 1)
    refine toInt_eq (show InRange a.width _ by constructor <;> omega) ?_
    have hhalf : (twoPow a.width : Int) = 2 * twoPow (a.width - 1) :=
      congrArg Nat.cast (twoPow_half a.width_pos)
    show -(twoPow (a.width - 1) : Int) % twoPow a.width = _
    rw [bits_wrapInt, ha, hb, Int.tdiv_neg, Int.tdiv_one, Int.neg_neg, Int.neg_emod_eq_sub_emod]
    congr 1
    omega
  · rename_i hmin
    exact toInt_wrapInt a.width_pos ((toInt_inRange a).tdiv (toInt_ne_zero h0) hmin)

theorem srem?_ok (h : a.width = b.width) (h0 : b.bits ≠ 0) :
    ∃ r, a.srem? b = some r ∧ r.toInt = a.toInt.tmod b.toInt :=
  ⟨_, if_neg (mt (isZero_iff b).1 h0),
    toInt_wrapInt a.width_pos (inRange_tmod a.toInt (h ▸ toInt_inRange b) (toInt_ne_zero h0))⟩

end Operations

/-- Whatever an operation yields has the width that goes with it, and a pattern of that width. -/
structure Fits (a b : Word) : Prop where
  unary : ∀ {op r}, evalUnary op a = some r → r.width = a.width ∧ r.bits < 2 ^ a.width
  binary : ∀ {op r}, evalBinary op a b = .ok (some r) → r.width = a.width ∧ r.bits < 2 ^ a.width
  compare : ∀ {op r}, evalCompare op a b = .ok (some r) → r.width = 1 ∧ r.bits < 2 ^ 1
  cast : ∀ {op w r}, evalCast op a w = .ok (some r) → r.width = w ∧ r.bits < 2 ^ w

/-- The signed value is the one integer in the signed range that is congruent to the pattern. -/
structure TwosComplement (a : Word) : Prop where
  range : -2 ^ (a.width - 1) ≤ a.toInt ∧ a.toInt < 2 ^ (a.width - 1)
  congruent : a.toInt % 2 ^ a.width = a.bits
  unique : ∀ x : Int, -2 ^ (a.width - 1) ≤ x → x < 2 ^ (a.width - 1) →
    x % 2 ^ a.width = a.bits → x = a.toInt

/-- These operations are those on integers, or on the bits, modulo the number of patterns. -/
structure Wraps (a b : Word) : Prop where
  neg : ∃ r, evalUnary .neg a = some r ∧ (r.bits : Int) = -a.bits % 2 ^ a.width
  not : ∃ r, evalUnary .not a = some r ∧
    ∀ i, r.bits.testBit i = (decide (i < a.width) && !a.bits.testBit i)
  add : ∃ r, evalBinary .add a b = .ok (some r) ∧ r.bits = (a.bits + b.bits) % 2 ^ a.width
  sub : ∃ r, evalBinary .sub a b = .ok (some r) ∧ (r.bits : Int) = (a.bits - b.bits) % 2 ^ a.width
  mul : ∃ r, evalBinary .mul a b = .ok (some r) ∧ r.bits = a.bits * b.bits % 2 ^ a.width
  and : ∃ r, evalBinary .and a b = .ok (some r) ∧ r.bits = a.bits &&& b.bits
  or : ∃ r, evalBinary .or a b = .ok (some r) ∧ r.bits = a.bits ||| b.bits
  xor : ∃ r, evalBinary .xor a b = .ok (some r) ∧ r.bits = a.bits ^^^ b.bits

/-- Division is defined for divisors other than zero. Of unsigned values it rounds down, of signed
values towards zero with a remainder of the sign of the dividend; only the minimum divided by -1
wraps. -/
structure Divides (a b : Word) : Prop where
  undefined_iff : ∀ op ∈ [Opcode.udiv, .urem, .sdiv, .srem],
    evalBinary op a b = .ok none ↔ b.bits = 0
  udiv : b.bits ≠ 0 → ∃ r, evalBinary .udiv a b = .ok (some r) ∧ r.bits = a.bits / b.bits
  urem : b.bits ≠ 0 → ∃ r, evalBinary .urem a b = .ok (some r) ∧ r.bits = a.bits % b.bits
  sdiv : b.bits ≠ 0 → ∃ r, evalBinary .sdiv a b = .ok (some r) ∧ r.toInt =
    if a.toInt = -2 ^ (a.width - 1) ∧ b.toInt = -1 then -2 ^ (a.width - 1) else a.toInt.tdiv b.toInt
  srem : b.bits ≠ 0 → ∃ r, evalBinary .srem a b = .ok (some r) ∧ r.toInt = a.toInt.tmod b.toInt

/-- A shift to the left multiplies modulo the number of patterns, one to the right divides the
signed value and rounds down, also by amounts beyond the width. -/
structure Shifts (a b : Word) : Prop where
  shl : ∃ r, evalBinary .shl a b = .ok (some r) ∧ r.bits = a.bits * 2 ^ b.bits % 2 ^ a.width
  shr : ∃ r, evalBinary .shr a b = .ok (some r) ∧ r.toInt = a.toInt / 2 ^ b.bits

/-- The answer is a single bit: 1 if the statement holds and 0 if it does not. -/
def Says (answer : Checked (Option Word)) (holds : Prop) [Decidable holds] : Prop :=
  ∃ r, answer = .ok (some r) ∧ r.width = 1 ∧ r.bits = if holds then 1 else 0

/-- Comparisons say what the order of the unsigned or the signed values says. -/
structure Compares (a b : Word) : Prop where
  eq : Says (evalCompare .eq a b) (a.bits = b.bits)
  neq : Says (evalCompare .neq a b) (a.bits ≠ b.bits)
  ult : Says (evalCompare .ult a b) (a.bits < b.bits)
  ugt : Says (evalCompare .ugt a b) (a.bits > b.bits)
  ule : Says (evalCompare .ule a b) (a.bits ≤ b.bits)
  uge : Says (evalCompare .uge a b) (a.bits ≥ b.bits)
  slt : Says (evalCompare .slt a b) (a.toInt < b.toInt)
  sgt : Says (evalCompare .sgt a b) (a.toInt > b.toInt)
  sle : Says (evalCompare .sle a b) (a.toInt ≤ b.toInt)
  sge : Says (evalCompare .sge a b) (a.toInt ≥ b.toInt)

/-- A word that gets wider keeps its unsigned or its signed value; a word that gets narrower keeps
its lower bits. -/
structure Casts (a : Word) : Prop where
  zext : ∀ {w}, a.width ≤ w → ∃ r, evalCast .zext a w = .ok (some r) ∧ r.bits = a.bits
  sext : ∀ {w}, a.width ≤ w → ∃ r, evalCast .sext a w = .ok (some r) ∧ r.toInt = a.toInt
  trunc : ∀ {w}, 0 < w → ∃ r, evalCast .trunc a w = .ok (some r) ∧ r.bits = a.bits % 2 ^ w

section Computed

variable {a b : Word}

theorem fits (a b : Word) : Fits a b := by
  have hbits : ∀ {r : Word} {w}, r.width = w → r.width = w ∧ r.bits < 2 ^ w :=
    fun {r w} h => ⟨h, h ▸ r.bits_lt⟩
  exact ⟨fun h => hbits (evalUnary_width h), fun h => hbits (evalBinary_width h),
    fun h => hbits (evalCompare_width h),
    fun h => hbits (evalCast_width h)⟩

theorem twosComplement (a : Word) : TwosComplement a := by
  obtain ⟨hlo, hhi⟩ := toInt_inRange a
  have hmod := toInt_emod a
  rw [natCast_twoPow] at hlo hhi hmod
  refine ⟨⟨hlo, hhi⟩, hmod, fun x hx hx' h => (toInt_eq ⟨?_, ?_⟩ ?_).symm⟩
  · rwa [natCast_twoPow]
  · rwa [natCast_twoPow]
  · rwa [natCast_twoPow]

theorem ofInt_wraps {w : Nat} (pos : 0 < w) (x : Int) :
    ∃ c, ofInt w x = .ok c ∧ c.width = w ∧ c.toInt % 2 ^ w = x % 2 ^ w := by
  have hmod := toInt_wrapInt_emod pos x
  rw [natCast_twoPow] at hmod
  exact ⟨_, dif_pos pos, rfl, hmod⟩

theorem wraps (h : a.width = b.width) : Wraps a b where
  neg := ⟨_, rfl, by rw [bits_neg, natCast_twoPow]⟩
  not := ⟨_, rfl, testBit_not a⟩
  add := ⟨_, if_pos h, rfl⟩
  sub := ⟨_, if_pos h, by rw [bits_sub h, natCast_twoPow]⟩
  mul := ⟨_, if_pos h, rfl⟩
  and := ⟨_, if_pos h, bits_and h⟩
  or := ⟨_, if_pos h, bits_or h⟩
  xor := ⟨_, if_pos h, bits_xor h⟩

theorem evalDivision (h : a.width = b.width) {op : Opcode} {q : Option Word}
    (hq : (op = .udiv ∧ q = a.udiv? b) ∨ (op = .urem ∧ q = a.urem? b) ∨
      (op = .sdiv ∧ q = a.sdiv? b) ∨
      (op = .srem ∧ q = a.srem? b)) : evalBinary op a b = .ok q ∧ (q = none ↔ b.bits = 0) := by
  have hzero : ∀ {w : Word}, (if b.isZero then none else some w) = none ↔ b.bits = 0 := by
    intro w
    rw [← isZero_iff]
    simp
  rcases hq with ⟨rfl, rfl⟩ | ⟨rfl, rfl⟩ | ⟨rfl, rfl⟩ | ⟨rfl, rfl⟩ <;> exact ⟨if_pos h, hzero⟩

theorem divides (h : a.width = b.width) : Divides a b := by
  have hudiv := evalDivision h (.inl ⟨rfl, rfl⟩)
  have hurem := evalDivision h (.inr (.inl ⟨rfl, rfl⟩))
  have hsdiv := evalDivision h (.inr (.inr (.inl ⟨rfl, rfl⟩)))
  have hsrem := evalDivision h (.inr (.inr (.inr ⟨rfl, rfl⟩)))
  refine ⟨fun op hop => ?_, fun h0 => ?_, fun h0 => ?_, fun h0 => ?_, fun h0 => ?_⟩
  · have hnone : ∀ {op q}, evalBinary op a b = .ok q ∧ (q = none ↔ b.bits = 0) →
        (evalBinary op a b = .ok none ↔ b.bits = 0) := by
      rintro op q ⟨he, hq⟩
      rw [he, Except.ok.injEq, hq]
    simp only [List.mem_cons, List.not_mem_nil, or_false] at hop
    rcases hop with rfl | rfl | rfl | rfl
    · exact hnone hudiv
    · exact hnone hurem
    · exact hnone hsdiv
    · exact hnone hsrem
  · obtain ⟨r, hr, hbits⟩ := udiv?_ok (a := a) h0
    exact ⟨r, by rw [hudiv.1, hr], hbits⟩
  · obtain ⟨r, hr, hbits⟩ := urem?_ok (a := a) h0
    exact ⟨r, by rw [hurem.1, hr], hbits⟩
  · obtain ⟨r, hr, hval⟩ := sdiv?_ok (a := a) h0
    rw [natCast_twoPow] at hval
    exact ⟨r, by rw [hsdiv.1, hr], hval⟩
  · obtain ⟨r, hr, hval⟩ := srem?_ok h h0
    exact ⟨r, by rw [hsrem.1, hr], hval⟩

theorem shifts (h : a.width = b.width) : Shifts a b where
  shl := ⟨_, if_pos h, bits_shl a b⟩
  shr := ⟨_, if_pos h, by rw [toInt_shr, natCast_twoPow]⟩

theorem bits_ofBool (p : Prop) [Decidable p] : (ofBool (decide p)).bits = if p then 1 else 0 := by
  by_cases hp : p
  · rw [decide_eq_true hp, if_pos hp]
    rfl
  · rw [decide_eq_false hp, if_neg hp]
    rfl

theorem says_of_order {op : Opcode} {p : Prop} [Decidable p]
    (h : evalOrder op a b = .ok (some (decide p))) : Says (evalCompare op a b) p := by
  refine ⟨ofBool (decide p), ?_, rfl, bits_ofBool p⟩
  unfold evalCompare
  rw [h]
  rfl

theorem compares (h : a.width = b.width) : Compares a b := by
  have heq : (a == b) = decide (a.bits = b.bits) := by
    rw [Bool.eq_iff_iff, beq_iff_eq, decide_eq_true_eq]
    exact ⟨congrArg bits, eq_of_bits h⟩
  have hult : a.ult b = .ok (decide (a.bits < b.bits)) ∧ b.ult a = .ok (decide (b.bits < a.bits)) :=
    ⟨if_pos h, if_pos h.symm⟩
  have hslt : a.slt b = .ok (decide (a.toInt < b.toInt)) ∧
      b.slt a = .ok (decide (b.toInt < a.toInt)) := ⟨if_pos h, if_pos h.symm⟩
  constructor <;> refine says_of_order ?_ <;>
    simp only [evalOrder, bne, heq, hult, hslt, map_ok, ge_iff_le, gt_iff_lt, ne_eq, ← Nat.not_lt,
      ← Int.not_lt, decide_not]

theorem casts (a : Word) : Casts a := by
  refine ⟨fun {w} hle => ?_, fun {w} hle => ?_, fun {w} pos => ?_⟩
  · have pos : 0 < w := Nat.lt_of_lt_of_le a.width_pos hle
    refine ⟨wrap w pos a.bits, by simp only [evalCast, ofNat, dif_pos pos, map_ok],
      Nat.mod_eq_of_lt ?_⟩
    exact Nat.lt_of_lt_of_le a.bits_lt (Nat.pow_le_pow_right (by decide) hle)
  · have pos : 0 < w := Nat.lt_of_lt_of_le a.width_pos hle
    have hgrow : twoPow (a.width - 1) ≤ twoPow (w - 1) :=
      Nat.pow_le_pow_right (by decide) (by omega)
    refine ⟨wrapInt w pos a.toInt, by simp only [evalCast, ofInt, dif_pos pos, map_ok],
      toInt_wrapInt pos ?_⟩
    obtain ⟨hlo, hhi⟩ := toInt_inRange a
    constructor <;> omega
  · exact ⟨wrap w pos a.bits, by simp only [evalCast, ofNat, dif_pos pos, map_ok], rfl⟩

/-- The operations on two words of one width are those of two's complement arithmetic. -/
theorem arithmetic_exact (h : a.width = b.width) : Fits a b ∧ TwosComplement a ∧
    (∀ w x, 0 < w → ∃ c, ofInt w x = .ok c ∧ c.width = w ∧ c.toInt % 2 ^ w = x % 2 ^ w) ∧
    Wraps a b ∧ Divides a b ∧ Shifts a b ∧ Compares a b ∧ Casts a :=
  ⟨fits a b, twosComplement a, fun _ x pos => ofInt_wraps pos x, wraps h, divides h, shifts h,
    compares h, casts a⟩

/-- The minimum divided by -1 wraps, its remainder is zero, and it is less than -1. -/
theorem minimum_exact : ∃ q r c,
    evalBinary .sdiv (wrap 8 (by decide) 128) (wrap 8 (by decide) 255) = .ok (some q) ∧
    q.toInt = -128 ∧
    evalBinary .srem (wrap 8 (by decide) 128) (wrap 8 (by decide) 255) = .ok (some r) ∧
    r.toInt = 0 ∧
    evalCompare .slt (wrap 8 (by decide) 128) (wrap 8 (by decide) 255) = .ok (some c) ∧
    c.width = 1 ∧ c.bits = 1 := by
  obtain ⟨-, -, -, -, hdiv, -, hcompares, -⟩ :=
    arithmetic_exact (a := wrap 8 (by decide) 128) (b := wrap 8 (by decide) 255) rfl
  obtain ⟨q, hq, hqval⟩ := hdiv.sdiv (by decide)
  obtain ⟨r, hr, hrval⟩ := hdiv.srem (by decide)
  obtain ⟨c, hc, hwidth, hbits⟩ := hcompares.slt
  exact ⟨q, r, c, hq, hqval.trans (by decide), hr, hrval.trans (by decide), hc, hwidth,
    hbits.trans (by decide)⟩

end Computed

end MiddleEnd.Word
