import MiddleEnd.Proofs.Folding
import MiddleEnd.Transform.ConstantFacts

/-!
# Knowledge about values

The order on what may be known about a value, and what such knowledge admits at run time: unknown
values hold nothing defined, constants hold their word. Merging only moves up, at most twice.
Operations without effects are evaluated without a fault on operands whose constants have the right
types, to a constant of the type of the result, and what they yield at run time is admitted.
-/

namespace MiddleEnd

namespace LatticeValue

/-- `y` takes account of all that `x` tells. -/
def Le (x y : LatticeValue) : Prop := y.meet x = y

theorem Le.refl (x : LatticeValue) : x.Le x := by
  cases x <;> simp [Le, meet]

theorem le_varying (x : LatticeValue) : x.Le .varying := by
  cases x <;> rfl

theorem unknown_le (x : LatticeValue) : Le .unknown x := by
  cases x <;> rfl

theorem le_meet_left (x y : LatticeValue) : x.Le (x.meet y) := by
  cases x <;> cases y <;> simp only [Le, meet] <;> grind [meet]

theorem le_meet_right (x y : LatticeValue) : y.Le (x.meet y) := by
  cases x <;> cases y <;> simp only [Le, meet] <;> grind [meet]

theorem Le.trans {x y z : LatticeValue} (h : x.Le y) (h' : y.Le z) : x.Le z := by
  cases x <;> cases y <;> cases z <;> simp only [Le, meet] at * <;> grind

theorem const_of_meet {x y : LatticeValue} {w : Word} (h : x.meet y = .const w) :
    x = .const w ∨ y = .const w := by
  cases x <;> cases y <;> simp only [meet] at h <;> grind

def slack : LatticeValue → Nat
  | unknown => 2
  | const _ => 1
  | varying => 0

theorem slack_le (x : LatticeValue) : x.slack ≤ 2 := by
  cases x <;> simp [slack]

theorem slack_meet_lt {x y : LatticeValue} (h : x.meet y ≠ x) : (x.meet y).slack < x.slack := by
  cases x <;> cases y <;> simp only [meet, ne_eq, not_true] at h ⊢ <;> grind [slack]

theorem Le.slack_lt {x y : LatticeValue} (h : x.Le y) (hne : y ≠ x) : y.slack < x.slack := by
  cases x <;> cases y <;> simp only [Le, meet] at h <;> grind [slack]

def Admits : LatticeValue → Datum → Prop
  | unknown, d => d = .undefined
  | const w, d => d = .undefined ∨ d = .word w
  | varying, _ => True

theorem admits_undefined (x : LatticeValue) : x.Admits .undefined := by
  cases x with
  | unknown => rfl
  | const w => exact .inl rfl
  | varying => trivial

theorem Admits.mono {x y : LatticeValue} {d : Datum} (hd : x.Admits d) (h : x.Le y) :
    y.Admits d := by
  cases x with
  | unknown =>
    cases hd
    exact admits_undefined y
  | const w =>
    cases y with
    | unknown => cases h
    | const v =>
      simp only [Le, meet] at h
      split at h
      · rename_i hvw
        rw [hvw]
        exact hd
      · cases h
    | varying => trivial
  | varying =>
    cases y with
    | varying => trivial
    | _ => cases h

theorem admits_const {w : Word} {d : Datum} : (const w).Admits d ↔ d = .undefined ∨ d = .word w :=
  Iff.rfl

theorem admits_word {x : LatticeValue} {w : Word} :
    x.Admits (.word w) ↔ x = .varying ∨ x = .const w := by
  cases x with
  | unknown => simp [Admits]
  | const v => simp [Admits, eq_comm]
  | varying => simp [Admits]

theorem ofResult_eq_const {r : Option Word} {w : Word} : ofResult r = .const w ↔ r = some w := by
  cases r <;> simp [ofResult]

end LatticeValue

namespace Facts

/-- What is known about a value, whether it is there or not. -/
def known (facts : Facts) (f : Func) (v : ValueId) : LatticeValue :=
  match f.flow.origin? v with
  | some (.const w) => .const w
  | some (.undef _) => .unknown
  | some (.reg _) => .varying
  | _ => (facts.values.get? v).getD .unknown

theorem value_ok {facts : Facts} {f : Func} {v : ValueId} {o : ValueDef}
    (h : f.flow.origin? v = some o) :
    facts.value f v = .ok (facts.known f v) := by
  unfold value known
  rw [DataFlow.origin_eq_ok.2 h, h]
  cases o <;> rfl

theorem values_ok {facts : Facts} {f : Func} {vs : List ValueId}
    (h : ∀ v ∈ vs, ∃ o, f.flow.origin? v = some o) :
    vs.mapM (facts.value f) = .ok (vs.map (facts.known f)) := by
  apply mapM_of_forall
  intro v hv
  obtain ⟨o, ho⟩ := h v hv
  exact value_ok ho

theorem known_result {facts : Facts} {f : Func} {v : ValueId} {ty : Ty} {i : InstId}
    (h : f.flow.origin? v = some (.result ty i)) :
    facts.known f v = (facts.values.get? v).getD .unknown := by
  unfold known
  rw [h]

def Typed (facts : Facts) (f : Func) : Prop :=
  ∀ {v w}, facts.known f v = .const w → f.tyOf v = w.ty

end Facts

theorem Word.or_allOnes {n a : Nat} (h : a < twoPow n) : a ||| (twoPow n - 1) = twoPow n - 1 := by
  have hpow : twoPow n = 2 ^ n := rfl
  rw [hpow] at h ⊢
  apply Nat.eq_of_testBit_eq
  intro i
  rw [Nat.testBit_or, Nat.testBit_two_pow_sub_one]
  by_cases hi : i < n
  · simp [hi]
  · have hbig : a < 2 ^ i := Nat.lt_of_lt_of_le h (Nat.pow_le_pow_right (by decide) (by omega))
    simp [hi, Nat.testBit_lt_two_pow hbig]

namespace Propagation

theorem absorb_ok (op : Opcode) {n : Nat} (hn : n ≠ 0) (x y : LatticeValue) :
    ∃ r, absorb op n x y = .ok r := by
  have hpos : 0 < n := by omega
  unfold absorb Word.allOnes Word.ofNat
  simp only [hpos, dif_pos]
  split
  · split <;> exact ⟨_, rfl⟩
  · split <;> exact ⟨_, rfl⟩
  · split <;> exact ⟨_, rfl⟩
  · exact ⟨_, rfl⟩

theorem absorbed_zero {op : Opcode} (hop : op = .mul ∨ op = .and) {n : Nat} {a b r w : Word}
    (hr : Word.evalBinary op a b = .ok (some r))
    (hz : (a.isZero = true ∧ a.width = n) ∨ (b.isZero = true ∧ b.width = n))
    (hw : Word.ofNat n 0 = .ok w) : r = w := by
  have hab : a.width = b.width := by
    unfold Word.evalBinary at hr
    split at hr
    · assumption
    · cases hr
  unfold Word.ofNat at hw
  split at hw
  case isFalse => cases hw
  cases hw
  have hn : a.width = n := by
    rcases hz with ⟨-, h⟩ | ⟨-, h⟩
    · exact h
    · rw [hab, h]
  refine Word.eq_of_bits ((Word.evalBinary_width hr).trans hn) ?_
  rcases hop with rfl | rfl
  · simp only [Word.evalBinary, if_pos hab, Except.ok.injEq, Option.some.injEq] at hr
    subst hr
    rcases hz with ⟨h, -⟩ | ⟨h, -⟩ <;> simp [Word.mul, Word.wrap, beq_iff_eq.1 h]
  · simp only [Word.evalBinary, if_pos hab, Except.ok.injEq, Option.some.injEq] at hr
    subst hr
    rcases hz with ⟨h, -⟩ | ⟨h, -⟩ <;> simp [Word.and, Word.wrap, beq_iff_eq.1 h]

theorem absorbed_ones {n : Nat} {a b r w : Word} (hr : Word.evalBinary .or a b = .ok (some r))
    (hz : (a.isAllOnes = true ∧ a.width = n) ∨ (b.isAllOnes = true ∧ b.width = n))
    (hw : Word.allOnes n = .ok w) :
    r = w := by
  have hab : a.width = b.width := by
    unfold Word.evalBinary at hr
    split at hr
    · assumption
    · cases hr
  unfold Word.allOnes Word.ofNat at hw
  split at hw
  case isFalse => cases hw
  cases hw
  have hn : a.width = n := by
    rcases hz with ⟨-, h⟩ | ⟨-, h⟩
    · exact h
    · rw [hab, h]
  refine Word.eq_of_bits ((Word.evalBinary_width hr).trans hn) ?_
  simp only [Word.evalBinary, if_pos hab, Except.ok.injEq, Option.some.injEq] at hr
  subst hr
  have hbits : a.bits ||| b.bits = twoPow n - 1 := by
    rcases hz with ⟨h, -⟩ | ⟨h, -⟩
    · rw [beq_iff_eq.1 h, hn, Nat.or_comm]
      exact Word.or_allOnes (by rw [← hn, hab]; exact b.bits_lt)
    · rw [beq_iff_eq.1 h, ← hab, hn]
      exact Word.or_allOnes (by rw [← hn]; exact a.bits_lt)
  show (a.bits ||| b.bits) % twoPow a.width = _
  rw [hbits, hn]
  rfl

/-- What an absorbing operand decides is what the operation yields on all words that are
admitted. -/
theorem absorb_sound {op : Opcode} {n : Nat} {x y : LatticeValue} {w : Word}
    (h : absorb op n x y = .ok (some w)) (hx : ∀ a, x = .const a → a.width = n)
    (hy : ∀ b, y = .const b → b.width = n) :
    w.width = n ∧ ∀ {a b r}, x.Admits (.word a) → y.Admits (.word b) → Word.evalBinary op a b = .ok
      (some r) → r = w := by
  have hheld : ∀ {z : LatticeValue} {p : Word → Bool} {a : Word}, z.const?.any p = true →
      z.Admits (.word a) →
      (∀ b, z = .const b → b.width = n) → p a = true ∧ a.width = n := by
    intro z p a hp ha hz
    cases z with
    | const v =>
      rcases LatticeValue.admits_word.1 ha with hv | hv
      · cases hv
      · cases hv
        exact ⟨hp, hz _ rfl⟩
    | _ => cases hp
  have hwidth : ∀ {m : Nat}, Word.ofNat n m = .ok w → w.width = n := by
    intro m hm
    unfold Word.ofNat at hm
    split at hm
    · cases hm
      rfl
    · cases hm
  unfold absorb at h
  split at h
  case h_4 => cases h
  case h_3 =>
    dsimp only at h
    split at h
    case isFalse => cases h
    rename_i hz
    obtain ⟨v, hv, he⟩ := bind_eq_ok.1 h
    cases he
    refine ⟨hwidth hv, fun ha hb hr => absorbed_ones hr ?_ hv⟩
    rcases Bool.or_eq_true_iff.1 hz with hz | hz
    · exact .inl (hheld hz ha hx)
    · exact .inr (hheld hz hb hy)
  all_goals
    dsimp only at h
    split at h
    case isFalse => cases h
    rename_i hz
    obtain ⟨v, hv, he⟩ := bind_eq_ok.1 h
    cases he
    refine ⟨hwidth hv, fun ha hb hr => absorbed_zero (by simp) hr ?_ hv⟩
    rcases Bool.or_eq_true_iff.1 hz with hz | hz
    · exact .inl (hheld hz ha hx)
    · exact .inr (hheld hz hb hy)

theorem evalPure_congr {f : Func} {facts facts' : Facts} {i : InstId} {inst : Inst}
    (ho : ∀ v ∈ inst.args, ∃ o, f.flow.origin? v = some o)
    (h : ∀ v ∈ inst.args, facts'.known f v = facts.known f v) :
    evalPure f facts' i inst = evalPure f facts i inst := by
  unfold evalPure
  rw [Facts.values_ok ho, Facts.values_ok ho, List.map_congr_left h]

section Pure

variable {f : Func} {facts : Facts} {i : InstId}

/-- What is expected of the evaluation of an instruction: a constant has the type of the result, and
what the instruction yields on admitted operands is admitted. -/
structure Evaluates (f : Func) (facts : Facts) (i : InstId) (inst : Inst) (x : LatticeValue) :
    Prop where
  typed : ∀ w, x = .const w → f.yieldTy i = w.ty
  admits : ∀ {s : Frame} {d : Datum}, (∀ v ∈ inst.args, ∀ a, s.read f v = .ok a →
    (facts.known f v).Admits a) →
    Frame.Gives f s i inst d → x.Admits d

theorem evaluates_varying (inst : Inst) : Evaluates f facts i inst .varying :=
  ⟨fun _ h => (nomatch h), fun _ _ => trivial⟩

theorem evaluates_unknown {inst : Inst} (hpure : inst.op.isPure = true)
    (hu : ∃ v ∈ inst.args, facts.known f v = .unknown) : Evaluates f facts i inst .unknown := by
  refine ⟨fun _ h => (nomatch h), fun {s d} hread hg => ?_⟩
  obtain ⟨v, hv, hk⟩ := hu
  have hundef : ∀ {a}, s.read f v = .ok a → a = .undefined := by
    intro a ha
    have := hread v hv a ha
    rw [hk] at this
    exact this
  cases hg with
  | alloca => cases hpure
  | load => cases hpure
  | unary _ _ hx hd =>
    obtain rfl := List.mem_singleton.1 hv
    cases hundef hx
    exact (Except.ok.inj hd).symm
  | @binary _ _ _ a b _ _ _ hx hy hd =>
    have hmem : Datum.undefined ∈ [a, b] := by
      rcases List.mem_cons.1 hv with rfl | hv
      · exact List.mem_cons.2 (.inl (hundef hx).symm)
      · obtain rfl := List.mem_singleton.1 hv
        exact List.mem_cons.2 (.inr (List.mem_singleton.2 (hundef hy).symm))
    unfold Frame.compute at hd
    rw [if_pos hmem] at hd
    exact (Except.ok.inj hd).symm

theorem evaluates_word {op : Opcode} {x : ValueId} {a : Word} {r : Option Word}
    (hpure : op.isPure = true) (hx : facts.known f x = .const a)
    (hr : ∀ w, Frame.onWord f i op a = .ok w → r = some w)
    (hty : ∀ w, r = some w → f.yieldTy i = w.ty) :
    Evaluates f facts i (.unary op x) (.ofResult r) := by
  refine ⟨fun w hw => hty w (LatticeValue.ofResult_eq_const.1 hw), fun {s d} hread hg => ?_⟩
  cases hg with
  | load => cases hpure
  | unary _ _ hrx hd =>
    have hadm := hread x (List.mem_singleton.2 rfl) _ hrx
    rw [hx] at hadm
    rcases hadm with rfl | rfl
    · cases hd
      exact LatticeValue.admits_undefined _
    · obtain ⟨w, hw, rfl⟩ := Frame.compute_word.1 hd
      rw [hr w hw]
      exact .inr rfl

theorem evaluates_words {op : Opcode} {x y : ValueId} {r : LatticeValue}
    (hr : ∀ a b w, (facts.known f x).Admits (.word a) → (facts.known f y).Admits (.word b) →
      Frame.onWords i op a b = .ok w → r.Admits (.word w))
    (hty : ∀ w, r = .const w → f.yieldTy i = w.ty) : Evaluates f facts i (.binary op x y) r := by
  refine ⟨hty, fun {s d} hread hg => ?_⟩
  cases hg with
  | binary _ _ hrx hry hd =>
    have hx := hread x (by simp [Inst.args]) _ hrx
    have hy := hread y (by simp [Inst.args]) _ hry
    unfold Frame.compute at hd
    split at hd
    · cases hd
      exact LatticeValue.admits_undefined _
    · split at hd
      · rename_i h
        cases h
      · rename_i a b h
        cases h
        obtain ⟨w, hw, rfl⟩ := map_eq_ok.1 hd
        exact hr a b w hx hy hw
      · cases hd

/-- An operation on one word is evaluated, to the word that it yields if it yields one. -/
theorem evalKnown_word {op : Opcode} {x : ValueId} {a : Word} (hf : f.flow.Exact)
    (hform : Verify.formFits (.unary op x) = true)
    (hrule : f.Rule f.tyOf (f.yieldTy i) (.unary op x)) (hpure : op.isPure = true)
    (hwide : f.yieldTy i ≠ .int 0) (ha : f.tyOf x = a.ty) :
    ∃ r, evalKnown f i op [.const a] = .ok (.ofResult r) ∧
      (∀ w, Frame.onWord f i op a = .ok w → r = some w) ∧
      ∀ w, r = some w → f.yieldTy i = w.ty := by
  obtain ⟨v, n, hv, hn, hy⟩ := Func.Rule.yields hform hrule hpure
  have hl : op ≠ .load := by rintro rfl; cases hpure
  have hr : op ≠ .retValue := by rintro rfl; cases hpure
  simp only [Func.Rule, if_neg hl, if_neg hr] at hrule
  by_cases hu : op.isUnaryArith = true
  · have hcast : op.isCast = false := by
      revert hu
      cases op <;> decide
    rw [hcast] at hrule
    simp only [Bool.false_eq_true, if_false] at hrule
    refine ⟨Word.evalUnary op a, by simp [evalKnown, hu, pure_eq_ok], fun w hw => ?_,
      fun w hw => ?_⟩
    · rw [Frame.onWord_eq_ok, hcast] at hw
      simpa using hw
    · rw [← hrule.2, ha, Word.ty, Word.ty, Word.evalUnary_width hw]
  · have hcast : op.isCast = true := by
      simpa [Verify.formFits, hl, hr, hu] using hform
    have hn0 : n ≠ 0 := by
      rintro rfl
      exact hwide hy
    obtain ⟨ty, ho, -⟩ := hf.result_origin hv
    obtain rfl : ty = .int n := by
      rw [Func.tyOf_eq ho] at hn
      exact hn
    have htyv : f.flow.ty v = .ok (.int n) := DataFlow.ty_of_origin ho
    obtain ⟨r, hr⟩ := Word.evalCast_ok op a hn0
    have heval : evalKnown f i op [.const a] = .ok (.ofResult r) := by
      simp [evalKnown, hu, hcast, DataFlow.result_eq_ok.2 hv, htyv, ok_bind, Ty.width,
        hr, pure_eq_ok]
    refine ⟨r, heval, fun w hw => ?_, fun w hw => ?_⟩
    · have hwidth : Frame.resultWidth? f i = some n := by
        unfold Frame.resultWidth?
        rw [hv, Option.bind_some, ho]
        rfl
      rw [Frame.onWord_eq_ok, hcast, hwidth] at hw
      simp only [if_true, Option.bind_some, hr] at hw
      exact hw
    · subst hw
      rw [hy, Word.ty, Word.evalCast_width hr]

theorem evalKnown_unary {op : Opcode} {x : ValueId} (hf : f.flow.Exact)
    (hform : Verify.formFits (.unary op x) = true)
    (hrule : f.Rule f.tyOf (f.yieldTy i) (.unary op x)) (hpure : op.isPure = true)
    (hwide : f.yieldTy i ≠ .int 0) (ht : facts.Typed f) :
    ∃ r, evalKnown f i op [facts.known f x] = .ok r ∧ Evaluates f facts i (.unary op x) r := by
  cases hx : facts.known f x with
  | unknown => exact ⟨_, rfl, evaluates_unknown hpure ⟨x, by simp [Inst.args], hx⟩⟩
  | varying => exact ⟨_, rfl, evaluates_varying _⟩
  | const a =>
    obtain ⟨r, hr, hyields, hty⟩ := evalKnown_word hf hform hrule hpure hwide (ht hx)
    exact ⟨_, hr, evaluates_word hpure hx hyields hty⟩

theorem evalKnown_binary {op : Opcode} {x y : ValueId}
    (hform : Verify.formFits (.binary op x y) = true)
    (hrule : f.Rule f.tyOf (f.yieldTy i) (.binary op x y)) (hpure : op.isPure = true)
    (ht : facts.Typed f) :
    ∃ r, evalKnown f i op [facts.known f x, facts.known f y] = .ok r ∧ Evaluates f facts i
      (.binary op x y) r := by
  have hs : op ≠ .store := by rintro rfl; cases hpure
  have hc : op ≠ .copy := by rintro rfl; cases hpure
  have hty := hrule.same_ty hpure
  simp only [Func.Rule, if_neg hs, if_neg hc] at hrule
  by_cases hxy : ∃ a b, facts.known f x = .const a ∧ facts.known f y = .const b
  · obtain ⟨a, b, hx, hy⟩ := hxy
    have hwords : ∀ {r : Option Word}, (∀ w, Frame.onWords i op a b = .ok w → r = some w) →
        ∀ a' b' w, (facts.known f x).Admits (.word a') → (facts.known f y).Admits (.word b') →
          Frame.onWords i op a' b' = .ok w → (LatticeValue.ofResult r).Admits (.word w) := by
      intro r hr a' b' w ha hb hw
      rw [hx, LatticeValue.admits_word] at ha
      rw [hy, LatticeValue.admits_word] at hb
      rcases ha with ha | ha <;> cases ha
      rcases hb with hb | hb <;> cases hb
      rw [hr w hw]
      exact .inr rfl
    have hab : a.width = b.width := by
      rw [ht hx, ht hy] at hty
      exact Ty.int.inj hty
    by_cases ha : op.isBinaryArith = true
    · have hcmp : op.isCompare = false := by
        revert ha
        cases op <;> decide
      simp only [hcmp, Bool.false_eq_true, if_false] at hrule
      obtain ⟨r, hr⟩ := Word.evalBinary_ok op hab
      refine ⟨.ofResult r, by simp [evalKnown, hx, hy, ha, hr, ok_bind, pure_eq_ok], ?_⟩
      refine evaluates_words (hwords fun w hw => ?_) fun w hw => ?_
      · rw [Frame.onWords_eq_ok, hcmp] at hw
        simpa [hr] using hw
      · rw [LatticeValue.ofResult_eq_const] at hw
        subst hw
        rw [← hrule.2.1, ht hx, Word.ty, Word.ty, Word.evalBinary_width hr]
    · have hcmp : op.isCompare = true := by
        simpa [Verify.formFits, hs, hc, ha] using hform
      simp only [hcmp, if_true] at hrule
      obtain ⟨r, hr⟩ := Word.evalCompare_ok op hab
      refine ⟨.ofResult r, by simp [evalKnown, hx, hy, ha, hcmp, hr, ok_bind, pure_eq_ok], ?_⟩
      refine evaluates_words (hwords fun w hw => ?_) fun w hw => ?_
      · rw [Frame.onWords_eq_ok, hcmp] at hw
        simpa [hr] using hw
      · rw [LatticeValue.ofResult_eq_const] at hw
        subst hw
        rw [hrule.2, Word.ty, Word.evalCompare_width hr]
  · cases hx : facts.known f x with
    | unknown =>
      cases hy : facts.known f y with
      | varying => exact ⟨_, rfl, evaluates_varying _⟩
      | _ => exact ⟨_, rfl, evaluates_unknown hpure ⟨x, by simp [Inst.args], hx⟩⟩
    | varying => exact ⟨_, rfl, evaluates_varying _⟩
    | const a =>
      cases hy : facts.known f y with
      | unknown => exact ⟨_, rfl, evaluates_unknown hpure ⟨y, by simp [Inst.args], hy⟩⟩
      | varying => exact ⟨_, rfl, evaluates_varying _⟩
      | const b => exact absurd ⟨a, b, hx, hy⟩ hxy

/-- An instruction without effects is evaluated without a fault. -/
theorem evalPure_spec {inst : Inst} (hf : f.flow.Exact) (hi : f.flow.inst? i = some inst)
    (hform : Verify.formFits inst = true) (hrule : f.Rule f.tyOf (f.yieldTy i) inst)
    (hpure : inst.op.isPure = true) (hwide : f.yieldTy i ≠ .int 0) (ht : facts.Typed f) :
    ∃ r, evalPure f facts i inst = .ok r ∧ Evaluates f facts i inst r := by
  unfold evalPure
  rw [Facts.values_ok fun v hv => hf.operand hi hv, ok_bind]
  cases inst with
  | unary op x =>
    have harith : op.isBinaryArith = false := by
      revert hform
      cases op <;> simp [Verify.formFits] <;> decide
    simp only [Inst.op, harith, Bool.false_eq_true, if_false]
    exact evalKnown_unary hf hform hrule hpure hwide ht
  | binary op x y =>
    obtain ⟨v, n, hv, hn, hy⟩ := Func.Rule.yields hform hrule hpure
    by_cases ha : op.isBinaryArith = true
    · have hn0 : n ≠ 0 := by
        rintro rfl
        exact hwide hy
      obtain ⟨ty, ho, -⟩ := hf.result_origin hv
      obtain rfl : ty = .int n := by
        rw [Func.tyOf_eq ho] at hn
        exact hn
      have htyv : f.flow.ty v = .ok (.int n) := DataFlow.ty_of_origin ho
      have hcmp : op.isCompare = false := by
        revert ha
        cases op <;> decide
      have hargs : f.tyOf x = .int n ∧ f.tyOf y = .int n := hy ▸ hrule.arith_ty ha
      obtain ⟨r, hr⟩ := absorb_ok op hn0 (facts.known f x) (facts.known f y)
      simp only [Inst.op, ha, if_true, DataFlow.result_eq_ok.2 hv, ok_bind, htyv,
        Ty.width, Inst.args, List.map_cons, List.map_nil, Checked.nth]
      show ∃ r, (absorb op n (facts.known f x) (facts.known f y) >>= _) = .ok r ∧ _
      rw [hr, ok_bind]
      cases r with
      | none => exact evalKnown_binary hform hrule hpure ht
      | some w =>
        have hsound := absorb_sound hr (fun a hk => Ty.int.inj ((ht hk).symm.trans hargs.1))
          (fun b hk => Ty.int.inj ((ht hk).symm.trans hargs.2))
        refine ⟨_, rfl, evaluates_words (fun a b w' hka hkb hw => ?_) fun w' hw => ?_⟩
        · rw [Frame.onWords_eq_ok, hcmp] at hw
          exact .inr (congrArg _ (hsound.2 hka hkb (by simpa using hw)))
        · cases hw
          rw [hy, Word.ty, hsound.1]
    · simp only [Inst.op, ha, Bool.false_eq_true, if_false]
      exact evalKnown_binary hform hrule hpure ht
  | _ =>
    simp only [Verify.formFits, decide_eq_true_eq, Bool.or_eq_true] at hform
    rcases hform with rfl | rfl <;> cases hpure

end Pure

theorem evalPhi_spec {f : Func} (facts : Facts) (b : BlockId) (inst : Inst)
    (ho : ∀ {v p}, (v, p) ∈ inst.edges → ∃ o, f.flow.origin? v = some o) :
    ∃ x, evalPhi f facts b inst = .ok x ∧
      (∀ {v p}, (v, p) ∈ inst.edges → facts.taken p b = true → (facts.known f v).Le x) ∧
      ∀ w, x = .const w → ∃ v p, (v, p) ∈ inst.edges ∧ facts.known f v = .const w := by
  obtain ⟨x, hx, hle, hconst⟩ := foldlM_yields (l := inst.edges.filter fun e => facts.taken e.2 b)
    (f := fun (x : LatticeValue) (e : ValueId × BlockId) => do return x.meet (← facts.value f e.1))
    (b := .unknown) (fun pre x => (∀ e ∈ pre, (facts.known f e.1).Le x) ∧
      ∀ w, x = .const w → ∃ e ∈ inst.edges, facts.known f e.1 = .const w)
    ⟨by simp, fun _ h => by cases h⟩ fun pre e post x hl hpre => by
      obtain ⟨hle, hconst⟩ := hpre
      have hmem : e ∈ inst.edges :=
        (List.mem_filter.1 (hl ▸ List.mem_append_right pre List.mem_cons_self)).1
      obtain ⟨o, ho⟩ := ho hmem
      refine ⟨x.meet (facts.known f e.1), by rw [Facts.value_ok ho, ok_bind]; rfl, fun e' he' => ?_,
        fun w hw => ?_⟩
      · rcases List.mem_append.1 he' with he' | he'
        · exact (hle e' he').trans (LatticeValue.le_meet_left x _)
        · rw [List.mem_singleton.1 he']
          exact LatticeValue.le_meet_right x _
      · rcases LatticeValue.const_of_meet hw with h | h
        · exact hconst w h
        · exact ⟨e, hmem, h⟩
  refine ⟨x, hx, fun {v p} he ht => hle (v, p) (List.mem_filter.2 ⟨he, ht⟩), fun w hw => ?_⟩
  obtain ⟨⟨v, p⟩, he, hv⟩ := hconst w hw
  exact ⟨v, p, he, hv⟩

end Propagation

end MiddleEnd
