import MiddleEnd.Proofs.Building
import MiddleEnd.Proofs.Lattice

/-!
# How evaluation moves with what is known

The less is known about the operands of an instruction without effects, the less its evaluation
tells, with one exception: where one operand may be anything and the other one is unknown, a
product, conjunction or disjunction may be anything, but once the unknown operand turns out to
decide the result alone the evaluation tells a constant. What was told before stays, so that what is
known in the end depends on when the operand was looked at.
-/

namespace MiddleEnd

namespace LatticeValue

theorem le_iff {x y : LatticeValue} : x.Le y ↔ x = .unknown ∨ y = .varying ∨ x = y := by
  cases x <;> cases y <;> simp only [Le, meet] <;> grind

/-- The operand is a constant that decides the result of the operation alone. -/
def decides (op : Opcode) (x : LatticeValue) : Bool :=
  match op with
  | .mul | .and => x.const?.any Word.isZero
  | .or => x.const?.any Word.isAllOnes
  | _ => false

theorem const_of_decides {op : Opcode} {x : LatticeValue} (h : x.decides op = true) :
    ∃ w, x = .const w := by
  cases x with
  | const w => exact ⟨w, rfl⟩
  | unknown => cases op <;> cases h
  | varying => cases op <;> cases h

theorem decides_of_not_arith {op : Opcode} (h : op.isBinaryArith = false) (x : LatticeValue) :
    x.decides op = false := by
  cases op <;> first | rfl | cases h

/-- One operand may be anything, and the other one, of which nothing was known, now decides the
result alone. -/
def Overtaken (op : Opcode) (x y x' y' : LatticeValue) : Prop :=
  (x = .varying ∧ y = .unknown ∧ y'.decides op = true) ∨
    (x = .unknown ∧ y = .varying ∧ x'.decides op = true)

end LatticeValue

/-- The same, said of the operands of an instruction. -/
def Inst.Overtaken (known known' : ValueId → LatticeValue) : Inst → Prop
  | .binary op x y => LatticeValue.Overtaken op (known x) (known y) (known' x) (known' y)
  | _ => False

/-- What is known about the operands of an instruction has their types. -/
def Facts.Suits (facts : Facts) (f : Func) (inst : Inst) : Prop :=
  ∀ v ∈ inst.args, ∀ w, facts.known f v = .const w → f.tyOf v = w.ty

namespace Propagation

open LatticeValue (le_varying unknown_le le_iff)

section Known

variable {f : Func} {i : InstId} {op : Opcode} {x y x' y' r r' : LatticeValue}

theorem evalKnown_varying (h : x = .varying ∨ y = .varying) :
    evalKnown f i op [x, y] = .ok .varying := by
  rcases h with rfl | rfl
  · rfl
  · cases x <;> rfl

theorem evalKnown_unknown (hx : x ≠ .varying) (hy : y ≠ .varying)
    (h : x = .unknown ∨ y = .unknown) :
    evalKnown f i op [x, y] = .ok .unknown := by
  cases x <;> cases y <;> first | rfl | exact absurd rfl hx | exact absurd rfl hy | simp at h

theorem evalKnown_ok (h : ∀ a b, x = .const a → y = .const b → a.width = b.width) :
    ∃ r, evalKnown f i op [x, y] = .ok r := by
  by_cases hv : x = .varying ∨ y = .varying
  · exact ⟨_, evalKnown_varying hv⟩
  obtain ⟨hx, hy⟩ := not_or.1 hv
  by_cases hu : x = .unknown ∨ y = .unknown
  · exact ⟨_, evalKnown_unknown hx hy hu⟩
  cases x with
  | unknown => exact absurd (.inl rfl) hu
  | varying => exact absurd rfl hx
  | const a =>
    cases y with
    | unknown => exact absurd (.inr rfl) hu
    | varying => exact absurd rfl hy
    | const b =>
      obtain ⟨s, hs⟩ := Word.evalBinary_ok op (h a b rfl rfl)
      obtain ⟨t, ht⟩ := Word.evalCompare_ok op (h a b rfl rfl)
      unfold evalKnown
      simp only [hs, ht, ok_bind, pure_eq_ok]
      split
      · exact ⟨_, rfl⟩
      · split <;> exact ⟨_, rfl⟩

theorem ne_varying_of_le (h : x.Le x') (hx' : x' ≠ .varying) : x ≠ .varying := by
  rintro rfl
  rcases le_iff.1 h with he | he | he
  · cases he
  · exact hx' he
  · exact hx' he.symm

theorem evalKnown_mono (hx : x.Le x') (hy : y.Le y') (h : evalKnown f i op [x, y] = .ok r)
    (h' : evalKnown f i op [x', y'] = .ok r') : r.Le r' := by
  by_cases hv' : x' = .varying ∨ y' = .varying
  · cases h'.symm.trans (evalKnown_varying hv')
    exact le_varying r
  obtain ⟨hx', hy'⟩ := not_or.1 hv'
  by_cases hu : x = .unknown ∨ y = .unknown
  · cases h.symm.trans (evalKnown_unknown (ne_varying_of_le hx hx') (ne_varying_of_le hy hy') hu)
    exact unknown_le r'
  obtain ⟨hux, huy⟩ := not_or.1 hu
  obtain rfl := ((le_iff.1 hx).resolve_left hux).resolve_left hx'
  obtain rfl := ((le_iff.1 hy).resolve_left huy).resolve_left hy'
  cases h.symm.trans h'
  exact .refl r

end Known

theorem absorb_some (op : Opcode) {n : Nat} (hn : n ≠ 0) :
    ∃ w, ∀ x y, (x.decides op || y.decides op) = true → absorb op n x y = .ok (some w) := by
  have hpos : 0 < n := Nat.pos_of_ne_zero hn
  have hnat : ∀ m, Word.ofNat n m = .ok (.wrap n hpos m) := fun m => dif_pos hpos
  unfold absorb LatticeValue.decides Word.allOnes
  cases op
  case mul | and =>
    refine ⟨.wrap n hpos 0, fun x y h => ?_⟩
    simp only [hnat, ok_bind, pure_eq_ok, h, if_true]
  case or =>
    refine ⟨.wrap n hpos (twoPow n - 1), fun x y h => ?_⟩
    simp only [hnat, ok_bind, pure_eq_ok, h, if_true]
  all_goals exact ⟨.wrap n hpos 0, fun x y h => by cases h⟩

theorem absorb_none {op : Opcode} {x y : LatticeValue}
    (h : (x.decides op || y.decides op) = false) (n : Nat) :
    absorb op n x y = .ok none := by
  unfold absorb
  unfold LatticeValue.decides at h
  cases op
  case mul | and | or => simp only [h, Bool.false_eq_true, if_false, pure_eq_ok]
  all_goals rfl

section Binary

variable {f : Func} {i : InstId} {op : Opcode} {x y : ValueId} {facts : Facts}

theorem decides_eq_false (hs : facts.Suits f (.binary op x y)) {v : ValueId} (hv : v ∈ [x, y])
    (hty : f.tyOf v = .int 0) : (facts.known f v).decides op = false := by
  refine Bool.eq_false_iff.2 fun hd => ?_
  obtain ⟨w, hw⟩ := LatticeValue.const_of_decides hd
  exact absurd (Ty.int.inj ((hs v hv w hw).symm.trans hty)) (Nat.ne_of_gt w.width_pos)

theorem absorb_known {n : Nat} (hrule : f.Rule f.tyOf (f.yieldTy i) (.binary op x y))
    (ha : op.isBinaryArith = true) (hy : f.yieldTy i = .int n) :
    ∃ w, ∀ facts : Facts, facts.Suits f (.binary op x y) →
      ((facts.known f x).decides op || (facts.known f y).decides op) = true →
      absorb op n (facts.known f x) (facts.known f y) = .ok (some w) := by
  by_cases hn : n = 0
  · subst hn
    refine ⟨.ofBool false, fun facts hs hd => ?_⟩
    have hargs := hrule.arith_ty ha
    rw [hy] at hargs
    rw [decides_eq_false hs (by simp) hargs.1, decides_eq_false hs (by simp) hargs.2] at hd
    cases hd
  · obtain ⟨w, hw⟩ := absorb_some op hn
    exact ⟨w, fun facts _ => hw _ _⟩

theorem evalPure_binary (hf : f.flow.Exact) (hi : f.flow.inst? i = some (.binary op x y))
    (hform : Verify.formFits (.binary op x y) = true)
    (hrule : f.Rule f.tyOf (f.yieldTy i) (.binary op x y)) (hpure : op.isPure = true) :
    ∃ w, ∀ facts : Facts, facts.Suits f (.binary op x y) → evalPure f facts i (.binary op x y) =
      if (facts.known f x).decides op || (facts.known f y).decides op then .ok (.const w)
      else evalKnown f i op [facts.known f x, facts.known f y] := by
  have hargs : ∀ facts : Facts, ([x, y].mapM (facts.value f)) = .ok [facts.known f x,
      facts.known f y] := fun facts =>
    Facts.values_ok fun v hv => hf.operand hi hv
  unfold evalPure
  simp only [Inst.args, Inst.op]
  by_cases ha : op.isBinaryArith = true
  · obtain ⟨v, n, hv, hn, hy⟩ := Func.Rule.yields hform hrule hpure
    obtain ⟨ty, ho, -⟩ := hf.result_origin hv
    obtain rfl : ty = .int n := by
      rw [Func.tyOf_eq ho] at hn
      exact hn
    obtain ⟨w, hw⟩ := absorb_known hrule ha hy
    refine ⟨w, fun facts hs => ?_⟩
    rw [hargs, ok_bind]
    simp only [ha, if_true, DataFlow.result_eq_ok.2 hv, ok_bind, DataFlow.ty_of_origin ho,
      Ty.width, Checked.nth]
    show (absorb op n (facts.known f x) (facts.known f y) >>= _) = _
    by_cases hd : ((facts.known f x).decides op || (facts.known f y).decides op) = true
    · rw [hw facts hs hd, if_pos hd]
      rfl
    · rw [absorb_none (Bool.eq_false_iff.2 hd), if_neg hd]
      rfl
  · have ha := Bool.eq_false_iff.2 ha
    refine ⟨.ofBool false, fun facts _ => ?_⟩
    rw [hargs, ok_bind]
    simp only [ha, LatticeValue.decides_of_not_arith ha, Bool.or_false,
      Bool.false_eq_true, if_false]

end Binary

section Order

variable {f : Func} {i : InstId} {op : Opcode} {x y x' y' r r' : LatticeValue} {w : Word}

theorem unknown_or_decides (hx : x.Le x') (h : x'.decides op = true) :
    x = .unknown ∨ x.decides op = true := by
  obtain ⟨w, rfl⟩ := LatticeValue.const_of_decides h
  rcases le_iff.1 hx with he | he | he
  · exact .inl he
  · cases he
  · exact .inr (he ▸ h)

theorem varying_or_decides (hx : x.Le x') (h : x.decides op = true) :
    x' = .varying ∨ x'.decides op = true := by
  obtain ⟨w, rfl⟩ := LatticeValue.const_of_decides h
  rcases le_iff.1 hx with he | he | he
  · cases he
  · exact .inl he
  · exact .inr (he ▸ h)

theorem known_le_iff (hx : x.Le x') (hy : y.Le y')
    (hd : ¬ x.decides op = true ∧ ¬ y.decides op = true)
    (hd' : (x'.decides op || y'.decides op) = true)
    (h : evalKnown f i op [x, y] = .ok r) (w : Word) :
    r.Le (.const w) ↔ ¬ LatticeValue.Overtaken op x y x' y' := by
  have hu : (x = .unknown ∧ x'.decides op = true) ∨ (y = .unknown ∧ y'.decides op = true) := by
    rcases Bool.or_eq_true_iff.1 hd' with hd' | hd'
    · exact .inl ⟨(unknown_or_decides hx hd').resolve_right hd.1, hd'⟩
    · exact .inr ⟨(unknown_or_decides hy hd').resolve_right hd.2, hd'⟩
  by_cases hv : x = .varying ∨ y = .varying
  · cases h.symm.trans (evalKnown_varying hv)
    refine iff_of_false (fun hle => by cases hle) (not_not_intro ?_)
    rcases hu with ⟨rfl, hd'⟩ | ⟨rfl, hd'⟩
    · exact .inr ⟨rfl, hv.resolve_left (by simp), hd'⟩
    · exact .inl ⟨hv.resolve_right (by simp), rfl, hd'⟩
  · obtain ⟨hvx, hvy⟩ := not_or.1 hv
    cases h.symm.trans (evalKnown_unknown hvx hvy (hu.imp And.left And.left))
    refine iff_of_true (unknown_le _) ?_
    rintro (⟨hx, -⟩ | ⟨-, hy, -⟩)
    · exact hvx hx
    · exact hvy hy

/-- Evaluation of two operands moves up with them, unless one that was unknown beside one that may
be anything comes to decide alone. -/
theorem decided_le_iff (hx : x.Le x') (hy : y.Le y')
    (h : (if x.decides op || y.decides op then .ok (.const w) else evalKnown f i op [x, y]) = .ok r)
    (h' : (if x'.decides op || y'.decides op then .ok (.const w) else evalKnown f i op [x', y']) =
      .ok r') :
    r.Le r' ↔ ¬ LatticeValue.Overtaken op x y x' y' := by
  by_cases hd : (x.decides op || y.decides op) = true
  · -- a constant was told, and the other operand was not needed for it
    have hnot : ¬ LatticeValue.Overtaken op x y x' y' := by
      rintro (⟨rfl, rfl, -⟩ | ⟨rfl, rfl, -⟩) <;> cases op <;> cases hd
    rw [if_pos hd] at h
    cases h
    refine iff_of_true ?_ hnot
    by_cases hd' : (x'.decides op || y'.decides op) = true
    · rw [if_pos hd'] at h'
      cases h'
      exact .refl _
    · have hv : x' = .varying ∨ y' = .varying := by
        rw [Bool.or_eq_true, not_or] at hd'
        rcases Bool.or_eq_true_iff.1 hd with hd | hd
        · exact .inl ((varying_or_decides hx hd).resolve_right hd'.1)
        · exact .inr ((varying_or_decides hy hd).resolve_right hd'.2)
      rw [if_neg hd'] at h'
      cases h'.symm.trans (evalKnown_varying hv)
      exact le_varying _
  · rw [if_neg hd] at h
    rw [Bool.or_eq_true, not_or] at hd
    by_cases hd' : (x'.decides op || y'.decides op) = true
    · rw [if_pos hd'] at h'
      cases h'
      exact known_le_iff hx hy hd hd' h w
    · rw [if_neg hd'] at h'
      rw [Bool.or_eq_true, not_or] at hd'
      refine iff_of_true (evalKnown_mono hx hy h h') ?_
      rintro (⟨-, -, hy'⟩ | ⟨-, -, hx'⟩)
      · exact hd'.2 hy'
      · exact hd'.1 hx'

theorem evalKnown_unary_mono (hx : x.Le x') (h : evalKnown f i op [x] = .ok r)
    (h' : evalKnown f i op [x'] = .ok r') :
    r.Le r' := by
  rcases le_iff.1 hx with rfl | rfl | rfl
  · cases h
    exact unknown_le r'
  · cases h'
    exact le_varying r
  · cases h.symm.trans h'
    exact .refl r

end Order

section Pure

variable {f : Func} {i : InstId} {inst : Inst} {facts facts' : Facts}

theorem evalPure_unary {op : Opcode} {x : ValueId} (hf : f.flow.Exact)
    (hi : f.flow.inst? i = some (.unary op x)) (hform : Verify.formFits (.unary op x) = true)
    (facts : Facts) :
    evalPure f facts i (.unary op x) = evalKnown f i op [facts.known f x] := by
  have harith : op.isBinaryArith = false := by
    revert hform
    cases op <;> simp [Verify.formFits] <;> decide
  unfold evalPure
  rw [Facts.values_ok fun v hv => hf.operand hi hv, ok_bind]
  simp only [Inst.op, harith, Bool.false_eq_true, if_false]
  rfl

theorem unary_or_binary (hform : Verify.formFits inst = true) (hpure : inst.op.isPure = true) :
    (∃ op x, inst = .unary op x) ∨ ∃ op x y, inst = .binary op x y := by
  cases inst with
  | unary op x => exact .inl ⟨op, x, rfl⟩
  | binary op x y => exact .inr ⟨op, x, y, rfl⟩
  | _ =>
    simp only [Verify.formFits, decide_eq_true_eq, Bool.or_eq_true] at hform
    rcases hform with rfl | rfl <;> cases hpure

theorem evalPure_ok (hf : f.flow.Exact) (hi : f.flow.inst? i = some inst)
    (hform : Verify.formFits inst = true) (hrule : f.Rule f.tyOf (f.yieldTy i) inst)
    (hpure : inst.op.isPure = true) (hwide : f.yieldTy i ≠ .int 0) (hs : facts.Suits f inst) :
    ∃ r, evalPure f facts i inst = .ok r := by
  rcases unary_or_binary hform hpure with ⟨op, x, rfl⟩ | ⟨op, x, y, rfl⟩
  · rw [evalPure_unary hf hi hform]
    cases hx : facts.known f x with
    | unknown => exact ⟨_, rfl⟩
    | varying => exact ⟨_, rfl⟩
    | const a =>
      obtain ⟨r, hr, -⟩ := evalKnown_word hf hform hrule hpure hwide
        (hs x (List.mem_singleton.2 rfl) a hx)
      exact ⟨_, hr⟩
  · obtain ⟨w, hw⟩ := evalPure_binary hf hi hform hrule hpure
    rw [hw facts hs]
    split
    · exact ⟨_, rfl⟩
    · refine evalKnown_ok fun a b ha hb => Ty.int.inj ?_
      have hxy := hrule.same_ty hpure
      rw [hs x (by simp [Inst.args]) a ha, hs y (by simp [Inst.args]) b hb] at hxy
      exact hxy

/-- What evaluation of an instruction without effects tells moves up with what is known about the
operands, but for a product, conjunction or disjunction of an operand that may be anything and one
that is unknown: once that one turns out to decide the result alone, a constant is told where it was
said before that the result may be anything. -/
theorem evalPure_le_iff (hc : f.Coherent) (hi : f.flow.inst? i = some inst)
    (htypes : Verify.instTypes f i = .ok []) (hpure : inst.op.isPure = true)
    (hs : facts.Suits f inst) (hs' : facts'.Suits f inst)
    (hle : ∀ v ∈ inst.args, (facts.known f v).Le (facts'.known f v)) :
    (f.yieldTy i ≠ .int 0 → ∃ r r', evalPure f facts i inst = .ok r ∧
      evalPure f facts' i inst = .ok r') ∧
      ∀ r r', evalPure f facts i inst = .ok r → evalPure f facts' i inst = .ok r' →
        (r.Le r' ↔ ¬ inst.Overtaken (facts.known f) (facts'.known f)) := by
  obtain ⟨hform, hrule⟩ := (Verify.instTypes_eq_nil hc hi).1 htypes
  refine ⟨fun hwide => ?_, fun r r' h h' => ?_⟩
  · obtain ⟨r, h⟩ := evalPure_ok hc.flow hi hform hrule hpure hwide hs
    obtain ⟨r', h'⟩ := evalPure_ok hc.flow hi hform hrule hpure hwide hs'
    exact ⟨r, r', h, h'⟩
  rcases unary_or_binary hform hpure with ⟨op, x, rfl⟩ | ⟨op, x, y, rfl⟩
  · rw [evalPure_unary hc.flow hi hform] at h h'
    exact iff_of_true (evalKnown_unary_mono (hle x (List.mem_singleton.2 rfl)) h h') id
  · obtain ⟨w, hw⟩ := evalPure_binary hc.flow hi hform hrule hpure
    rw [hw facts hs] at h
    rw [hw facts' hs'] at h'
    exact decided_le_iff (hle x (by simp [Inst.args])) (hle y (by simp [Inst.args])) h h'

end Pure

/-- What can be computed of the assumptions: the instruction has the right types, the constants have
those of the operands, and more is known about the operands in the end. -/
def movesUp (f : Func) (i : InstId) (inst : Inst) (facts facts' : Facts) : Bool :=
  f.flow.inst? i = some inst && (Verify.instTypes f i).toOption.any (·.isEmpty) &&
    inst.args.all fun v =>
    ((facts.known f v).const?.all (f.tyOf v = ·.ty) && (facts'.known f v).const?.all
      (f.tyOf v = ·.ty)) && (facts'.known f v).meet (facts.known f v) = facts'.known f v

theorem assumptions_of_movesUp {f : Func} {i : InstId} {inst : Inst} {facts facts' : Facts}
    (h : movesUp f i inst facts facts' = true) :
    f.flow.inst? i = some inst ∧ Verify.instTypes f i = .ok [] ∧ facts.Suits f inst ∧
    facts'.Suits f inst ∧
      ∀ v ∈ inst.args, (facts.known f v).Le (facts'.known f v) := by
  unfold movesUp at h
  simp only [Bool.and_eq_true, decide_eq_true_eq, List.all_eq_true] at h
  obtain ⟨⟨hi, htypes⟩, hargs⟩ := h
  obtain ⟨es, hes, hnil⟩ := exists_of_any htypes
  refine ⟨hi, by rw [hes, List.isEmpty_iff.1 hnil], fun v hv w hw => ?_, fun v hv w hw => ?_,
    fun v hv => (hargs v hv).2⟩
  · have := (hargs v hv).1.1
    rw [hw] at this
    exact of_decide_eq_true this
  · have := (hargs v hv).1.2
    rw [hw] at this
    exact of_decide_eq_true this

/-- A loop that multiplies a parameter by what is undefined at first and zero from then on. -/
def lateZero : Checked Builder :=
  Func.build "f" ⟨[.int 1, .int 32], some (.int 32)⟩
    [.block (some "entry"), .block (some "head"), .block (some "latch"), .block (some "exit"),
      .undef (.int 32), .const (.int32 0),
      .goTo (.append ⟨0⟩), .insert (.jump .br ⟨1⟩) .void,
      .goTo (.append ⟨1⟩), .insert (.phi .phi [⟨2⟩, ⟨3⟩] [⟨0⟩, ⟨2⟩]) (.int 32),
      .insert (.binary .mul ⟨1⟩ ⟨4⟩) (.int 32), .insert (.branch .brCond ⟨0⟩ ⟨2⟩ ⟨3⟩) .void,
      .goTo (.append ⟨2⟩), .insert (.jump .br ⟨1⟩) .void,
      .goTo (.append ⟨3⟩), .insert (.unary .retValue ⟨5⟩) .void]

/-- Where nothing is known the product is unknown, and it moves up to what is known in the end. -/
theorem lateZero_moves_up :
    ∃ b facts r r', lateZero = .ok b ∧ (b.func.facts none 16).outcome = .ok facts ∧ evalPure b.func
      {} ⟨2⟩ (.binary .mul ⟨1⟩ ⟨4⟩) = .ok r ∧ evalPure b.func facts ⟨2⟩
      (.binary .mul ⟨1⟩ ⟨4⟩) = .ok r' ∧
    r.Le r' := by
  obtain ⟨b, hb, h⟩ := exists_of_any (x := lateZero)
    (p := fun b => (b.func.facts none 16).outcome.toOption.any fun facts =>
      movesUp b.func ⟨2⟩ (.binary .mul ⟨1⟩ ⟨4⟩) {} facts && b.func.yieldTy ⟨2⟩ ≠ .int 0 &&
        Facts.known {} b.func ⟨1⟩ = .unknown && Facts.known {} b.func ⟨4⟩ =
        .unknown) (by decide +kernel)
  obtain ⟨facts, hfacts, h⟩ := exists_of_any h
  simp only [Bool.and_eq_true, decide_eq_true_eq] at h
  obtain ⟨⟨⟨hmoves, hwide⟩, hx⟩, hy⟩ := h
  obtain ⟨hi, htypes, hs, hs', hle⟩ := assumptions_of_movesUp hmoves
  obtain ⟨hok, hiff⟩ := evalPure_le_iff (Func.build_coherent (by decide) hb) hi htypes
    rfl hs hs' hle
  obtain ⟨r, r', hr, hr'⟩ := hok hwide
  refine ⟨b, facts, r, r', hb, hfacts, hr, hr', (hiff r r' hr hr').2 ?_⟩
  rintro (⟨hv, -⟩ | ⟨-, hv, -⟩)
  · rw [hx] at hv
    cases hv
  · rw [hy] at hv
    cases hv

/-- What is known when the loop is entered: its factor may be anything. -/
def factorVaries : Facts :=
  { values := (∅ : Dict ValueId LatticeValue).insert ⟨1⟩ .varying }

/-- While the phi is unknown the product may be anything. In the end the phi is zero, the product
would be zero, and still it may be anything. -/
theorem lateZero_falls : ∃ b facts', lateZero = .ok b ∧ b.func.Coherent ∧
    (b.func.facts none 16).outcome = .ok facts' ∧
    b.func.flow.inst? ⟨2⟩ = some (.binary .mul ⟨1⟩ ⟨4⟩) ∧ Verify.instTypes b.func ⟨2⟩ = .ok [] ∧
    factorVaries.Suits b.func (.binary .mul ⟨1⟩ ⟨4⟩) ∧ facts'.Suits b.func (.binary .mul ⟨1⟩ ⟨4⟩) ∧
    (∀ v ∈ (Inst.binary .mul ⟨1⟩ ⟨4⟩).args,
      (factorVaries.known b.func v).Le (facts'.known b.func v)) ∧
    evalPure b.func factorVaries ⟨2⟩ (.binary .mul ⟨1⟩ ⟨4⟩) = .ok .varying ∧
    evalPure b.func facts' ⟨2⟩ (.binary .mul ⟨1⟩ ⟨4⟩) = .ok (.const (.int32 0)) ∧
    ¬ LatticeValue.varying.Le (.const (.int32 0)) ∧ facts'.known b.func ⟨5⟩ = .varying := by
  obtain ⟨b, hb, h⟩ := exists_of_any (x := lateZero)
    (p := fun b => (b.func.facts none 16).outcome.toOption.any fun facts' =>
      movesUp b.func ⟨2⟩ (.binary .mul ⟨1⟩ ⟨4⟩) factorVaries facts' &&
        (evalPure b.func factorVaries ⟨2⟩ (.binary .mul ⟨1⟩ ⟨4⟩)).toOption = some .varying &&
        (evalPure b.func facts' ⟨2⟩ (.binary .mul ⟨1⟩ ⟨4⟩)).toOption = some (.const (.int32 0)) &&
        facts'.known b.func ⟨5⟩ = .varying) (by decide +kernel)
  obtain ⟨facts', hfacts, h⟩ := exists_of_any h
  simp only [Bool.and_eq_true, decide_eq_true_eq] at h
  obtain ⟨⟨⟨hmoves, hr⟩, hr'⟩, hm⟩ := h
  obtain ⟨hi, htypes, hs, hs', hle⟩ := assumptions_of_movesUp hmoves
  exact ⟨b, facts', hb, Func.build_coherent (by decide) hb, hfacts, hi, htypes, hs, hs', hle,
    ok_of_toOption hr, ok_of_toOption hr', (fun h => by cases h), hm⟩

end Propagation

end MiddleEnd
