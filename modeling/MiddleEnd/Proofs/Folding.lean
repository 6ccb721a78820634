import MiddleEnd.Proofs.Refinement
import MiddleEnd.Transform.Folding

/-!
# Constant folding

Operations on words yield words of the right width, and commuting operands may trade places. An
instruction whose operands have the right types folds without a fault, to a constant of the type of
its result, and the constant is what the instruction yields whenever it runs.
-/

namespace MiddleEnd

namespace Word

theorem eq_of_bits {a b : Word} (hw : a.width = b.width) (hb : a.bits = b.bits) : a = b := by
  obtain ⟨wa, na, _, _⟩ := a
  obtain ⟨wb, nb, _, _⟩ := b
  cases hw
  cases hb
  rfl

theorem evalUnary_width {op : Opcode} {a w : Word} (h : evalUnary op a = some w) :
    w.width = a.width := by
  unfold evalUnary at h
  split at h
  · cases h
    rfl
  · cases h
    rfl
  · cases h

theorem evalCast_width {op : Opcode} {a w : Word} {n : Nat} (h : evalCast op a n = .ok (some w)) :
    w.width = n := by
  unfold evalCast at h
  split at h
  case h_4 => cases h
  all_goals
    obtain ⟨v, hv, he⟩ := map_eq_ok.1 h
    cases he
    first
      | unfold ofNat at hv
      | unfold ofInt at hv
    split at hv
    · cases hv
      rfl
    · cases hv

theorem evalCast_ok (op : Opcode) (a : Word) {n : Nat} (hn : n ≠ 0) :
    ∃ r, evalCast op a n = .ok r := by
  have hpos : 0 < n := by omega
  unfold evalCast ofNat ofInt
  simp only [hpos, dif_pos]
  split
  · exact ⟨_, rfl⟩
  · exact ⟨_, rfl⟩
  · exact ⟨_, rfl⟩
  · exact ⟨_, rfl⟩

theorem evalBinary_ok (op : Opcode) {a b : Word} (h : a.width = b.width) :
    ∃ r, evalBinary op a b = .ok r :=
  ⟨_, if_pos h⟩

theorem shl_width (a b : Word) : (a.shl b).width = a.width := by
  unfold shl
  split <;> rfl

theorem shr_width (a b : Word) : (a.shr b).width = a.width := by
  unfold shr
  split
  · rfl
  · split <;> rfl

theorem width_of_ite {c : Bool} {v w : Word} (h : (if c then none else some v) = some w) :
    w.width = v.width := by
  cases c with
  | true => cases h
  | false =>
    cases h
    rfl

theorem evalBinary_width {op : Opcode} {a b w : Word} (h : evalBinary op a b = .ok (some w)) :
    w.width = a.width := by
  unfold evalBinary at h
  split at h
  case isFalse => cases h
  have h := Except.ok.inj h
  cases op
  case shl =>
    cases h
    exact shl_width a b
  case shr =>
    cases h
    exact shr_width a b
  case sdiv =>
    exact width_of_ite (c := b.isZero) (v := wrapInt a.width a.width_pos (a.toInt.tdiv b.toInt)) h
  case srem =>
    exact width_of_ite (c := b.isZero) (v := wrapInt a.width a.width_pos (a.toInt.tmod b.toInt)) h
  case udiv =>
    exact width_of_ite (c := b.isZero) (v := wrap a.width a.width_pos (a.bits / b.bits)) h
  case urem =>
    exact width_of_ite (c := b.isZero) (v := wrap a.width a.width_pos (a.bits % b.bits)) h
  all_goals
    cases h
    try rfl

theorem evalCompare_ok (op : Opcode) {a b : Word} (h : a.width = b.width) :
    ∃ r, evalCompare op a b = .ok r := by
  unfold evalCompare evalOrder ult slt
  simp only [h, if_true, map_ok]
  cases op <;> exact ⟨_, rfl⟩

theorem evalCompare_width {op : Opcode} {a b w : Word} (h : evalCompare op a b = .ok (some w)) :
    w.width = 1 := by
  obtain ⟨r, -, h⟩ := map_eq_ok.1 h
  obtain ⟨c, -, rfl⟩ := Option.map_eq_some_iff.1 h
  rfl

theorem evalBinary_comm {op : Opcode} {a b : Word} (hc : op.isCommutative = true)
    (ha : op.isCompare = false) (hw : a.width = b.width) :
    evalBinary op a b = evalBinary op b a := by
  have hwrap : ∀ m n, m = n → wrap a.width a.width_pos m = wrap b.width b.width_pos n := by
    rintro m _ rfl
    obtain ⟨wa, _, hpa, _⟩ := a
    obtain ⟨wb, _, hpb, _⟩ := b
    cases hw
    rfl
  unfold evalBinary
  rw [if_pos hw, if_pos hw.symm]
  cases op
  case add => exact congrArg (fun w => Except.ok (some w)) (hwrap _ _ (Nat.add_comm _ _))
  case mul => exact congrArg (fun w => Except.ok (some w)) (hwrap _ _ (Nat.mul_comm _ _))
  case and => exact congrArg (fun w => Except.ok (some w)) (hwrap _ _ (Nat.and_comm _ _))
  case or => exact congrArg (fun w => Except.ok (some w)) (hwrap _ _ (Nat.or_comm _ _))
  case xor => exact congrArg (fun w => Except.ok (some w)) (hwrap _ _ (Nat.xor_comm _ _))
  case eq => cases ha
  case neq => cases ha
  all_goals cases hc

theorem evalCompare_comm {op : Opcode} {a b : Word} (hc : op.isCommutative = true)
    (ha : op.isCompare = true) :
    evalCompare op a b = evalCompare op b a := by
  cases op
  case eq =>
    unfold evalCompare evalOrder
    rw [Bool.beq_comm]
  case neq =>
    unfold evalCompare evalOrder
    rw [bne_comm]
  all_goals
    cases hc
    try cases ha

end Word

namespace Frame

theorem compute_word {f : Func} {i : InstId} {op : Opcode} {a : Word} {d : Datum} :
    compute f i op [.word a] = .ok d ↔ ∃ w, onWord f i op a = .ok w ∧ d = .word w := by
  unfold compute
  rw [if_neg (by simp), map_eq_ok]
  simp only [eq_comm]

theorem compute_words {f : Func} {i : InstId} {op : Opcode} {a b : Word} {d : Datum} :
    compute f i op [.word a, .word b] = .ok d ↔ ∃ w, onWords i op a b = .ok w ∧ d = .word w := by
  unfold compute
  rw [if_neg (by simp), map_eq_ok]
  simp only [eq_comm]

theorem compute_pair {f f' : Func} {i j : InstId} {op : Opcode} {a b d : Datum}
    (h : compute f i op [a, b] = .ok d) : compute f' j op [a, b] = .ok d := by
  unfold compute at h ⊢
  by_cases hu : .undefined ∈ [a, b]
  · rw [if_pos hu] at h ⊢
    exact h
  · rw [if_neg hu] at h ⊢
    match a, b with
    | .word a, .word b =>
      obtain ⟨w, hw, rfl⟩ := map_eq_ok.1 h
      exact map_eq_ok.2 ⟨w, onWords_eq_ok.2 (onWords_eq_ok.1 hw), rfl⟩
    | .undefined, _ => simp at hu
    | .word _, .undefined => simp at hu
    | .word _, .address _ => cases h
    | .address _, _ => cases h

theorem compute_comm {f : Func} {i : InstId} {op : Opcode} {a b d : Datum}
    (hc : op.isCommutative = true) (h : compute f i op [a, b] = .ok d) :
    compute f i op [b, a] = .ok d := by
  unfold compute at h ⊢
  by_cases hu : .undefined ∈ [a, b]
  · have hu' : .undefined ∈ [b, a] := by
      simp only [List.mem_cons, List.not_mem_nil, or_false] at hu ⊢
      exact hu.symm
    rw [if_pos hu] at h
    rw [if_pos hu']
    exact h
  · have hu' : .undefined ∉ [b, a] := by
      simp only [List.mem_cons, List.not_mem_nil, or_false] at hu ⊢
      exact fun h => hu h.symm
    rw [if_neg hu] at h
    rw [if_neg hu']
    match a, b with
    | .word a, .word b =>
      obtain ⟨w, hw, rfl⟩ := map_eq_ok.1 h
      refine map_eq_ok.2 ⟨w, onWords_eq_ok.2 ?_, rfl⟩
      have hw := onWords_eq_ok.1 hw
      by_cases hcmp : op.isCompare = true
      · rw [if_pos hcmp] at hw ⊢
        rw [Word.evalCompare_comm hc hcmp]
        exact hw
      · rw [if_neg hcmp] at hw ⊢
        have hwidth : a.width = b.width := by
          unfold Word.evalBinary at hw
          split at hw
          · assumption
          · cases hw
        rw [← Word.evalBinary_comm hc (by simpa using hcmp) hwidth]
        exact hw
    | .undefined, _ => simp at hu
    | .word _, .undefined => simp at hu
    | .word _, .address _ => cases h
    | .address _, _ => cases h

end Frame

theorem Frame.read_const {f : Func} {s : Frame} {v : ValueId} {w : Word}
    (h : f.flow.origin? v = some (.const w)) :
    s.read f v = .ok (.word w) := by
  unfold Frame.read
  rw [h]

theorem DataFlow.const?_ok {g : DataFlow} {v : ValueId} {o : ValueDef} (h : g.origin? v = some o) :
    ∃ r, g.const? v = .ok r ∧ ∀ w, r = some w ↔ g.origin? v = some (.const w) := by
  unfold DataFlow.const?
  rw [DataFlow.origin_eq_ok.2 h, ok_bind, h]
  cases o <;> exact ⟨_, rfl, by simp⟩

theorem DataFlow.constPair?_ok {g : DataFlow} {x y : ValueId} {o o' : ValueDef}
    (hx : g.origin? x = some o) (hy : g.origin? y = some o') : ∃ r, g.constPair? x y = .ok r ∧
      ∀ a b, r = some (a, b) → g.origin? x = some (.const a) ∧ g.origin? y = some (.const b) := by
  obtain ⟨p, hp, hpx⟩ := const?_ok hx
  obtain ⟨q, hq, hqy⟩ := const?_ok hy
  unfold DataFlow.constPair?
  rw [hp, ok_bind]
  cases p with
  | none => exact ⟨none, rfl, fun _ _ h => nomatch h⟩
  | some a =>
    simp only [hq, ok_bind]
    cases q with
    | none => exact ⟨none, rfl, fun _ _ h => nomatch h⟩
    | some b =>
      refine ⟨some (a, b), rfl, fun a' b' h => ?_⟩
      cases h
      exact ⟨(hpx a).1 rfl, (hqy b).1 rfl⟩

namespace Func

variable {f : Func} {i : InstId} {inst : Inst}

theorem Rule.yields (hform : Verify.formFits inst = true) (hrule : f.Rule f.tyOf (f.yieldTy i) inst)
    (hpure : inst.op.isPure = true) : ∃ v n, f.flow.result? i = some v ∧ f.tyOf v = .int n ∧
    f.yieldTy i = .int n := by
  have hint : (f.yieldTy i).isInt = true := by
    cases inst with
    | unary op x =>
      have hl : op ≠ .load := by rintro rfl; cases hpure
      have hr : op ≠ .retValue := by rintro rfl; cases hpure
      simp only [Rule, if_neg hl, if_neg hr] at hrule
      split at hrule
      · obtain ⟨w, _, he, -⟩ := hrule
        rw [he]
        rfl
      · exact hrule.1
    | binary op x y =>
      have hs : op ≠ .store := by rintro rfl; cases hpure
      have hc : op ≠ .copy := by rintro rfl; cases hpure
      simp only [Rule, if_neg hs, if_neg hc] at hrule
      split at hrule
      · rw [hrule.2]
        rfl
      · exact hrule.1
    | _ =>
      simp only [Verify.formFits, decide_eq_true_eq, Bool.or_eq_true] at hform
      rcases hform with rfl | rfl <;> cases hpure
  have hyield : f.yieldTy i = ((f.flow.result? i).map f.tyOf).getD .void := rfl
  cases hv : f.flow.result? i with
  | none =>
    rw [hyield, hv] at hint
    cases hint
  | some v =>
    rw [hv] at hyield
    cases hty : f.tyOf v with
    | int n => exact ⟨v, n, rfl, hty, by rw [hyield]; exact hty⟩
    | _ =>
      rw [hyield] at hint
      simp only [Option.map_some, Option.getD_some, hty] at hint
      cases hint

theorem Rule.same_ty {op : Opcode} {x y : ValueId}
    (hrule : f.Rule f.tyOf (f.yieldTy i) (.binary op x y)) (hpure : op.isPure = true) :
    f.tyOf x = f.tyOf y := by
  have hs : op ≠ .store := by rintro rfl; cases hpure
  have hc : op ≠ .copy := by rintro rfl; cases hpure
  simp only [Rule, if_neg hs, if_neg hc] at hrule
  split at hrule
  · exact hrule.1
  · exact hrule.2.1.trans hrule.2.2.symm

theorem Rule.arith_ty {op : Opcode} {x y : ValueId}
    (hrule : f.Rule f.tyOf (f.yieldTy i) (.binary op x y)) (ha : op.isBinaryArith = true) :
    f.tyOf x = f.yieldTy i ∧ f.tyOf y = f.yieldTy i := by
  have hne : op ≠ .store ∧ op ≠ .copy ∧ op.isCompare = false := by
    revert ha
    cases op <;> decide
  simp only [Rule, if_neg hne.1, if_neg hne.2.1, hne.2.2, Bool.false_eq_true, if_false] at hrule
  exact hrule.2

/-- An instruction without effects folds to what it yields, if it folds. -/
theorem Rule.fold?_ok (hf : f.flow.Exact) (hi : f.flow.inst? i = some inst)
    (hform : Verify.formFits inst = true) (hrule : f.Rule f.tyOf (f.yieldTy i) inst)
    (hpure : inst.op.isPure = true) (hwide : f.yieldTy i ≠ .int 0) :
    ∃ r, f.flow.fold? i = .ok r ∧ ∀ w, r = some w → f.yieldTy i = w.ty ∧
      ∀ s d, Frame.Gives f s i inst d → d = .word w := by
  obtain ⟨v, n, hv, hn, hy⟩ := Rule.yields hform hrule hpure
  obtain ⟨ty, ho, -⟩ := hf.result_origin hv
  have hty : ty = .int n := by
    rw [tyOf_eq ho] at hn
    exact hn
  have hconst : ∀ {x w}, f.flow.origin? x = some (.const w) → f.tyOf x = w.ty :=
    fun hx => tyOf_eq hx
  unfold DataFlow.fold?
  rw [DataFlow.inst_eq_ok.2 hi, ok_bind]
  cases inst with
  | unary op x =>
    have hl : op ≠ .load := by rintro rfl; cases hpure
    have hr : op ≠ .retValue := by rintro rfl; cases hpure
    simp only [Rule, if_neg hl, if_neg hr] at hrule
    obtain ⟨o, hox⟩ := hf.operand hi (v := x) (by simp [Inst.args])
    obtain ⟨p, hp, hpx⟩ := DataFlow.const?_ok hox
    by_cases hu : op.isUnaryArith = true
    · have hcast : op.isCast = false := by
        revert hu
        cases op <;> decide
      simp only [hu, if_true, hp, ok_bind, pure_eq_ok]
      refine ⟨_, rfl, fun w hw => ?_⟩
      obtain ⟨a, ha, hw⟩ := Option.bind_eq_some_iff.1 hw
      have hxa := (hpx a).1 ha
      rw [hcast] at hrule
      simp only [Bool.false_eq_true, if_false] at hrule
      refine ⟨?_, fun s d hg => ?_⟩
      · rw [← hrule.2, hconst hxa, Word.ty, Word.ty, Word.evalUnary_width hw]
      · cases hg with
        | load => exact absurd rfl hl
        | unary _ _ hx hd =>
          rw [Frame.read_const hxa] at hx
          cases hx
          obtain ⟨w', hw', rfl⟩ := Frame.compute_word.1 hd
          rw [Frame.onWord_eq_ok, hcast] at hw'
          simp only [Bool.false_eq_true, if_false] at hw'
          rw [hw] at hw'
          cases hw'
          rfl
    · simp only [hu, Bool.false_eq_true, if_false]
      by_cases hcast : op.isCast = true
      · have htyv : f.flow.ty v = .ok (.int n) := by
          rw [DataFlow.ty_of_origin ho, ← hty]
          rfl
        simp only [hcast, if_true, DataFlow.result_eq_ok.2 hv, ok_bind, htyv, Ty.width, hp]
        cases hpa : p with
        | none => exact ⟨none, rfl, fun _ h => by cases h⟩
        | some a =>
          have hxa := (hpx a).1 hpa
          have hn0 : n ≠ 0 := by
            rintro rfl
            exact hwide hy
          obtain ⟨r, hr⟩ := Word.evalCast_ok op a hn0
          refine ⟨r, hr, fun w hw => ?_⟩
          subst hw
          refine ⟨by rw [hy, Word.ty, Word.evalCast_width hr], fun s d hg => ?_⟩
          cases hg with
          | load => exact absurd rfl hl
          | unary _ _ hx hd =>
            rw [Frame.read_const hxa] at hx
            cases hx
            obtain ⟨w', hw', rfl⟩ := Frame.compute_word.1 hd
            have hwidth : Frame.resultWidth? f i = some n := by
              unfold Frame.resultWidth?
              rw [hv, Option.bind_some, ho, hty]
              rfl
            rw [Frame.onWord_eq_ok, hcast, hwidth] at hw'
            simp only [if_true, Option.bind_some, hr] at hw'
            cases hw'
            rfl
      · simp only [hcast, Bool.false_eq_true, if_false]
        exact ⟨none, rfl, fun _ h => by cases h⟩
  | binary op x y =>
    have hs : op ≠ .store := by rintro rfl; cases hpure
    have hc : op ≠ .copy := by rintro rfl; cases hpure
    have hxy := hrule.same_ty hpure
    simp only [Rule, if_neg hs, if_neg hc] at hrule
    obtain ⟨o, hox⟩ := hf.operand hi (v := x) (by simp [Inst.args])
    obtain ⟨o', hoy⟩ := hf.operand hi (v := y) (by simp [Inst.args])
    obtain ⟨p, hp, hpc⟩ := DataFlow.constPair?_ok hox hoy
    have hgives : ∀ {a b s d}, f.flow.origin? x = some (.const a) →
        f.flow.origin? y = some (.const b) →
        Frame.Gives f s i (.binary op x y) d → ∃ w,
          (if op.isCompare then Word.evalCompare op a b else Word.evalBinary op a b) =
          .ok (some w) ∧ d = .word w := by
      intro a b s d hxa hyb hg
      cases hg with
      | binary _ _ hx hy hd =>
        rw [Frame.read_const hxa] at hx
        rw [Frame.read_const hyb] at hy
        cases hx
        cases hy
        obtain ⟨w', hw', rfl⟩ := Frame.compute_words.1 hd
        exact ⟨w', Frame.onWords_eq_ok.1 hw', rfl⟩
    by_cases ha : op.isBinaryArith = true
    · have hcmp : op.isCompare = false := by
        revert ha
        cases op <;> decide
      simp only [hcmp, Bool.false_eq_true, if_false] at hrule hgives
      simp only [ha, if_true, hp, ok_bind]
      cases hpab : p with
      | none => exact ⟨none, rfl, fun _ h => by cases h⟩
      | some ab =>
        obtain ⟨a, b⟩ := ab
        obtain ⟨hxa, hyb⟩ := hpc a b hpab
        have hab : a.width = b.width := by
          rw [hconst hxa, hconst hyb] at hxy
          exact Ty.int.inj hxy
        obtain ⟨r, hr⟩ := Word.evalBinary_ok op hab
        refine ⟨r, hr, fun w hw => ?_⟩
        subst hw
        refine ⟨?_, fun s d hg => ?_⟩
        · rw [← hrule.2.1, hconst hxa, Word.ty, Word.ty, Word.evalBinary_width hr]
        · obtain ⟨w', hw', rfl⟩ := hgives hxa hyb hg
          rw [hr] at hw'
          cases hw'
          rfl
    · simp only [ha, Bool.false_eq_true, if_false]
      by_cases hcmp : op.isCompare = true
      · simp only [hcmp, if_true] at hrule hgives
        simp only [hcmp, if_true, hp, ok_bind]
        cases hpab : p with
        | none => exact ⟨none, rfl, fun _ h => by cases h⟩
        | some ab =>
          obtain ⟨a, b⟩ := ab
          obtain ⟨hxa, hyb⟩ := hpc a b hpab
          have hab : a.width = b.width := by
            rw [hconst hxa, hconst hyb] at hxy
            exact Ty.int.inj hxy
          obtain ⟨r, hr⟩ := Word.evalCompare_ok op hab
          refine ⟨r, hr, fun w hw => ?_⟩
          subst hw
          refine ⟨?_, fun s d hg => ?_⟩
          · rw [hrule.2, Word.ty, Word.evalCompare_width hr]
          · obtain ⟨w', hw', rfl⟩ := hgives hxa hyb hg
            rw [hr] at hw'
            cases hw'
            rfl
      · simp only [hcmp, Bool.false_eq_true, if_false]
        exact ⟨none, rfl, fun _ h => by cases h⟩
  | _ => exact ⟨none, rfl, fun _ h => by cases h⟩

end Func

end MiddleEnd
