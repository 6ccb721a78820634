import MiddleEnd.Proofs.SingleAssignment
import MiddleEnd.Proofs.Slots
import Mathlib.Data.List.Forall2

/-!
# Type safety

A function without errors does not go wrong when it runs. Every operand is there when it is read and
holds what its type says, memory holds what the slots are for, every block leads somewhere, and the
result is of the type the function returns. A run ends early only at what types cannot exclude: a
division by zero, a comparison of addresses, or an undefined value where a branch, a return or an
access has to know better.
-/

namespace MiddleEnd

/-- The datum is of the type, given what the cells of memory are for. What is undefined is of every
type. -/
def Datum.HasTy (cells : Cell → Ty) : Datum → Ty → Prop
  | .undefined, _ => True
  | .word w, ty => ty = w.ty
  | .address cell, ty => ty = .ptr (cells cell)

namespace Datum.HasTy

variable {cells : Cell → Ty} {d : Datum} {ty : Ty} {n : Nat}

@[simp]
theorem undefined_iff : HasTy cells .undefined ty ↔ True := Iff.rfl

@[simp]
theorem word_iff {w : Word} : HasTy cells (.word w) ty ↔ ty = w.ty := Iff.rfl

@[simp]
theorem address_iff {cell : Cell} : HasTy cells (.address cell) ty ↔ ty = .ptr (cells cell) :=
  Iff.rfl

theorem of_int (h : HasTy cells d (.int n)) : d = .undefined ∨ ∃ w, d = .word w ∧ w.width = n := by
  cases d with
  | undefined => exact .inl rfl
  | word w =>
    rw [word_iff] at h
    cases h
    exact .inr ⟨w, rfl, rfl⟩
  | address cell => cases h

theorem of_ptr (h : HasTy cells d (.ptr ty)) :
    d = .undefined ∨ ∃ cell, d = .address cell ∧ cells cell = ty := by
  cases d with
  | undefined => exact .inl rfl
  | word w => cases h
  | address cell =>
    rw [address_iff] at h
    cases h
    exact .inr ⟨cell, rfl, rfl⟩

end Datum.HasTy

/-- The operations that have no result for a zero divisor. -/
def Opcode.isDivision : Opcode → Bool
  | .sdiv | .srem | .udiv | .urem => true
  | _ => false

namespace Word

theorem evalUnary_isUnaryArith {op : Opcode} (h : op.isUnaryArith = true) (a : Word) :
    ∃ w, evalUnary op a = some w := by
  revert h
  cases op <;> simp [Opcode.isUnaryArith, Opcode.has, Opcode.traits, evalUnary]

theorem evalCast_isCast {op : Opcode} (h : op.isCast = true) (a : Word) {n : Nat} (hn : n ≠ 0) :
    ∃ w, evalCast op a n = .ok (some w) := by
  have hpos : 0 < n := Nat.pos_of_ne_zero hn
  revert h
  cases op <;> simp [Opcode.isCast, Opcode.has, Opcode.traits, evalCast, ofNat, ofInt, hpos]

theorem evalCompare_isCompare {op : Opcode} (h : op.isCompare = true) {a b : Word}
    (hw : a.width = b.width) :
    ∃ w, evalCompare op a b = .ok (some w) := by
  revert h
  cases op <;>
    simp [Opcode.isCompare, Opcode.has, Opcode.traits, evalCompare, evalOrder, ult, slt, hw]

theorem evalBinary_isBinaryArith {op : Opcode} (h : op.isBinaryArith = true) {a b : Word}
    (hw : a.width = b.width) :
    (∃ w, evalBinary op a b = .ok (some w)) ∨
      (op.isDivision = true ∧ b.isZero = true ∧ evalBinary op a b = .ok none) := by
  cases hz : b.isZero <;> revert h <;> cases op <;>
    simp [Opcode.isBinaryArith, Opcode.has, Opcode.traits, evalBinary, Opcode.isDivision, hw,
      hz, sdiv?, srem?, udiv?, urem?]

end Word

namespace Frame

variable {f : Func} {cells : Cell → Ty} {i : InstId} {op : Opcode} {x y : ValueId} {a b : Datum}

theorem resultWidth?_of_yieldTy (hc : f.Coherent) {n : Nat} (h : f.yieldTy i = .int n) :
    resultWidth? f i = some n := by
  unfold Func.yieldTy at h
  cases hr : f.flow.result? i with
  | none =>
    rw [hr] at h
    cases h
  | some v =>
    obtain ⟨ty, ho, -⟩ := hc.flow.result_origin hr
    rw [hr, Option.map_some, Option.getD_some, Func.tyOf_eq ho] at h
    unfold resultWidth?
    rw [hr, Option.bind_some, ho]
    simp only [h]
    rfl

theorem compute_undefined {args : List Datum} (h : .undefined ∈ args) :
    compute f i op args = .ok .undefined :=
  if_pos h

theorem compute_unary (hc : f.Coherent) (hl : op ≠ .load) (hr : op ≠ .retValue)
    (hform : Verify.formFits (.unary op x) = true)
    (hrule : f.Rule f.tyOf (f.yieldTy i) (.unary op x)) (hwide : f.yieldTy i ≠ .int 0)
    (ha : a.HasTy cells (f.tyOf x)) :
    ∃ d, compute f i op [a] = .ok d ∧ d.HasTy cells (f.yieldTy i) := by
  simp only [Func.Rule, if_neg hl, if_neg hr] at hrule
  by_cases hcast : op.isCast = true
  · rw [if_pos hcast] at hrule
    obtain ⟨n, m, hn, hm, -⟩ := hrule
    rw [hm] at ha
    rcases ha.of_int with rfl | ⟨u, rfl, hu⟩
    · exact ⟨.undefined, compute_undefined List.mem_cons_self, trivial⟩
    · have hn0 : n ≠ 0 := by
        rintro rfl
        exact hwide hn
      obtain ⟨w, hw⟩ := Word.evalCast_isCast hcast u hn0
      have hres : onWord f i op u = .ok w := by
        rw [onWord_eq_ok, if_pos hcast, resultWidth?_of_yieldTy hc hn, Option.bind_some, hw]
        rfl
      refine ⟨.word w, compute_word.2 ⟨w, hres, rfl⟩, ?_⟩
      rw [Datum.HasTy.word_iff, hn, Word.ty, Word.evalCast_width hw]
  · rw [if_neg hcast] at hrule
    obtain ⟨hint, hx⟩ := hrule
    have harith : op.isUnaryArith = true := by
      simpa [Verify.formFits, hl, hr, hcast] using hform
    rw [hx] at ha
    cases hy : f.yieldTy i with
    | int n =>
      rw [hy] at ha
      rcases ha.of_int with rfl | ⟨u, rfl, hu⟩
      · exact ⟨.undefined, compute_undefined List.mem_cons_self, trivial⟩
      · obtain ⟨w, hw⟩ := Word.evalUnary_isUnaryArith harith u
        have hres : onWord f i op u = .ok w := by
          rw [onWord_eq_ok, if_neg hcast, hw]
        refine ⟨.word w, compute_word.2 ⟨w, hres, rfl⟩, ?_⟩
        rw [Datum.HasTy.word_iff, Word.ty, Word.evalUnary_width hw, hu]
    | _ =>
      rw [hy] at hint
      cases hint

/-- What keeps an operation on two operands of the right types from having a result. -/
inductive Refuses (i : InstId) (op : Opcode) : Datum → Datum → Stuck → Prop
  | zeroDivisor {u w : Word} : op.isDivision = true → w.isZero = true →
      Refuses i op (.word u) (.word w) (.divisionByZero i)
  | addresses {c c' : Cell} : op.isCompare = true → Refuses i op (.address c) (.address c')
      (.addressOperand i)

theorem compute_words_eq {u w : Word} :
    compute f i op [.word u, .word w] = (onWords i op u w).map .word := by
  unfold compute
  rw [if_neg (by simp)]

/-- An operation on two operands of the right types has a result of the right type, or refuses
them. -/
theorem compute_binary (hs : op ≠ .store) (hc : op ≠ .copy)
    (hform : Verify.formFits (.binary op x y) = true)
    (hrule : f.Rule f.tyOf (f.yieldTy i) (.binary op x y)) (ha : a.HasTy cells (f.tyOf x))
    (hb : b.HasTy cells (f.tyOf y)) :
    (∃ d, compute f i op [a, b] = .ok d ∧ d.HasTy cells (f.yieldTy i)) ∨
      ∃ e, compute f i op [a, b] = .error e ∧ Refuses i op a b e := by
  simp only [Func.Rule, if_neg hs, if_neg hc] at hrule
  by_cases hu : .undefined ∈ [a, b]
  · exact .inl ⟨.undefined, compute_undefined hu, trivial⟩
  by_cases hcmp : op.isCompare = true
  · rw [if_pos hcmp] at hrule
    rw [hrule.1] at ha
    cases a with
    | undefined => exact absurd List.mem_cons_self hu
    | word u =>
      rw [Datum.HasTy.word_iff] at ha
      rw [ha] at hb
      rcases hb.of_int with rfl | ⟨w, rfl, hw⟩
      · exact absurd (List.mem_cons_of_mem _ List.mem_cons_self) hu
      · obtain ⟨r, hr⟩ := Word.evalCompare_isCompare hcmp hw.symm
        have hres : onWords i op u w = .ok r := by
          rw [onWords_eq_ok, if_pos hcmp, hr]
        refine .inl ⟨.word r, compute_words.2 ⟨r, hres, rfl⟩, ?_⟩
        rw [Datum.HasTy.word_iff, hrule.2, Word.ty, Word.evalCompare_width hr]
    | address c =>
      rw [Datum.HasTy.address_iff] at ha
      rw [ha] at hb
      rcases hb.of_ptr with rfl | ⟨c', rfl, -⟩
      · exact absurd (List.mem_cons_of_mem _ List.mem_cons_self) hu
      · exact .inr ⟨_, if_neg hu, .addresses hcmp⟩
  · rw [if_neg hcmp] at hrule
    obtain ⟨hint, hx, hy⟩ := hrule
    have harith : op.isBinaryArith = true := by
      simpa [Verify.formFits, hs, hc, hcmp] using hform
    cases hr : f.yieldTy i with
    | int n =>
      rw [hx, hr] at ha
      rw [hy, hr] at hb
      rcases ha.of_int with rfl | ⟨u, rfl, hu'⟩
      · exact absurd List.mem_cons_self hu
      rcases hb.of_int with rfl | ⟨w, rfl, hw⟩
      · exact absurd (List.mem_cons_of_mem _ List.mem_cons_self) hu
      rcases Word.evalBinary_isBinaryArith harith (hu'.trans hw.symm) with ⟨r, hr'⟩ |
        ⟨hdiv, hz, hnone⟩
      · have hres : onWords i op u w = .ok r := by
          rw [onWords_eq_ok, if_neg hcmp, hr']
        refine .inl ⟨.word r, compute_words.2 ⟨r, hres, rfl⟩, ?_⟩
        rw [Datum.HasTy.word_iff, Word.ty, Word.evalBinary_width hr', hu']
      · refine .inr ⟨.divisionByZero i, ?_, .zeroDivisor hdiv hz⟩
        rw [compute_words_eq, onWords, if_neg hcmp, hnone]
        simp only [harith, if_true, map_error]
    | _ =>
      rw [hr] at hint
      cases hint

end Frame

/-- Parameters have the types of the signature, and nothing else is a parameter. -/
structure Func.Declared (f : Func) : Prop where
  types : f.params.map f.tyOf = f.sig.params
  listed : ∀ {v ty p}, f.flow.origin? v = some (.param ty p) → v ∈ f.params

namespace DataFlow

/-- A graph that holds parameters of the types and nothing else. -/
structure Lists (g : DataFlow) (tys : List Ty) : Prop where
  bare : g.Bare
  types : g.params.map (fun v => (g.origin? v).map ValueDef.ty) = tys.map some
  all : ∀ {v o}, g.origin? v = some o → v ∈ g.params

theorem Lists.addParam {g : DataFlow} {tys : List Ty} (h : g.Lists tys) (ty : Ty) (p : ParamId) :
    Lists { (g.addValue (.param ty p)).2 with params := g.params ++ [(g.addValue (.param ty p)).1] }
      (tys ++ [ty]) := by
  have horigin : ∀ v, ({ (g.addValue (.param ty p)).2 with params := g.params ++
      [(g.addValue (.param ty p)).1] } :
      DataFlow).origin? v = if v.index = g.values.bound then some (.param ty p) else g.origin? v :=
    origin?_addValue g _
  refine ⟨h.bare.addParam ty p, ?_, ?_⟩
  · simp only [horigin, List.map_append, ← h.types]
    congr 1
    · apply List.map_congr_left
      intro v hv
      obtain ⟨o, ho⟩ := h.bare.params hv
      rw [if_neg (Nat.ne_of_lt (origin?_lt_bound ho))]
    · exact congrArg (fun o => [o]) (congrArg (Option.map ValueDef.ty) (if_pos rfl))
  · intro v o ho
    rw [horigin] at ho
    split at ho
    · rename_i hv
      exact List.mem_append_right _ (List.mem_singleton.2 (Key.index_inj hv))
    · exact List.mem_append_left _ (h.all ho)

theorem lists_ofSignature (sig : Signature) : (ofSignature sig).Lists sig.params := by
  have hempty : ({} : DataFlow).Lists [] := ⟨bare_empty, rfl, fun h => (by cases h)⟩
  have h := foldl_induct (l := sig.params.zipIdx) (fun pre (g : DataFlow) =>
    g.Lists (pre.map Prod.fst)) hempty
    fun pre x _ g _ hg => by
      rw [List.map_append]
      exact hg.addParam x.1 ⟨x.2⟩
  rwa [List.zipIdx_map_fst] at h

end DataFlow

namespace Func

theorem Declared.keep {f f' : Func} (h : f.Declared) (hc : f.Coherent) (hsig : f'.sig = f.sig)
    (hparams : f'.params = f.params)
    (hkept : ∀ {v o}, f.flow.origin? v = some o → f'.flow.origin? v = some o)
    (hnew : ∀ {v ty p}, f'.flow.origin? v = some (.param ty p) →
      f.flow.origin? v = some (.param ty p)) :
    f'.Declared where
  types := by
    rw [hparams, hsig, ← h.types]
    apply List.map_congr_left
    intro v hv
    obtain ⟨ty, p, ho⟩ := hc.flow.param_origin hv
    rw [tyOf_eq ho, tyOf_eq (hkept ho)]
  listed := by
    intro v ty p ho
    rw [hparams]
    exact h.listed (hnew ho)

theorem Declared.rewire {f f' : Func} (h : f.Declared) (hc : f.Coherent) (hsig : f'.sig = f.sig)
    {ρ : InstId → Inst → Inst} (hR : DataFlow.Rewired f.flow f'.flow ρ) : f'.Declared := by
  apply h.keep hc hsig hR.params hR.origin?
  intro v ty p ho
  rcases hR.added ho with ho | ho | ho
  · exact ho
  · cases ho
  · cases ho

theorem new_declared (name : String) (sig : Signature) : (Func.new name sig).Declared := by
  have h := DataFlow.lists_ofSignature sig
  refine ⟨?_, h.all⟩
  have htypes := congrArg (List.map fun ty? => Option.getD ty? Ty.void) h.types
  rw [List.map_map, List.map_map] at htypes
  exact htypes.trans (List.map_id _)

end Func

theorem Edit.apply_declared {b b' : Builder} (hb : b.func.Coherent)
    (hd : b.func.Declared) {e : Edit} (he : e.fits = true) (h : e.apply b = .ok b') :
    b'.func.Declared := by
  have hshared : ∀ {o : ValueDef}, o.isConst = true ∨ o.isUndef = true →
      (b.withFlow (b.flow.shared o).2).func.Declared := by
    intro o ho
    obtain ⟨v, g, hg, -, -, hR⟩ := DataFlow.shared_ok hb.flow ho
    have hg : b.flow.shared o = (v, g) := hg
    rw [hg]
    exact hd.rewire hb rfl hR
  cases e with
  | block name? =>
    rw [apply] at h
    obtain ⟨⟨c, b₁⟩, h₁, h⟩ := bind_eq_ok.1 h
    cases h
    obtain ⟨l, -, h₁⟩ := bind_eq_ok.1 h₁
    cases h₁
    exact ⟨hd.types, hd.listed⟩
  | goTo pos =>
    cases h
    exact hd
  | const w =>
    cases h
    exact hshared (.inl rfl)
  | undef ty =>
    cases h
    exact hshared (.inr rfl)
  | declare name sig =>
    cases h
    unfold DataFlow.addImport
    split
    · exact hd
    · exact ⟨hd.types, hd.listed⟩
  | insert inst ty =>
    rw [apply] at h
    obtain ⟨⟨i, b₁⟩, h₁, h⟩ := bind_eq_ok.1 h
    cases h
    obtain ⟨-, v?, c, pre, post, hins⟩ := Builder.insert_of_ok hb (by
      rintro op args preds rfl
      simpa [fits] using he) h₁
    apply hd.keep hb hins.alike.sig hins.grown.params
    · intro v o ho
      rw [hins.grown.origin?, if_neg]
      · exact ho
      · intro hv
        cases (hins.grown.value_fresh v hv).symm.trans ho
    · intro v ty' p ho
      rw [hins.grown.origin?] at ho
      split at ho
      · cases ho
      · exact ho
  | edge phi v p =>
    rw [apply] at h
    obtain ⟨g, hg, h⟩ := bind_eq_ok.1 h
    cases h
    obtain ⟨-, ρ, hR⟩ := DataFlow.addIncoming_of_ok hb.flow hg
    exact hd.rewire hb rfl hR

theorem Func.build_declared {name : String} {sig : Signature} {edits : List Edit} {b : Builder}
    (he : edits.all Edit.fits = true) (h : Func.build name sig edits = .ok b) :
    b.func.Declared := by
  refine (foldlM_ok_induct (fun _ (c : Builder) => c.func.Coherent ∧ c.func.Declared) h
    ⟨Func.new_coherent name sig, Func.new_declared name sig⟩ ?_).2
  intro pre e post c c' hl ⟨hc, hd⟩ hstep
  have hfits :=
    List.all_eq_true.1 he e (by rw [hl]; exact List.mem_append_right _ List.mem_cons_self)
  exact ⟨Edit.apply_coherent hc hfits hstep, Edit.apply_declared hc hd hfits hstep⟩

/-- Instructions yield what they are read for: phis and loads yield a value, and no operand is the
result of a store or a terminator, which compute nothing. -/
structure Func.Productive (f : Func) : Prop where
  yields : ∀ {i inst}, f.flow.inst? i = some inst → inst.op = .phi ∨ inst.op = .load →
    ∃ v, f.flow.result? i = some v
  sources : ∀ {u inst v ty i jnst}, f.flow.inst? u = some inst → v ∈ inst.args →
    f.flow.origin? v = some (.result ty i) → f.flow.inst? i = some jnst → jnst.op ≠ .store ∧
    jnst.op.isTerminator = false

/-- The cells of the slots of the function are for what its `alloca`s say. -/
def Func.SlotsTyped (f : Func) (cells : Cell → Ty) : Prop :=
  ∀ {i ty}, f.flow.inst? i = some (.nullary .alloca) → f.yieldTy i = .ptr ty → cells ⟨0, i⟩ = ty

/-- What keeps all data of a run of their types. -/
structure Func.Ruled (f : Func) (cells : Cell → Ty) : Prop where
  coherent : f.Coherent
  types : ∀ {i inst}, f.flow.inst? i = some inst → Verify.formFits inst = true ∧
    f.Rule f.tyOf (f.yieldTy i) inst
  wide : ∀ i, f.yieldTy i ≠ .int 0
  slots : f.SlotsTyped cells

/-- What is asked of a function whose runs are followed. -/
structure Func.Safe (f : Func) (entry : BlockId) (cells : Cell → Ty) : Prop where
  clean : f.Clean entry
  reached : ∀ b ∈ f.blocks, f.Reachable b
  wide : ∀ v, f.flow.ty v ≠ .ok (.int 0)
  noCalls : ∀ {i op callee args}, f.flow.inst? i ≠ some (.call op callee args)
  declared : f.Declared
  productive : f.Productive
  slots : f.SlotsTyped cells

namespace Func.Safe

variable {f : Func} {entry : BlockId} {cells : Cell → Ty}

theorem orderly (h : f.Safe entry cells) : f.Orderly f.Leads entry :=
  h.clean.orderly (Func.asksReached_of_reachable h.reached)

theorem yieldTy_ne (h : f.Safe entry cells) (i : InstId) : f.yieldTy i ≠ .int 0 :=
  h.clean.coherent.yieldTy_ne (by decide) h.wide i

theorem ruled (h : f.Safe entry cells) : f.Ruled cells :=
  ⟨h.clean.coherent, h.clean.valid.types, h.yieldTy_ne, h.slots⟩

end Func.Safe

/-- All data of the frame are of their types. -/
structure Frame.Typed (f : Func) (cells : Cell → Ty) (s : Frame) : Prop where
  activation : s.activation = 0
  values : ∀ {v d}, s.values v = some d → d.HasTy cells (f.tyOf v)
  memory : ∀ cell, (s.memory cell).HasTy cells (cells cell)

namespace Frame.Typed

variable {f : Func} {cells : Cell → Ty} {s t : Frame}

theorem read (h : s.Typed f cells) {v : ValueId} {d : Datum} (hd : s.read f v = .ok d) :
    d.HasTy cells (f.tyOf v) := by
  unfold Frame.read at hd
  split at hd
  · rename_i w ho
    cases hd
    rw [Func.tyOf_eq ho]
    rfl
  · cases hd
    trivial
  · rename_i hv
    cases hd
    exact h.values (by assumption)
  · cases hd

theorem ty_of_load (hf : f.Ruled cells) (h : s.Typed f cells) {i : InstId}
    {x : ValueId} {cell : Cell} (hi : f.flow.inst? i = some (.unary .load x))
    (hx : s.read f x = .ok (.address cell)) : cells cell = f.yieldTy i := by
  have hrule := (hf.types hi).2
  simp only [Func.Rule, if_true] at hrule
  have hptr := h.read hx
  rw [Datum.HasTy.address_iff, hrule] at hptr
  exact (Ty.ptr.inj hptr).symm

theorem ty_of_store (hf : f.Ruled cells) (h : s.Typed f cells) {i : InstId}
    {x y : ValueId} {cell : Cell} (hi : f.flow.inst? i = some (.binary .store x y))
    (hx : s.read f x = .ok (.address cell)) : cells cell = f.tyOf y := by
  have hrule := (hf.types hi).2
  simp only [Func.Rule, if_true] at hrule
  have hptr := h.read hx
  rw [Datum.HasTy.address_iff, hrule] at hptr
  exact (Ty.ptr.inj hptr).symm

theorem gives (hf : f.Ruled cells) (h : s.Typed f cells) {i : InstId} {inst : Inst} {d : Datum}
    (hi : f.flow.inst? i = some inst) (hg : Frame.Gives f s i inst d) :
    d.HasTy cells (f.yieldTy i) := by
  obtain ⟨hform, hrule⟩ := hf.types hi
  cases hg with
  | alloca =>
    simp only [Func.Rule, if_true] at hrule
    cases hy : f.yieldTy i with
    | ptr ty =>
      rw [Datum.HasTy.address_iff, h.activation, hf.slots hi hy]
    | _ =>
      rw [hy] at hrule
      cases hrule
  | @load x cell hx =>
    rw [← h.ty_of_load hf hi hx]
    exact h.memory cell
  | @unary op x a d hl hr hx hd =>
    obtain ⟨d', hd', hty⟩ :=
      Frame.compute_unary hf.coherent hl hr hform hrule (hf.wide i) (h.read hx)
    cases hd.symm.trans hd'
    exact hty
  | @binary op x y a b d hs hc hx hy hd =>
    rcases Frame.compute_binary hs hc hform hrule (h.read hx) (h.read hy) with ⟨d', hd',
      hty⟩ | ⟨e, he, -⟩
    · cases hd.symm.trans hd'
      exact hty
    · cases hd.symm.trans he

theorem set_result (h : s.Typed f cells) {i : InstId} {v : ValueId} {d : Datum}
    (hv : f.flow.result? i = some v) (hd : d.HasTy cells (f.yieldTy i)) (rest : List InstId) :
    ({ s with rest }.set v d).Typed f cells where
  activation := h.activation
  values {w e} he := by
    simp only [Frame.set] at he
    split at he
    · rename_i hwv
      cases he
      rwa [hwv, ← Func.yieldTy_of_result hv]
    · exact h.values he
  memory := h.memory

theorem store_cell (hf : f.Ruled cells) (h : s.Typed f cells) {i : InstId} {x y : ValueId}
    {cell : Cell} {d : Datum} (hi : f.flow.inst? i = some (.binary .store x y))
    (hx : s.read f x = .ok (.address cell)) (hy : s.read f y = .ok d) (rest : List InstId) :
    ({ s with rest }.store cell d).Typed f cells where
  activation := h.activation
  values := h.values
  memory c := by
    simp only [Frame.store]
    split
    · rename_i hc
      rw [hc, h.ty_of_store hf hi hx]
      exact h.read hy
    · exact h.memory c

theorem entered (hf : f.Ruled cells) (h : s.Typed f cells) {b : BlockId} {xs : List InstId}
    (hent : Frame.Entered f s t b xs) : t.Typed f cells where
  activation := hent.activation.trans h.activation
  values {w e} he := by
    by_cases hw : ∃ phi ∈ xs.takeWhile f.flow.isPhi, f.flow.result? phi = some w
    · obtain ⟨phi, hphi, hr⟩ := hw
      obtain ⟨v, w', d, hin, hr', hd, hset⟩ := hent.merged phi hphi
      cases hr.symm.trans hr'
      cases hset.symm.trans he
      obtain ⟨inst, hinst⟩ :=
        hf.coherent.inst_of_mem hent.insts ((List.takeWhile_prefix _).subset hphi)
      have hedge := DataFlow.edge_of_incoming? hinst hin
      have hrule := (hf.types hinst).2
      cases inst with
      | phi op args preds =>
        rw [← Func.yieldTy_of_result hr, ← hrule v (Inst.arg_of_edge hedge)]
        exact h.read hd
      | _ => cases hedge
    · rw [hent.kept w fun phi hphi hr => hw ⟨phi, hphi, hr⟩] at he
      exact h.values he
  memory cell := by
    rw [hent.memory]
    exact h.memory cell

theorem step (hf : f.Ruled cells) (h : s.Typed f cells) {E : BlockId → BlockId → Prop}
    (hstep : f.Steps E s t) :
    t.Typed f cells := by
  cases hstep with
  | yields hrest hne hi hv hg => exact h.set_result hv (h.gives hf hi hg) _
  | stores hrest hne hi hx hy => exact h.store_cell hf hi hx hy _
  | enters hrest hi hg hE hent => exact h.entered hf hent

theorem of_start {entry : BlockId} (hf : f.Regular entry) {args : List Datum}
    (hargs : List.Forall₂ (Datum.HasTy cells) args (f.params.map f.tyOf))
    (hs : Frame.start f args = .ok s) :
    s.Typed f cells := by
  obtain ⟨-, -, hact, hvalues, hmem⟩ := hf.sits_start (E := f.Leads) hs
  refine ⟨hact, fun {v d} hv => ?_, fun cell => by rw [hmem]; trivial⟩
  rw [hvalues] at hv
  obtain ⟨n, hn, hv⟩ := Option.bind_eq_some_iff.1 hv
  have hparam : f.params[n]? = some v := (idxOf?_eq_some hf.coherent.flow.params_nodup).1 hn
  have hty : (f.params.map f.tyOf)[n]? = some (f.tyOf v) := by
    rw [List.getElem?_map, hparam, Option.map_some]
  obtain ⟨hlt, rfl⟩ := List.getElem?_eq_some_iff.1 hv
  obtain ⟨hlt', hty⟩ := List.getElem?_eq_some_iff.1 hty
  rw [← hty]
  exact hargs.get hlt hlt'

end Frame.Typed

/-- Where the frame is, everything that was computed is there, and all data are of their types. -/
structure Frame.Live (f : Func) (entry : BlockId) (cells : Cell → Ty) (s : Frame) : Prop where
  sits : s.Sits f f.Leads entry
  activation : s.activation = 0
  params : ∀ v ∈ f.params, ∃ d, s.values v = some d
  /-- Stores and terminators aside, the instructions that ran left their results. -/
  computed : ∀ {i inst v}, f.flow.inst? i = some inst → inst.op ≠ .store →
    inst.op.isTerminator = false →
    f.flow.result? i = some v → f.Behind f.Leads entry s.block s.rest i → ∃ d, s.values v = some d
  values : ∀ {v d}, s.values v = some d → d.HasTy cells (f.tyOf v)
  memory : ∀ cell, (s.memory cell).HasTy cells (cells cell)

namespace Frame.Live

variable {f : Func} {entry : BlockId} {cells : Cell → Ty} {s t : Frame}

theorem typed (h : s.Live f entry cells) : s.Typed f cells :=
  ⟨h.activation, h.values, h.memory⟩

theorem read_ok (hf : f.Safe entry cells) (h : s.Live f entry cells) {u : InstId}
    {inst : Inst} {v : ValueId} (hu : f.flow.inst? u = some inst) (hmem : v ∈ inst.args)
    (hav : f.Avail f.Leads entry s.block s.rest v) :
    ∃ d, s.read f v = .ok d ∧ d.HasTy cells (f.tyOf v) := by
  obtain ⟨o, ho⟩ := hf.clean.coherent.flow.operand hu hmem
  cases o with
  | const w =>
    refine ⟨.word w, Frame.read_const ho, ?_⟩
    rw [Func.tyOf_eq ho]
    rfl
  | undef ty =>
    refine ⟨.undefined, ?_, trivial⟩
    unfold Frame.read
    rw [ho]
  | reg ty => exact absurd ho (hf.clean.noRegs v ty)
  | param ty p =>
    obtain ⟨d, hd⟩ := h.params v (hf.declared.listed ho)
    refine ⟨d, ?_, h.values hd⟩
    unfold Frame.read
    rw [ho, hd]
  | result ty i =>
    obtain ⟨home, ys, hhome, hi, hbehind⟩ := hav ho
    obtain ⟨jnst, hj⟩ := hf.clean.coherent.inst_of_mem hhome hi
    obtain ⟨hstore, hterm⟩ := hf.productive.sources hu hmem ho hj
    obtain ⟨d, hd⟩ := h.computed hj hstore hterm (hf.clean.coherent.flow.origin_result ho) ⟨home,
      ys, hhome, hi, hbehind⟩
    refine ⟨d, ?_, h.values hd⟩
    unfold Frame.read
    rw [ho, hd]

theorem operand_ok (hf : f.Safe entry cells) (h : s.Live f entry cells) {i : InstId}
    {rest : List InstId} {inst : Inst} (hrest : s.rest = i :: rest)
    (hi : f.flow.inst? i = some inst) {v : ValueId} (hmem : v ∈ inst.args) :
    ∃ d, s.read f v = .ok d ∧ d.HasTy cells (f.tyOf v) := by
  obtain ⟨pre, hpre⟩ := h.sits.suffix
  have hplain : inst.op.isPhi = false := by
    rw [← DataFlow.isPhi_of_inst hi]
    exact h.sits.plain i (by rw [hrest]; exact List.mem_cons_self)
  apply h.read_ok hf hi hmem
  rw [hrest] at hpre ⊢
  exact hf.orderly.body h.sits.connects hpre hi hplain hmem

theorem incoming_ok (hf : f.Safe entry cells) (h : s.Live f entry cells) {last : InstId}
    (hrest : s.rest = [last]) {b : BlockId} {xs : List InstId} (hE : f.Leads s.block b)
    (hb : f.insts b = .ok xs) {phi : InstId} (hphi : phi ∈ xs.takeWhile f.flow.isPhi) :
    ∃ w d, f.flow.result? phi = some w ∧ s.merged f s.block phi = .ok (w, d) := by
  obtain ⟨pre, hpre⟩ := h.sits.suffix
  rw [hrest] at hpre
  have hmem : phi ∈ xs := (List.takeWhile_prefix _).subset hphi
  obtain ⟨v, inst, hinst, hin, hedge, hop⟩ := hf.clean.regular.incoming hb hphi hE
  have harg : v ∈ inst.args := Inst.arg_of_edge hedge
  obtain ⟨w, hw⟩ := hf.productive.yields hinst (.inl (by simpa [Opcode.isPhi] using hop))
  have hlast : f.flow.isTerminator last = true := (hf.clean.regular.terminator_iff hpre).2 rfl
  have hav : f.Avail f.Leads entry s.block s.rest v := by
    intro ty i ho
    have hend := hf.orderly.phis h.sits.connects hE hb hmem hinst hop hedge ho
    rw [hrest]
    -- The last instruction of the block ends it, so it is not what defines the value.
    rcases (hf.clean.regular.behind_cons hpre h.sits.connects).1 hend with rfl | hbehind
    · obtain ⟨jnst, hj⟩ := DataFlow.inst_of_isTerminator hlast
      rw [DataFlow.isTerminator_of_inst hj, (hf.productive.sources hinst harg ho hj).2] at hlast
      cases hlast
    · exact hbehind
  obtain ⟨d, hd, -⟩ := h.read_ok hf hinst harg hav
  exact ⟨w, d, hw, Frame.merged_eq_ok.2 ⟨v, hin, hw, hd⟩⟩

theorem set_result (hf : f.Safe entry cells) (h : s.Live f entry cells) {i : InstId}
    {rest : List InstId} {v : ValueId} {d : Datum} (hrest : s.rest = i :: rest)
    (hv : f.flow.result? i = some v) (hd : d.HasTy cells (f.yieldTy i))
    (ht : ({ s with rest }.set v d).Sits f f.Leads entry) :
    ({ s with rest }.set v d).Live f entry cells where
  sits := ht
  activation := h.activation
  params := by
    intro w hw
    obtain ⟨e, he⟩ := h.params w hw
    by_cases hwv : w = v
    · exact ⟨d, if_pos hwv⟩
    · exact ⟨e, (if_neg hwv).trans he⟩
  computed := by
    intro j inst w hj hstore hterm hw hbehind
    by_cases hwv : w = v
    · exact ⟨d, if_pos hwv⟩
    obtain ⟨pre, hpre⟩ := h.sits.suffix
    rw [hrest] at hpre
    rcases (hf.clean.regular.behind_cons hpre h.sits.connects).1 hbehind with rfl | hbehind
    · exact absurd (Option.some.inj (hw.symm.trans hv)) hwv
    · obtain ⟨e, he⟩ := h.computed hj hstore hterm hw (hrest ▸ hbehind)
      exact ⟨e, (if_neg hwv).trans he⟩
  values := (h.typed.set_result hv hd rest).values
  memory := h.memory

theorem store_cell (hf : f.Safe entry cells) (h : s.Live f entry cells) {i : InstId}
    {rest : List InstId} {x y : ValueId} {cell : Cell} {d : Datum} (hrest : s.rest = i :: rest)
    (hi : f.flow.inst? i = some (.binary .store x y)) (hx : s.read f x = .ok (.address cell))
    (hy : s.read f y = .ok d) (ht : ({ s with rest }.store cell d).Sits f f.Leads entry) :
    ({ s with rest }.store cell d).Live f entry cells where
  sits := ht
  activation := h.activation
  params := h.params
  computed := by
    intro j inst w hj hstore hterm hw hbehind
    obtain ⟨pre, hpre⟩ := h.sits.suffix
    rw [hrest] at hpre
    rcases (hf.clean.regular.behind_cons hpre h.sits.connects).1 hbehind with rfl | hbehind
    · rw [hi] at hj
      cases hj
      exact absurd rfl hstore
    · exact h.computed hj hstore hterm hw (hrest ▸ hbehind)
  values := h.values
  memory := (h.typed.store_cell hf.ruled hi hx hy rest).memory

theorem entered (hf : f.Safe entry cells) (h : s.Live f entry cells) {last : InstId} {b : BlockId}
    {xs : List InstId} (hrest : s.rest = [last]) (hE : f.Leads s.block b)
    (hent : Frame.Entered f s t b xs) (ht : t.Sits f f.Leads entry) : t.Live f entry cells := by
  obtain ⟨pre, hpre⟩ := h.sits.suffix
  rw [hrest] at hpre
  have hlast : f.flow.isTerminator last = true := (hf.clean.regular.terminator_iff hpre).2 rfl
  -- A value either is the result of a phi, and then merged, or holds what it held before.
  have hcase : ∀ w, (∃ phi ∈ xs.takeWhile f.flow.isPhi, f.flow.result? phi = some w) ∨
      t.values w = s.values w := by
    intro w
    by_cases hw : ∃ phi ∈ xs.takeWhile f.flow.isPhi, f.flow.result? phi = some w
    · exact .inl hw
    · exact .inr (hent.kept w fun phi hphi hr => hw ⟨phi, hphi, hr⟩)
  have hmerged : ∀ {w phi}, phi ∈ xs.takeWhile f.flow.isPhi → f.flow.result? phi = some w →
      ∃ d, t.values w = some d := by
    intro w phi hphi hr
    obtain ⟨v, w', d, hin, hr', hd, hset⟩ := hent.merged phi hphi
    cases hr.symm.trans hr'
    exact ⟨d, hset⟩
  have hkeep : ∀ {w}, (∃ d, s.values w = some d) → ∃ d, t.values w = some d := by
    rintro w ⟨d, hd⟩
    rcases hcase w with ⟨phi, hphi, hr⟩ | hsame
    · exact hmerged hphi hr
    · exact ⟨d, hsame.trans hd⟩
  have htyped := h.typed.entered hf.ruled hent
  refine ⟨ht, htyped.activation, fun v hv => hkeep (h.params v hv), ?_, htyped.values,
    htyped.memory⟩
  · intro i inst v hi hstore hterm hv hbehind
    rw [hent.block, hent.rest] at hbehind
    have hnot : f.flow.isTerminator i = false := (DataFlow.isTerminator_of_inst hi).trans hterm
    rcases (hf.clean.regular.behind_enter h.sits.connects hE hent.insts hnot hlast).1 hbehind
      with hphi | ⟨-, hbefore, -⟩
    · exact hmerged hphi hv
    · exact hkeep (h.computed hi hstore hterm hv (hrest ▸ hbefore))

theorem step (hf : f.Safe entry cells) (h : s.Live f entry cells) (hstep : f.Steps f.Leads s t) :
    t.Live f entry cells := by
  have ht := hf.clean.regular.sits_step h.sits hstep
  cases hstep with
  | yields hrest hne hi hv hg => exact h.set_result hf hrest hv (h.typed.gives hf.ruled hi hg) ht
  | stores hrest hne hi hx hy => exact h.store_cell hf hrest hi hx hy ht
  | enters hrest hi hg hE hent => exact h.entered hf hrest hE hent ht

end Frame.Live

/-- What stops a run although all types are right. -/
inductive Frame.Stops (f : Func) (s : Frame) : Stuck → Prop
  | refused {i : InstId} {rest : List InstId} {op : Opcode} {x y : ValueId}
      {a b : Datum} {e : Stuck} :
      s.rest = i :: rest → f.flow.inst? i = some (.binary op x y) → s.read f x = .ok a →
      s.read f y = .ok b →
      Refuses i op a b e → Stops f s e
  /-- A branch or a return depends on an undefined value, or memory is accessed through one. -/
  | undefined {i : InstId} {rest : List InstId} {inst : Inst} {x : ValueId} : s.rest = i :: rest →
      f.flow.inst? i = some inst → inst.args.head? = some x →
      inst.op = .brCond ∨ inst.op = .retValue ∨ inst.op = .load ∨ inst.op = .store →
      s.read f x = .ok .undefined →
      Stops f s (.undefinedUse i)

/-- How a step of a live frame turns out. -/
inductive Frame.Fares (f : Func) (cells : Cell → Ty) (s : Frame) : Except Stuck Step → Prop
  | moves {t : Frame} : f.Steps f.Leads s t → Fares f cells s (.ok (.next t))
  | returned {d : Datum} : d ≠ .undefined → d.HasTy cells f.sig.returns → Fares f cells s
      (.ok (.done (some d)))
  | ended : f.sig.returns = .void → Fares f cells s (.ok (.done none))
  | stopped {e : Stuck} : s.Stops f e → Fares f cells s (.error e)

theorem Func.result_of_yieldTy {f : Func} {i : InstId} (h : f.yieldTy i ≠ .void) :
    ∃ v, f.flow.result? i = some v := by
  cases hr : f.flow.result? i with
  | some v => exact ⟨v, rfl⟩
  | none =>
    rw [Func.yieldTy, hr] at h
    exact absurd rfl h

namespace Frame.Live

variable {f : Func} {entry : BlockId} {cells : Cell → Ty} {s : Frame} {i : InstId}
  {rest : List InstId} {inst : Inst}

theorem fares_of_gives (hf : f.Safe entry cells) (h : s.Live f entry cells)
    (hrest : s.rest = i :: rest) (hi : f.flow.inst? i = some inst) {d : Datum}
    (hg : Frame.Gives f s i inst d) (hv : ∃ v, f.flow.result? i = some v) :
    Frame.Fares f cells s (s.step f) := by
  obtain ⟨v, hv⟩ := hv
  obtain ⟨pre, hpre⟩ := h.sits.suffix
  rw [hrest] at hpre
  have hne : rest ≠ [] := by
    intro hnil
    have hterm := (hf.clean.regular.terminator_iff hpre).2 hnil
    rw [hf.clean.regular.gives_not_terminator hi hg] at hterm
    cases hterm
  rw [Frame.step_next_iff.2 (.yields hrest hi hv hg)]
  exact .moves (.yields hrest hne hi hv hg)

theorem fares_of_goes (hf : f.Safe entry cells) (h : s.Live f entry cells)
    (hrest : s.rest = i :: rest) (hi : f.flow.inst? i = some inst) {b : BlockId}
    (hg : Frame.Goes f s inst b) :
    Frame.Fares f cells s (s.step f) := by
  obtain ⟨pre, hpre⟩ := h.sits.suffix
  rw [hrest] at hpre
  have hterm := hf.clean.regular.goes_terminator hi hg
  obtain rfl := (hf.clean.regular.terminator_iff hpre).1 hterm
  have hE : f.Leads s.block b :=
    hf.clean.valid.shape.leads hpre (by simp) hi ((DataFlow.isTerminator_of_inst hi).symm.trans
      hterm) hg.reads.2
  obtain ⟨xs, hb⟩ := Layout.mem_blocks_iff.1 (hf.clean.valid.shape.targets hi b hg.reads.2)
  obtain ⟨ps, hps⟩ : ∃ ps, (xs.takeWhile f.flow.isPhi).mapM
      (({ s with rest := [] } : Frame).merged f s.block) = .ok ps := by
    apply mapM_exists
    intro phi hphi
    obtain ⟨w, d, -, hm⟩ := h.incoming_ok hf hrest hE hb hphi
    exact ⟨(w, d), hm⟩
  obtain ⟨t, ht⟩ : ∃ t, ({ s with rest := [] } : Frame).enter f i b = .ok t :=
    ⟨_, Frame.enter_eq_ok.2 ⟨xs, ps, hb, hps, rfl⟩⟩
  obtain ⟨xs', hent⟩ := Frame.enter_spec hf.clean.coherent ht
  have hstep := Frame.step_next_iff.2 (.enters hrest hi hg ht)
  rw [hstep]
  apply Frame.Fares.moves
  apply hf.clean.regular.steps h.sits hstep
  intro _
  rw [hent.block]
  exact hE

theorem step_eq (hrest : s.rest = i :: rest) (hi : f.flow.inst? i = some inst) :
    s.step f = { s with rest }.execute f i inst := by
  unfold Frame.step
  rw [hrest]
  simp only [hi]

theorem fares_nullary (hf : f.Safe entry cells) (h : s.Live f entry cells)
    (hrest : s.rest = i :: rest) {op : Opcode} (hi : f.flow.inst? i = some (.nullary op)) :
    Frame.Fares f cells s (s.step f) := by
  obtain ⟨hform, hrule⟩ := hf.clean.valid.types hi
  by_cases ha : op = .alloca
  · subst ha
    apply h.fares_of_gives hf hrest hi .alloca
    apply Func.result_of_yieldTy
    intro hvoid
    simp only [Func.Rule, if_true, hvoid] at hrule
    cases hrule
  · have hret : op = .ret := by simpa [Verify.formFits, ha] using hform
    subst hret
    rw [step_eq hrest hi]
    exact .ended hrule

theorem fares_unary (hf : f.Safe entry cells) (h : s.Live f entry cells)
    (hrest : s.rest = i :: rest) {op : Opcode} {x : ValueId}
    (hi : f.flow.inst? i = some (.unary op x)) : Frame.Fares f cells s (s.step f) := by
  obtain ⟨hform, hrule⟩ := hf.clean.valid.types hi
  obtain ⟨a, hx, hty⟩ := h.operand_ok hf hrest hi List.mem_cons_self
  by_cases hl : op = .load
  · subst hl
    simp only [Func.Rule, if_true] at hrule
    rw [hrule] at hty
    rcases hty.of_ptr with rfl | ⟨cell, rfl, -⟩
    · simp only [step_eq hrest hi, Frame.execute, if_true, Frame.cellAt, Frame.read_rest, hx,
        ok_bind, error_bind]
      exact .stopped (.undefined hrest hi rfl (.inr (.inr (.inl rfl))) hx)
    · exact h.fares_of_gives hf hrest hi (.load hx) (hf.productive.yields hi (.inr rfl))
  by_cases hr : op = .retValue
  · subst hr
    simp only [Func.Rule, reduceCtorEq, if_false, if_true] at hrule
    simp only [step_eq hrest hi, Frame.execute, reduceCtorEq, if_false, if_true,
      Frame.read_rest, hx, ok_bind]
    split
    · rename_i hu
      exact .stopped (.undefined hrest hi rfl (.inr (.inl rfl)) (hu ▸ hx))
    · rename_i hu
      exact .returned hu (hrule ▸ hty)
  · obtain ⟨d, hd, -⟩ :=
      Frame.compute_unary hf.clean.coherent hl hr hform hrule (hf.yieldTy_ne i) hty
    apply h.fares_of_gives hf hrest hi (.unary hl hr hx hd)
    have hpure : op.isPure = true := by
      simp only [Verify.formFits, hl, hr, decide_false, Bool.false_or, Bool.or_eq_true] at hform
      rcases hform with hop | hop <;> simp [Opcode.isPure, hop]
    obtain ⟨v, -, hv, -⟩ := Func.Rule.yields hform hrule hpure
    exact ⟨v, hv⟩

theorem fares_binary (hf : f.Safe entry cells) (h : s.Live f entry cells)
    (hrest : s.rest = i :: rest) {op : Opcode} {x y : ValueId}
    (hi : f.flow.inst? i = some (.binary op x y)) : Frame.Fares f cells s (s.step f) := by
  obtain ⟨hform, hrule⟩ := hf.clean.valid.types hi
  obtain ⟨a, hx, hax⟩ := h.operand_ok hf hrest hi List.mem_cons_self
  obtain ⟨b, hy, hby⟩ := h.operand_ok hf hrest hi (v := y) (by simp [Inst.args])
  have hcopy : op ≠ .copy := by
    rintro rfl
    exact hf.clean.regular.noCopies hi
  by_cases hs : op = .store
  · subst hs
    simp only [Func.Rule, if_true] at hrule
    rw [hrule] at hax
    rcases hax.of_ptr with rfl | ⟨cell, rfl, -⟩
    · simp only [step_eq hrest hi, Frame.execute, if_true, Frame.cellAt, Frame.read_rest, hx,
        ok_bind, error_bind]
      exact .stopped (.undefined hrest hi rfl (.inr (.inr (.inr rfl))) hx)
    · obtain ⟨pre, hpre⟩ := h.sits.suffix
      rw [hrest] at hpre
      have hne : rest ≠ [] := by
        intro hnil
        have hterm := (hf.clean.regular.terminator_iff hpre).2 hnil
        rw [DataFlow.isTerminator_of_inst hi] at hterm
        cases hterm
      rw [Frame.step_next_iff.2 (.stores hrest hi hx hy)]
      exact .moves (.stores hrest hne hi hx hy)
  · rcases Frame.compute_binary hs hcopy hform hrule hax hby with ⟨d, hd, -⟩ | ⟨e, he, hrefuse⟩
    · apply h.fares_of_gives hf hrest hi (.binary hs hcopy hx hy hd)
      have hpure : op.isPure = true := by
        simp only [Verify.formFits, hs, hcopy, decide_false, Bool.false_or,
          Bool.or_eq_true] at hform
        rcases hform with hop | hop <;> simp [Opcode.isPure, hop]
      obtain ⟨v, -, hv, -⟩ := Func.Rule.yields hform hrule hpure
      exact ⟨v, hv⟩
    · simp only [step_eq hrest hi, Frame.execute, if_neg hs, if_neg hcopy, Frame.read_rest, hx,
        hy, he, ok_bind, error_bind]
      exact .stopped (.refused hrest hi hx hy hrefuse)

theorem fares_branch (hf : f.Safe entry cells) (h : s.Live f entry cells)
    (hrest : s.rest = i :: rest) {op : Opcode} {c : ValueId} {onTrue onFalse : BlockId}
    (hi : f.flow.inst? i = some (.branch op c onTrue onFalse)) :
    Frame.Fares f cells s (s.step f) := by
  obtain ⟨hform, hrule⟩ := hf.clean.valid.types hi
  obtain ⟨a, hc, hty⟩ := h.operand_ok hf hrest hi List.mem_cons_self
  have hop : op = .brCond := by simpa [Verify.formFits] using hform
  rw [show f.tyOf c = .int 1 from hrule] at hty
  rcases hty.of_int with rfl | ⟨w, rfl, -⟩
  · simp only [step_eq hrest hi, Frame.execute, Frame.read_rest, hc, ok_bind]
    exact .stopped (.undefined hrest hi rfl (.inl hop) hc)
  · exact h.fares_of_goes hf hrest hi (.branch hc)

theorem progress (hf : f.Safe entry cells) (h : s.Live f entry cells) :
    Frame.Fares f cells s (s.step f) := by
  obtain ⟨i, rest, hrest⟩ := List.exists_cons_of_ne_nil h.sits.busy
  obtain ⟨pre, hpre⟩ := h.sits.suffix
  rw [hrest] at hpre
  obtain ⟨inst, hi⟩ := hf.clean.coherent.inst_of_mem hpre
    (List.mem_append_right _ List.mem_cons_self)
  cases inst with
  | nullary op => exact h.fares_nullary hf hrest hi
  | unary op x => exact h.fares_unary hf hrest hi
  | binary op x y => exact h.fares_binary hf hrest hi
  | phi op args preds =>
    have hplain := h.sits.plain i (by rw [hrest]; exact List.mem_cons_self)
    have hform := (hf.clean.valid.types hi).1
    rw [DataFlow.isPhi_of_inst hi] at hplain
    simp only [Verify.formFits, decide_eq_true_eq] at hform
    subst hform
    cases hplain
  | jump op b => exact h.fares_of_goes hf hrest hi .jump
  | branch op c onTrue onFalse => exact h.fares_branch hf hrest hi
  | call op callee args => exact absurd hi hf.noCalls

end Frame.Live

/-- How a run may turn out: it goes on with all data of their types, it returns what it should, or
it stops where types do not help. -/
inductive Func.Allows (f : Func) (cells : Cell → Ty) : Except Stuck Step → Prop
  | next {t : Frame} : (∀ {v d}, t.values v = some d → d.HasTy cells (f.tyOf v)) →
      (∀ cell, (t.memory cell).HasTy cells (cells cell)) → Allows f cells (.ok (.next t))
  | returned {d : Datum} : d ≠ .undefined → d.HasTy cells f.sig.returns → Allows f cells
      (.ok (.done (some d)))
  | ended : f.sig.returns = .void → Allows f cells (.ok (.done none))
  | stopped {t : Frame} {e : Stuck} : t.step f = .error e → t.Stops f e → Allows f cells (.error e)

namespace Frame.Live

variable {f : Func} {entry : BlockId} {cells : Cell → Ty} {s : Frame}

theorem run_allowed (hf : f.Safe entry cells) (h : s.Live f entry cells) (n : Nat) :
    f.Allows cells (s.run f n) := by
  induction n generalizing s with
  | zero => exact .next h.values h.memory
  | succ n ih =>
    have hfares := h.progress hf
    unfold Frame.run
    generalize hout : s.step f = out at hfares
    cases hfares with
    | moves hstep => exact ih (h.step hf hstep)
    | returned hd hty => exact .returned hd hty
    | ended hvoid => exact .ended hvoid
    | stopped hstop => exact .stopped hout hstop

theorem of_start (hf : f.Safe entry cells) {args : List Datum}
    (hargs : List.Forall₂ (Datum.HasTy cells) args f.sig.params) :
    ∃ s, Frame.start f args = .ok s ∧ s.Live f entry cells := by
  obtain ⟨xs, hxs⟩ := Layout.mem_blocks_iff.1 (Func.entry_mem hf.clean.starts)
  obtain ⟨s, hs⟩ : ∃ s, Frame.start f args = .ok s := by
    refine ⟨_, bind_eq_ok.2 ⟨entry, hf.clean.starts, bind_eq_ok.2 ⟨xs, hxs, rfl⟩⟩⟩
  obtain ⟨hsits, -, hact, hvalues, -⟩ := hf.clean.regular.sits_start hs
  have hnodup := hf.clean.coherent.flow.params_nodup
  rw [← hf.declared.types] at hargs
  have htyped := Frame.Typed.of_start hf.clean.regular hargs hs
  have hlen : args.length = f.params.length := by simpa using hargs.length_eq
  refine ⟨s, hs, hsits, hact, ?_, ?_, htyped.values, htyped.memory⟩
  · intro v hv
    obtain ⟨n, hn⟩ := List.mem_iff_getElem?.1 hv
    have hlt : n < args.length := hlen ▸ (List.getElem?_eq_some_iff.1 hn).1
    refine ⟨args[n], ?_⟩
    rw [hvalues]
    exact Option.bind_eq_some_iff.2 ⟨n, (idxOf?_eq_some hnodup).2 hn, List.getElem?_eq_getElem hlt⟩
  · intro i inst v _ _ _ _ hbehind
    exact absurd hbehind (hf.orderly.not_behind_start (hf.clean.regular.atStart hs))

end Frame.Live

/-- What each cell is for, read off the `alloca`s. -/
def Func.cellTy (f : Func) (cell : Cell) : Ty := ((f.yieldTy cell.slot).target.toOption).getD .void

theorem Func.slotsTyped_cellTy (f : Func) : f.SlotsTyped f.cellTy := by
  intro i ty _ hy
  show ((f.yieldTy i).target.toOption).getD .void = ty
  rw [hy]
  rfl

def DataFlow.isComputed (g : DataFlow) (v : ValueId) : Bool :=
  match g.origin? v with
  | some (.result _ i) => (g.inst? i).all fun inst => inst.op ≠ .store && !inst.op.isTerminator
  | _ => true

theorem DataFlow.isComputed_spec {g : DataFlow} {v : ValueId} {ty : Ty} {i : InstId} {inst : Inst}
    (h : g.isComputed v = true) (ho : g.origin? v = some (.result ty i))
    (hi : g.inst? i = some inst) :
    inst.op ≠ .store ∧ inst.op.isTerminator = false := by
  unfold isComputed at h
  simpa [ho, hi] using h

def Inst.isCall : Inst → Bool
  | .call .. => true
  | _ => false

def Func.isSelfContained (f : Func) : Bool :=
  f.isClean && f.allReached && f.flow.values.toList.all (·.2.origin.ty ≠ .int 0) &&
    f.flow.insts.toList.all (!·.2.inst.isCall)

def Func.isSound (f : Func) (i : InstId) (inst : Inst) : Bool :=
  (inst.op ≠ .phi && inst.op ≠ .load || (f.flow.result? i).isSome) &&
    inst.args.all f.flow.isComputed

theorem Func.clean_of_isSelfContained {f : Func} (hc : f.Coherent) (h : f.isSelfContained = true) :
    ∃ entry, f.Clean entry ∧ (∀ b ∈ f.blocks, f.Reachable b) ∧ (∀ v, f.flow.ty v ≠ .ok (.int 0)) ∧
      ∀ i op callee vs, f.flow.inst? i ≠ some (.call op callee vs) := by
  unfold isSelfContained at h
  simp only [Bool.and_eq_true] at h
  obtain ⟨⟨⟨hclean, hreached⟩, hwide⟩, hcalls⟩ := h
  obtain ⟨entry, hclean⟩ := clean_of_isClean hc hclean
  refine ⟨entry, hclean, reachable_of_allReached hc hclean.valid hreached, ty_ne_of_all hwide, ?_⟩
  intro i op callee vs hi
  obtain ⟨e, he, heq⟩ := DataFlow.inst?_eq_some.1 hi
  have hno := List.all_eq_true.1 hcalls (i, e) (Table.mem_toList.2 he)
  rw [heq] at hno
  cases hno

theorem Func.productive_of_all {f : Func}
    (h : f.flow.insts.toList.all (fun e => f.isSound e.1 e.2.inst) = true) :
    f.Productive := by
  have hsound : ∀ {i inst}, f.flow.inst? i = some inst → f.isSound i inst = true := by
    intro i inst hi
    obtain ⟨e, he, rfl⟩ := DataFlow.inst?_eq_some.1 hi
    exact List.all_eq_true.1 h (i, e) (Table.mem_toList.2 he)
  unfold isSound at hsound
  simp only [Bool.and_eq_true] at hsound
  refine ⟨?_, ?_⟩
  · intro i inst hi hop
    have hyields := (hsound hi).1
    rcases hop with hop | hop <;>
      exact Option.isSome_iff_exists.1 (by simpa [hop] using hyields)
  · intro u inst v ty i jnst hu hv ho hj
    exact DataFlow.isComputed_spec (List.all_eq_true.1 (hsound hu).2 v hv) ho hj

/-- Functions without errors do not go wrong: on arguments of the right types every run of every
length goes on with all data of their types, returns what the function is said to return, or stops
at a zero divisor, at a comparison of addresses or at an undefined value that has to be known. -/
theorem Func.runs_allowed {f : Func} {entry : BlockId} {cells : Cell → Ty} {args : List Datum}
    (hclean : f.Clean entry) (hreach : ∀ b ∈ f.blocks, f.Reachable b)
    (hwide : ∀ v, f.flow.ty v ≠ .ok (.int 0))
    (hcalls : ∀ i op callee vs, f.flow.inst? i ≠ some (.call op callee vs)) (hdecl : f.Declared)
    (hprod : f.Productive) (hslots : f.SlotsTyped cells)
    (hargs : List.Forall₂ (Datum.HasTy cells) args f.sig.params) :
    ∃ s, Frame.start f args = .ok s ∧ ∀ n, f.Allows cells (s.run f n) := by
  have hf : f.Safe entry cells :=
    ⟨hclean, hreach, hwide, fun {i op callee vs} => hcalls i op callee vs, hdecl, hprod, hslots⟩
  obtain ⟨s, hs, hlive⟩ := Frame.Live.of_start hf hargs
  exact ⟨s, hs, fun n => hlive.run_allowed hf n⟩

/-- The argument is divided by all numbers from itself down to one, in memory. -/
def divideDown : Checked Builder :=
  Func.build "divide" ⟨[.int 32], some (.int 32)⟩
    [.block (some "entry"), .block (some "loop"), .block (some "exit"), .const (.int32 1),
    .const (.int32 0),
      .goTo (.append ⟨0⟩), .insert (.nullary .alloca) (.ptr (.int 32)),
      .insert (.binary .store ⟨3⟩ ⟨0⟩) .void, .insert (.jump .br ⟨1⟩) .void,
      .goTo (.append ⟨1⟩), .insert (.phi .phi [⟨0⟩] [⟨0⟩]) (.int 32),
      .insert (.unary .load ⟨3⟩) (.int 32), .insert (.binary .udiv ⟨5⟩ ⟨4⟩) (.int 32),
      .insert (.binary .store ⟨3⟩ ⟨6⟩) .void, .insert (.binary .sub ⟨4⟩ ⟨1⟩) (.int 32),
      .edge ⟨3⟩ ⟨7⟩ ⟨1⟩, .insert (.binary .eq ⟨7⟩ ⟨2⟩) (.int 1),
      .insert (.branch .brCond ⟨8⟩ ⟨2⟩ ⟨1⟩) .void, .goTo (.append ⟨2⟩),
      .insert (.unary .load ⟨3⟩) (.int 32), .insert (.unary .retValue ⟨9⟩) .void]

theorem divideDown_allowed : ∃ b entry s, divideDown = .ok b ∧ b.func.Clean entry ∧
    b.func.Productive ∧ Frame.start b.func [.word (.int32 5)] = .ok s ∧
    ∀ n, b.func.Allows b.func.cellTy (s.run b.func n) := by
  obtain ⟨b, hb, h⟩ := exists_of_any (x := divideDown) (p := fun b => b.func.isSelfContained &&
    b.flow.insts.toList.all (fun e => b.func.isSound e.1 e.2.inst) && b.func.sig.params =
    [.int 32]) (by decide +kernel)
  simp only [Bool.and_eq_true, decide_eq_true_eq] at h
  obtain ⟨⟨hself, hsound⟩, hparams⟩ := h
  obtain ⟨entry, hclean, hreached, hwide, hcalls⟩ :=
    Func.clean_of_isSelfContained (Func.build_coherent (by decide) hb) hself
  have hprod := Func.productive_of_all hsound
  have hargs : List.Forall₂ (Datum.HasTy b.func.cellTy) [.word (.int32 5)] b.func.sig.params := by
    rw [hparams]
    exact .cons rfl .nil
  obtain ⟨s, hs, hrun⟩ :=
    Func.runs_allowed hclean hreached hwide hcalls (Func.build_declared (by decide) hb) hprod
      b.func.slotsTyped_cellTy hargs
  exact ⟨b, entry, s, hb, hclean, hprod, hs, hrun⟩

def Func.stuck? (f : Func) (args : List Datum) (n : Nat) : Option Stuck :=
  match (Frame.start f args).toOption with
  | some s =>
    match s.run f n with
    | .ok _ => none
    | .error e => some e
  | none => none

theorem Func.run_of_stuck? {f : Func} {args : List Datum} {n : Nat} {e : Stuck}
    (h : f.stuck? args n = some e) :
    ∃ s, Frame.start f args = .ok s ∧ s.run f n = .error e := by
  unfold stuck? at h
  split at h
  · rename_i s hs
    split at h
    · cases h
    · rename_i e' he
      cases h
      exact ⟨s, ok_of_toOption hs, he⟩
  · cases h

theorem Frame.run_error {f : Func} {m : Nat} {s : Frame} {e : Stuck}
    (h : s.run f m = .error e) (n : Nat) :
    s.run f (m + n) = .error e := by
  induction m generalizing s with
  | zero => cases h
  | succ m ih =>
    rw [Nat.succ_add]
    simp only [run] at h ⊢
    split at h
    · exact ih h
    · exact h

theorem Func.not_returns_of_stuck? {f : Func} {args : List Datum} {n : Nat} {e : Stuck}
    (h : f.stuck? args n = some e) (d : Datum) : ¬ f.Returns args d := by
  rintro ⟨t, m, ht, hm⟩
  obtain ⟨s, hs, hn⟩ := run_of_stuck? h
  cases hs.symm.trans ht
  have hstop := Frame.run_error hn m
  rw [Nat.add_comm, Frame.run_done hm n] at hstop
  cases hstop

theorem Func.Allows.not_unset {f : Func} {cells : Cell → Ty} {v : ValueId} :
    ¬ f.Allows cells (.error (.unset v)) := by
  intro h
  cases h with
  | stopped _ hstop =>
    cases hstop with
    | refused _ _ _ _ hrefuse => cases hrefuse

/-- A store is said to yield a word, and the word is returned. -/
def storeYields : Checked Builder :=
  Func.build "f" ⟨[], some (.int 32)⟩
    [.block (some "entry"), .const (.int32 1),
      .goTo (.append ⟨0⟩), .insert (.nullary .alloca) (.ptr (.int 32)),
      .insert (.binary .store ⟨1⟩ ⟨0⟩) (.int 32), .insert (.unary .retValue ⟨2⟩) .void]

/-- Verification finds nothing, but the word is never there. -/
theorem storeYields_not_allowed : ∃ b entry s n, storeYields = .ok b ∧ b.func.Clean entry ∧
    b.func.predecessors entry = [] ∧ (∀ c ∈ b.func.blocks, b.func.Reachable c) ∧
    (∀ v, b.flow.ty v ≠ .ok (.int 0)) ∧
    (∀ i op callee vs, b.flow.inst? i ≠ some (.call op callee vs)) ∧ b.func.Declared ∧
    b.func.sig.params = [] ∧ Frame.start b.func [] = .ok s ∧
    ∀ cells, ¬ b.func.Allows cells (s.run b.func n) := by
  obtain ⟨b, hb, h⟩ := exists_of_any (x := storeYields) (p := fun b => b.func.isSelfContained &&
    (b.func.entry.toOption.any fun entry => (b.func.predecessors entry).isEmpty) &&
    b.func.sig.params = [] && b.func.stuck? [] 3 = some (.unset ⟨2⟩)) (by decide +kernel)
  simp only [Bool.and_eq_true, decide_eq_true_eq] at h
  obtain ⟨⟨⟨hself, hpreds⟩, hparams⟩, hstuck⟩ := h
  obtain ⟨entry, hclean, hreached, hwide, hcalls⟩ :=
    Func.clean_of_isSelfContained (Func.build_coherent (by decide) hb) hself
  obtain ⟨entry', hentry, hpreds⟩ := exists_of_any hpreds
  cases hclean.starts.symm.trans hentry
  obtain ⟨s, hs, hrun⟩ := Func.run_of_stuck? hstuck
  refine ⟨b, entry, s, 3, hb, hclean, List.isEmpty_iff.1 hpreds, hreached, hwide, hcalls,
    Func.build_declared (by decide) hb, hparams, hs, ?_⟩
  intro cells
  rw [hrun]
  exact Func.Allows.not_unset

end MiddleEnd
