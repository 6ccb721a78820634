import MiddleEnd.Proofs.BuilderSteps
import MiddleEnd.Proofs.RecursivePruning
import MiddleEnd.Verify

/-!
# Histories of a builder

An operation of a builder that goes through is a sequence of steps, however much it removes on the
way. So the parts of a function still fit together after any operations since the function was
empty: instructions, results, layout, blocks and the insertion point.
-/

namespace MiddleEnd.Builder

abbrev Steps (Q : Inst → Ty → DataFlow → Prop) : Builder → Builder → Prop :=
  Relation.ReflTransGen (Step Q)

variable {b b' : Builder} {Q : Inst → Ty → DataFlow → Prop}

theorem Steps.intact (hs : Steps Q b b') (h : b.Intact) : b'.Intact := by
  induction hs with
  | refl => exact h
  | tail _ hstep ih => exact hstep.intact ih

theorem Steps.formed (hs : Steps Inst.Fits b b') (h : b.Intact) (hf : b.flow.Formed) :
    b'.flow.Formed := by
  induction hs with
  | refl => exact hf
  | tail hpre hstep ih => exact hstep.formed (Steps.intact hpre h) ih

/-- The relation holds of what is done, one thing at a time, when parts of a function are
removed. -/
structure Dismantling (R : Builder → Builder → Prop) : Prop where
  refl : ∀ b, R b b
  trans : ∀ {b c d}, R b c → R c d → R b d
  undef : ∀ b ty, R b (b.withFlow (b.flow.undef ty).2)
  replaceUse : ∀ {b old new n g}, b.flow.replaceUse old new = .ok (n, g) → R b (b.withFlow g)
  removeIncoming : ∀ {b i block n g}, b.flow.removeIncoming i block = .ok (n, g) →
    R b (b.withFlow g)
  remove : ∀ {b c i}, b.removeInst i = .ok c → R b c
  leave : ∀ b, R b (b.goTo .none)
  dropBlock : ∀ {b block g l info table}, b.pos ≠ .append block → b.pos ≠ .prepend block →
    b.flow.forgetBlock block = .ok g → b.func.layout.removeBlock block = .ok l →
    b.func.blockTable.remove block = .ok (info, table) →
    R b { b with func := { b.func with flow := g.touch, layout := l, blockTable := table } }

namespace Dismantling

variable {R : Builder → Builder → Prop}

theorem foldlM {α : Type} {f : Builder → α → Checked Builder} {l : List α} (hR : Dismantling R)
    (hf : ∀ c x c', f c x = .ok c' → R c c') (h : l.foldlM f b = .ok b') : R b b' :=
  foldlM_ok_induct (fun _ c => R b c) h (hR.refl b) fun _ x _ c c' _ hc hstep =>
    hR.trans hc (hf c x c' hstep)

theorem replaceByUndef (hR : Dismantling R) {v : ValueId} (h : b.replaceByUndef v = .ok b') :
    R b b' := by
  obtain ⟨ty, -, h⟩ := bind_eq_ok.1 h
  obtain ⟨⟨n, g⟩, hg, h⟩ := bind_eq_ok.1 h
  cases h
  apply hR.trans (hR.undef b ty)
  exact hR.replaceUse (b := b.withFlow (b.flow.undef ty).2) hg

theorem deleteInst (hR : Dismantling R) {i : InstId} (h : b.deleteInst i = .ok b') : R b b' := by
  unfold Builder.deleteInst at h
  dsimp only at h
  split at h
  · obtain ⟨used, -, h⟩ := bind_eq_ok.1 h
    split at h
    · obtain ⟨c, hc, h⟩ := bind_eq_ok.1 h
      exact hR.trans (hR.replaceByUndef hc) (hR.remove h)
    · exact hR.remove h
  · exact hR.remove h

theorem pruneWithin (hR : Dismantling R) {fuel : Nat} {i : InstId} {removed : Bool}
    (h : pruneWithin fuel i b = .ok (removed, b')) : R b b' := by
  induction fuel generalizing i b removed b' with
  | zero => cases h
  | succ fuel ih =>
    rw [Builder.pruneWithin] at h
    obtain ⟨dead, -, h⟩ := bind_eq_ok.1 h
    cases dead with
    | false =>
      cases h
      exact hR.refl b
    | true =>
      obtain ⟨inst, -, h⟩ := bind_eq_ok.1 h
      obtain ⟨operands, -, h⟩ := bind_eq_ok.1 h
      obtain ⟨c, hc, h⟩ := bind_eq_ok.1 h
      obtain ⟨d, hd, h⟩ := bind_eq_ok.1 h
      cases h
      refine hR.trans (hR.remove hc) (hR.foldlM (fun c j c' hj => ?_) hd)
      split at hj
      · obtain ⟨⟨_, e⟩, he, hj⟩ := bind_eq_ok.1 hj
        cases hj
        exact ih he
      · cases hj
        exact hR.refl _

theorem dropReferences (hR : Dismantling R) {block : BlockId}
    (h : b.dropReferences block = .ok b') : R b b' := by
  refine hR.foldlM (fun c i c' hi => ?_) h
  split at hi
  · obtain ⟨⟨n, g⟩, hg, hi⟩ := bind_eq_ok.1 hi
    cases hi
    exact hR.removeIncoming hg
  · obtain ⟨text, -, hi⟩ := bind_eq_ok.1 hi
    cases hi

theorem removeBlock (hR : Dismantling R) {block : BlockId} (h : b.removeBlock block = .ok b') :
    R b b' := by
  unfold Builder.removeBlock at h
  obtain ⟨insts, -, h⟩ := bind_eq_ok.1 h
  obtain ⟨b₁, h₁, h⟩ := bind_eq_ok.1 h
  obtain ⟨b₂, h₂, h⟩ := bind_eq_ok.1 h
  obtain ⟨b₃, h₃, h⟩ := bind_eq_ok.1 h
  have hemptied : R b b₃ := by
    apply hR.trans (hR.foldlM (fun _ _ _ hv => hR.replaceByUndef hv) h₁)
    exact hR.trans (hR.foldlM (fun _ _ _ hi => hR.remove hi) h₂) (hR.dropReferences h₃)
  dsimp only at h
  -- an insertion point in the block is given up
  split at h
  · obtain ⟨g, hg, h⟩ := bind_eq_ok.1 h
    obtain ⟨l, hl, h⟩ := bind_eq_ok.1 h
    obtain ⟨⟨info, table⟩, ht, h⟩ := bind_eq_ok.1 h
    cases h
    exact hR.trans (hR.trans hemptied (hR.leave b₃)) (hR.dropBlock nofun nofun hg hl ht)
  · rename_i hpos
    obtain ⟨g, hg, h⟩ := bind_eq_ok.1 h
    obtain ⟨l, hl, h⟩ := bind_eq_ok.1 h
    obtain ⟨⟨info, table⟩, ht, h⟩ := bind_eq_ok.1 h
    cases h
    exact hR.trans hemptied (hR.dropBlock (fun hp => hpos (.inl hp)) (fun hp =>
      hpos (.inr hp)) hg hl ht)

end Dismantling

theorem steps_dismantle (Q : Inst → Ty → DataFlow → Prop) : Dismantling (Steps Q) where
  refl _ := .refl
  trans h h' := h.trans h'
  undef _ ty := .single (.edit (.undef ty) rfl rfl)
  replaceUse {_ old new n _} hg := .single (.edit (.replaceUse old new) rfl (snd_eq_ok.2 ⟨n, hg⟩))
  removeIncoming {_ i block n _} hg :=
    .single (.edit (.removeIncoming i block) rfl (snd_eq_ok.2 ⟨n, hg⟩))
  remove hr := .single (.remove hr)
  leave _ := .single (.goTo trivial)
  dropBlock happend hprepend hg hl ht := .single (.dropBlock happend hprepend hg hl ht)

theorem atTerminator_steps {block : BlockId} (h : b.atTerminator block = .ok b') :
    Steps Q b b' := by
  obtain ⟨term?, hterm, h⟩ := bind_eq_ok.1 h
  obtain ⟨last?, hlast, hterm⟩ := bind_eq_ok.1 hterm
  cases hterm
  obtain ⟨insts, hinsts, hlast⟩ := bind_eq_ok.1 hlast
  cases hlast
  obtain ⟨row, hrow, rfl⟩ := Layout.insts_eq_ok.1 hinsts
  split at h
  · rename_i t ht
    cases h
    refine .single (.goTo ?_)
    obtain ⟨hlast, -⟩ := Option.filter_eq_some_iff.1 ht
    exact List.mem_flatMap.2 ⟨row, Layout.row?_mem hrow, List.mem_of_getLast? hlast⟩
  · cases h
    exact .single (.goTo (Layout.mem_blocks_iff.2 ⟨_, hinsts⟩))

theorem atPhisEnd_steps {block : BlockId} (h : b.atPhisEnd block = .ok b') : Steps Q b b' := by
  obtain ⟨phis, hphis, h⟩ := bind_eq_ok.1 h
  obtain ⟨insts, hinsts, hphis⟩ := bind_eq_ok.1 hphis
  cases hphis
  obtain ⟨row, hrow, rfl⟩ := Layout.insts_eq_ok.1 hinsts
  split at h
  · rename_i phi hphi
    cases h
    refine .single (.goTo (List.mem_flatMap.2 ⟨row, Layout.row?_mem hrow, ?_⟩))
    exact (List.takeWhile_prefix _).subset (List.mem_of_getLast? hphi)
  · cases h
    exact .single (.goTo (Layout.mem_blocks_iff.2 ⟨_, hinsts⟩))

theorem emit_steps {name? : Option String} {inst : Inst} {ty : Ty} {i : InstId}
    (hshape : inst.isShaped = true) (hq : Q inst ty b.flow)
    (h : b.emit name? inst ty = .ok (i, b')) : Steps Q b b' := by
  obtain ⟨⟨j, c⟩, hc, h⟩ := bind_eq_ok.1 h
  have hstep : Step Q b c := .insert hshape hq hc
  dsimp only at h
  split at h
  · rename_i name v _ _
    cases h
    exact (Relation.ReflTransGen.single hstep).tail (.edit (.setName v name) rfl rfl)
  · cases h
    exact .single hstep

/-- An instruction by its operation. -/
inductive Order where
  | alloca (ty : Ty)
  | load (slot : ValueId)
  | store (slot v : ValueId)
  | unary (op : Opcode) (x : ValueId)
  | binary (op : Opcode) (x y : ValueId)
  | cast (op : Opcode) (x : ValueId) (ty : Ty)
  | call (callee : ImportId) (args : List ValueId)
  | phiTyped (ty : Ty) (args : List ValueId) (preds : List BlockId)
  | phi (args : List ValueId) (preds : List BlockId)
  | copy (reg v : ValueId)
  | br (target : BlockId)
  | brCond (cond : ValueId) (onTrue onFalse : BlockId)
  | ret
  | retValue (v : ValueId)

namespace Order

/-- Add the instruction at the current place and name its result. -/
def build (b : Builder) (name? : Option String) : Order → Checked Builder
  | alloca ty => return (← b.alloca name? ty).2
  | load slot => return (← b.load name? slot).2
  | store slot v => return (← b.store name? slot v).2
  | unary op x => return (← b.unary name? op x).2
  | binary op x y => return (← b.binary name? op x y).2
  | cast op x ty => return (← b.cast name? op x ty).2
  | call callee args => return (← b.call name? callee args).2
  | phiTyped ty args preds => return (← b.phiTyped name? ty args preds).2
  | phi args preds => return (← b.phi name? args preds).2
  | copy reg v => return (← b.copy name? reg v).2
  | br target => return (← b.br name? target).2
  | brCond cond onTrue onFalse => return (← b.brCond name? cond onTrue onFalse).2
  | ret => return (← b.ret name?).2
  | retValue v => return (← b.retValue name? v).2

/-- Casts are made by casting operations. -/
def fits : Order → Bool
  | cast op _ _ => op.isCast
  | _ => true

end Order

theorem op_of_callee {inst : Inst} {f : ImportId} (h : Verify.formFits inst = true)
    (hf : inst.callee? = some f) :
    inst.op = .call := by
  cases inst with
  | call op g args => exact of_decide_eq_true h
  | _ => cases hf

/-- What an order comes to: an instruction in the form of its operation, which is named if it yields
something. -/
structure Emitted (b b' : Builder) (name? : Option String) (inst : Inst) (ty : Ty) (i : InstId) :
    Prop where
  emit : b.emit name? inst ty = .ok (i, b')
  shaped : inst.isShaped = true
  form : Verify.formFits inst = true
  callee : ∀ {f}, inst.callee? = some f → ∃ target, b.flow.imports.get? f = some target ∧
    ty = target.sig.returns
  value : inst.op.alwaysYields = true → ∃ v, b'.flow.result? i = some v
  effect : inst.callee? = none → inst.op.alwaysYields = false → ty = .void

theorem emitted_value {name? : Option String} {inst : Inst} {ty : Ty} {v : ValueId}
    (he : b.emitValue name? inst ty = .ok (v, b')) (hshape : inst.isShaped = true)
    (hform : Verify.formFits inst = true) (hcallee : inst.callee? = none)
    (hyields : inst.op.alwaysYields = true) :
    ∃ inst ty i, Emitted b b' name? inst ty i := by
  obtain ⟨⟨i, c⟩, hc, he⟩ := bind_eq_ok.1 he
  obtain ⟨w, hw, he⟩ := bind_eq_ok.1 he
  cases he
  refine ⟨inst, ty, i, hc, hshape, hform, fun hf => ?_, fun _ => ⟨_, DataFlow.result_eq_ok.1 hw⟩,
    fun _ hn => ?_⟩
  · rw [hcallee] at hf
    cases hf
  · rw [hyields] at hn
    cases hn

theorem emitted_effect {name? : Option String} {inst : Inst} {i : InstId}
    (he : b.emit name? inst .void = .ok (i, b')) (hshape : inst.isShaped = true)
    (hform : Verify.formFits inst = true) (hcallee : inst.callee? = none)
    (hyields : inst.op.alwaysYields = false) : ∃ inst ty i, Emitted b b' name? inst ty i := by
  refine ⟨inst, .void, i, he, hshape, hform, fun hf => ?_, fun hy => ?_, fun _ _ => rfl⟩
  · rw [hcallee] at hf
    cases hf
  · rw [hyields] at hy
    cases hy

theorem emitted_phi {name? : Option String} {ty : Ty} {args : List ValueId}
    {preds : List BlockId} {v : ValueId} (he : b.phiTyped name? ty args preds = .ok (v, b')) :
    ∃ inst ty i, Emitted b b' name? inst ty i := by
  unfold phiTyped at he
  dsimp only at he
  split at he
  · cases he
  · rename_i hlen
    exact emitted_value he (Inst.isShaped_phi.2 ⟨rfl, Decidable.not_not.1 hlen⟩) rfl rfl rfl

theorem Order.emits {name? : Option String} {order : Order} (hfits : order.fits = true)
    (hb : order.build b name? = .ok b') : ∃ inst ty i, Emitted b b' name? inst ty i := by
  have hpure : ∀ {op : Opcode}, op.isPure = true → op.alwaysYields = true := by
    intro op hop
    rw [Opcode.alwaysYields, hop, Bool.or_true]
  cases order with
  | alloca ty =>
    obtain ⟨v, hc⟩ := snd_eq_ok.1 hb
    exact emitted_value hc rfl rfl rfl rfl
  | load slot =>
    obtain ⟨v, hc⟩ := snd_eq_ok.1 hb
    obtain ⟨ty, -, hc⟩ := bind_eq_ok.1 hc
    obtain ⟨target, -, hc⟩ := bind_eq_ok.1 hc
    exact emitted_value hc rfl rfl rfl rfl
  | unary op x =>
    obtain ⟨v, hc⟩ := snd_eq_ok.1 hb
    unfold Builder.unary at hc
    dsimp only at hc
    split at hc
    · cases hc
    · rename_i hop
      obtain ⟨ty, -, hc⟩ := bind_eq_ok.1 hc
      have hop : op.isUnaryArith = true := by simpa using hop
      have hyields : op.isPure = true := by simp [Opcode.isPure, hop]
      exact emitted_value hc rfl (by simp [Verify.formFits, hop]) rfl (hpure hyields)
  | binary op x y =>
    obtain ⟨v, hc⟩ := snd_eq_ok.1 hb
    unfold Builder.binary at hc
    dsimp only at hc
    split at hc
    · rename_i hop
      have hyields : op.isPure = true := by simp [Opcode.isPure, hop]
      exact emitted_value hc rfl (by simp [Verify.formFits, hop]) rfl (hpure hyields)
    · split at hc
      · rename_i hop
        obtain ⟨ty, -, hc⟩ := bind_eq_ok.1 hc
        have hyields : op.isPure = true := by simp [Opcode.isPure, hop]
        exact emitted_value hc rfl (by simp [Verify.formFits, hop]) rfl (hpure hyields)
      · cases hc
  | cast op x ty =>
    obtain ⟨v, hc⟩ := snd_eq_ok.1 hb
    have hop : op.isCast = true := hfits
    have hyields : op.isPure = true := by simp [Opcode.isPure, hop]
    exact emitted_value hc rfl (by simp [Verify.formFits, hop]) rfl (hpure hyields)
  | call callee args =>
    obtain ⟨i, hc⟩ := snd_eq_ok.1 hb
    obtain ⟨target, htarget, hc⟩ := bind_eq_ok.1 hc
    refine ⟨_, _, i, hc, rfl, rfl, fun hf => ?_, fun hphi => ?_, fun hphi => ?_⟩
    · cases hf
      exact ⟨target, ofOption_eq_ok.1 htarget, rfl⟩
    · cases hphi
    · cases hphi
  | phiTyped ty args preds =>
    obtain ⟨v, hc⟩ := snd_eq_ok.1 hb
    exact emitted_phi hc
  | phi args preds =>
    obtain ⟨v, hc⟩ := snd_eq_ok.1 hb
    cases args with
    | nil => cases hc
    | cons x args =>
      obtain ⟨ty, -, hc⟩ := bind_eq_ok.1 hc
      exact emitted_phi hc
  | store slot v =>
    obtain ⟨i, hc⟩ := snd_eq_ok.1 hb
    exact emitted_effect hc rfl rfl rfl rfl
  | copy reg v =>
    obtain ⟨i, hc⟩ := snd_eq_ok.1 hb
    exact emitted_effect hc rfl rfl rfl rfl
  | br target =>
    obtain ⟨i, hc⟩ := snd_eq_ok.1 hb
    exact emitted_effect hc rfl rfl rfl rfl
  | brCond cond onTrue onFalse =>
    obtain ⟨i, hc⟩ := snd_eq_ok.1 hb
    exact emitted_effect hc rfl rfl rfl rfl
  | ret =>
    obtain ⟨i, hc⟩ := snd_eq_ok.1 hb
    exact emitted_effect hc rfl rfl rfl rfl
  | retValue v =>
    obtain ⟨i, hc⟩ := snd_eq_ok.1 hb
    exact emitted_effect hc rfl rfl rfl rfl

theorem Emitted.ty_ne_void {name? : Option String} {inst : Inst} {ty : Ty}
    {i : InstId} {v : ValueId} (he : Emitted b b' name? inst ty i) (h : b.Intact)
    (hv : b'.flow.result? i = some v) : ty ≠ .void := by
  obtain ⟨⟨j, c⟩, hc, hemit⟩ := bind_eq_ok.1 he.emit
  obtain ⟨_, v?, _, _, _, hins⟩ := insert_of_ok h.coherent (Inst.even_of_isShaped he.shaped) hc
  have hresult : b'.flow.result? i = c.flow.result? j := by
    dsimp only at hemit
    split at hemit
    · cases hemit
      exact ((DataFlow.clearName_kept _ _).result? _).trans rfl
    · cases hemit
      rfl
  have hnew : c.flow.result? j = v? := (hins.grown.result? j).trans (if_pos rfl)
  intro hvoid
  rw [hresult, hnew, hins.grown.yields.2 hvoid] at hv
  cases hv

theorem Emitted.fits {name? : Option String} {inst : Inst} {ty : Ty} {i : InstId}
    (he : Emitted b b' name? inst ty i) (h : b.Intact) : inst.Fits ty b.flow := by
  refine ⟨fun hf => ?_, ?_, fun hne => ?_⟩
  · obtain ⟨target, htarget, -⟩ := he.callee hf
    exact ⟨target, htarget⟩
  · rintro (hy | ⟨-, f, target, hf, ht, hne⟩)
    · obtain ⟨v, hv⟩ := he.value hy
      exact he.ty_ne_void h hv
    · obtain ⟨target', ht', rfl⟩ := he.callee hf
      cases ht.symm.trans ht'
      exact hne
  · by_cases hy : inst.op.alwaysYields = true
    · exact .inl hy
    · cases hf : inst.callee? with
      | none => exact absurd (he.effect hf (by simpa using hy)) hne
      | some f =>
        obtain ⟨target, ht, rfl⟩ := he.callee hf
        exact .inr ⟨op_of_callee he.form hf, f, target, hf, ht, hne⟩

/-- Any instruction may come with any type. -/
def AnyType (_ : Inst) (_ : Ty) (_ : DataFlow) : Prop := True

instance (inst : Inst) (ty : Ty) (g : DataFlow) : Decidable (AnyType inst ty g) := isTrue trivial

/-- The operations on a function that is being built. -/
inductive Action where
  | block (name? : Option String)
  | blockAfter (name : String) (after : BlockId)
  | nameBlock (c : BlockId) (name? : Option String)
  | goTo (pos : InsertPos)
  | atTerminator (c : BlockId)
  | atPhisEnd (c : BlockId)
  | build (name? : Option String) (order : Order)
  | insert (inst : Inst) (ty : Ty)
  | remove (i : InstId)
  | delete (i : InstId)
  | prune (i : InstId)
  | moveToEnd (i : InstId) (c : BlockId)
  | removeBlock (c : BlockId)
  | declare (name : String) (sig : Signature)
  | edit (change : DataFlow.Change)

namespace Action

/-- The builder after the operation, whatever else it yields. -/
def apply (b : Builder) : Action → Checked Builder
  | block name? => return (← b.addBlock name?).2
  | blockAfter name after => return (← b.addBlockAfter name after).2
  | nameBlock c name? => b.setBlockName c name?
  | goTo pos => return b.goTo pos
  | atTerminator c => b.atTerminator c
  | atPhisEnd c => b.atPhisEnd c
  | build name? order => order.build b name?
  | insert inst ty => return (← b.insert inst ty).2
  | remove i => b.removeInst i
  | delete i => b.deleteInst i
  | prune i => return (← b.prune i).2
  | moveToEnd i c => b.moveToEnd i c
  | removeBlock c => b.removeBlock c
  | declare name sig => return b.withFlow (b.flow.addImport name sig).2
  | edit change => return b.withFlow (← change.apply b.flow)

/-- What there is to do with a builder and with operands: casts are made by casting operations, and
edits of the graph leave the instructions where they are. -/
def Offered (_ : Builder) : Action → Prop
  | build _ order => order.fits = true
  | edit change => change.inPlace = true
  | _ => True

instance (b : Builder) (a : Action) : Decidable (Offered b a) :=
  match a with
  | build _ order => inferInstanceAs (Decidable (order.fits = true))
  | edit change => inferInstanceAs (Decidable (change.inPlace = true))
  | block _ | blockAfter _ _ | nameBlock _ _ | goTo _ | atTerminator _ | atPhisEnd _ | insert _ _ |
    remove _ | delete _
  | prune _ | moveToEnd _ _ | removeBlock _ | declare _ _ => isTrue trivial

/-- An action that goes through is made of steps, if it does not send the builder to any place, add
an instruction of any kind or move one. -/
theorem parts {a : Action}
    (hQ : ∀ {name? inst ty i}, Emitted b b' name? inst ty i → Q inst ty b.flow) (ha : a.Offered b)
    (hb : a.apply b = .ok b') :
    Steps Q b b' ∨ (∃ pos, a = goTo pos) ∨ (∃ inst ty, a = insert inst ty) ∨
    ∃ i c, a = moveToEnd i c := by
  cases a with
  | goTo pos => exact .inr (.inl ⟨pos, rfl⟩)
  | insert inst ty => exact .inr (.inr (.inl ⟨inst, ty, rfl⟩))
  | moveToEnd i c => exact .inr (.inr (.inr ⟨i, c, rfl⟩))
  | block name? =>
    obtain ⟨c, hc⟩ := snd_eq_ok.1 hb
    exact .inl (.single (.block hc))
  | blockAfter name after =>
    obtain ⟨c, hc⟩ := snd_eq_ok.1 hb
    exact .inl (.single (.blockAfter hc))
  | nameBlock c name? => exact .inl (.single (.nameBlock hb))
  | atTerminator c => exact .inl (atTerminator_steps hb)
  | atPhisEnd c => exact .inl (atPhisEnd_steps hb)
  | build name? order =>
    obtain ⟨inst, ty, i, he⟩ := Order.emits ha hb
    exact .inl (emit_steps he.shaped (hQ he) he.emit)
  | remove i => exact .inl (.single (.remove hb))
  | delete i => exact .inl ((steps_dismantle Q).deleteInst hb)
  | prune i =>
    obtain ⟨removed, hp⟩ := snd_eq_ok.1 hb
    exact .inl ((steps_dismantle Q).pruneWithin hp)
  | removeBlock c => exact .inl ((steps_dismantle Q).removeBlock hb)
  | declare name sig =>
    cases hb
    exact .inl (.single (.declare b name sig))
  | edit change =>
    obtain ⟨g, hg, hb⟩ := bind_eq_ok.1 hb
    cases hb
    exact .inl (.single (.edit change ha hg))

/-- What a caller sees to: the builder is sent to places in the function, instructions that come
with a type may have it, and edits of the graph leave the instructions where they are. -/
def Allowed (Q : Inst → Ty → DataFlow → Prop) (b : Builder) : Action → Prop
  | goTo pos => pos.Names b.func.layout
  | build _ order => order.fits = true
  | insert inst ty => inst.isShaped = true ∧ Q inst ty b.flow
  | edit change => change.inPlace = true
  | _ => True

theorem Allowed.any {a : Action} (h : a.Allowed Q b) : a.Allowed AnyType b := by
  cases a with
  | insert inst ty => exact ⟨h.1, trivial⟩
  | _ => exact h

theorem Allowed.offered {a : Action} (h : a.Allowed Q b) : a.Offered b := by
  cases a with
  | goTo pos => trivial
  | insert inst ty => trivial
  | _ => exact h

theorem steps {a : Action} (hQ : ∀ {inst ty g}, Inst.Fits inst ty g → Q inst ty g) (h : b.Intact)
    (hallowed : a.Allowed Q b) (ha : a.apply b = .ok b') :
    Steps Q b b' ∨ ∃ i c, a = moveToEnd i c := by
  rcases parts (fun he => hQ (he.fits h)) hallowed.offered ha with hsteps | ⟨pos, rfl⟩ | ⟨inst,
    ty, rfl⟩ | hmove
  · exact .inl hsteps
  · cases ha
    exact .inl (.single (.goTo hallowed))
  · obtain ⟨i, hi⟩ := snd_eq_ok.1 ha
    exact .inl (.single (.insert hallowed.1 hallowed.2 hi))
  · exact .inr hmove

instance [∀ inst ty g, Decidable (Q inst ty g)] (b : Builder) (a : Action) :
    Decidable (a.Allowed Q b) :=
  match a with
  | goTo pos => inferInstanceAs (Decidable (pos.Names b.func.layout))
  | build _ order => inferInstanceAs (Decidable (order.fits = true))
  | insert inst ty => inferInstanceAs (Decidable (inst.isShaped = true ∧ Q inst ty b.flow))
  | edit change => inferInstanceAs (Decidable (change.inPlace = true))
  | block _ | blockAfter _ _ | nameBlock _ _ | atTerminator _ | atPhisEnd _ | remove _ |
    delete _ | prune _
  | moveToEnd _ _ | removeBlock _ | declare _ _ => isTrue trivial

/-- The builder after some operations, if each satisfies the condition where it is taken and goes
through. -/
def run (P : Builder → Action → Prop) [∀ b a, Decidable (P b a)] (b : Builder) :
    List Action → Option Builder
  | [] => some b
  | a :: rest =>
    if P b a then
      match a.apply b with
      | .ok c => run P c rest
      | .error _ => none
    else none

end Action

/-- One operation that satisfies a condition and goes through. -/
def Performs (P : Builder → Action → Prop) (b b' : Builder) : Prop :=
  ∃ a, P b a ∧ Action.apply b a = .ok b'

/-- Any number of operations that satisfy a condition and go through. -/
abbrev History (P : Builder → Action → Prop) : Builder → Builder → Prop :=
  Relation.ReflTransGen (Performs P)

variable {P : Builder → Action → Prop}

theorem Action.run_history [∀ b a, Decidable (P b a)] {as : List Action}
    (h : Action.run P b as = some b') :
    History P b b' := by
  induction as generalizing b with
  | nil =>
    cases h
    exact .refl
  | cons a rest ih =>
    unfold Action.run at h
    split at h
    · rename_i hallowed
      split at h
      · rename_i c hc
        exact .head ⟨a, hallowed, hc⟩ (ih h)
      · cases h
    · cases h

theorem Performs.intact (hP : ∀ {b a}, P b a → a.Allowed AnyType b) (hp : Performs P b b')
    (h : b.Intact) :
    b'.Intact := by
  obtain ⟨a, ha, hb⟩ := hp
  rcases Action.steps (fun _ => trivial) h (hP ha) hb with hsteps | ⟨i, c, rfl⟩
  · exact hsteps.intact h
  · exact (moveToEnd_of_ok h hb).1

theorem History.intact (hP : ∀ {b a}, P b a → a.Allowed AnyType b) (hh : History P b b')
    (h : b.Intact) :
    b'.Intact := by
  induction hh with
  | refl => exact h
  | tail _ hlast ih => exact hlast.intact hP ih

theorem History.formed (hh : History (Action.Allowed Inst.Fits) b b') (h : b.Intact)
    (hf : b.flow.Formed) :
    b'.flow.Formed := by
  induction hh with
  | refl => exact hf
  | tail hpre hlast ih =>
    have hc := History.intact Action.Allowed.any hpre h
    obtain ⟨a, ha, hb⟩ := hlast
    rcases Action.steps id hc ha hb with hsteps | ⟨i, c, rfl⟩
    · exact hsteps.formed hc ih
    · exact (moveToEnd_of_ok hc hb).2.1 ▸ ih

theorem prune_ok (h : b.Intact) {i : InstId} {inst : Inst} (hi : b.flow.inst? i = some inst) :
    ∃ removed b', b.prune i = .ok (removed, b') := by
  obtain ⟨removed, b', -, hp, -⟩ := prune_sweeps (h.coherent.swept.mono fun _ _ hu => .inr hu) hi
  exact ⟨removed, b', hp⟩

/-- How the tables of a function and the place for the next instruction fit together. -/
structure Sound (b : Builder) : Prop where
  /-- The instructions of the graph are those of the layout. -/
  placed : ∀ i, b.flow.hasInst i = true ↔ i ∈ b.func.layout.allInsts
  once : b.func.layout.allInsts.Nodup
  inOneBlock : ∀ i ∈ b.func.layout.allInsts, ∃! c, ∃ xs, b.func.insts c = .ok xs ∧ i ∈ xs
  /-- The blocks of the layout are those of the table. -/
  known : ∀ c, b.func.hasBlock c = true ↔ c ∈ b.func.blocks
  blocksOnce : b.func.blocks.Nodup
  /-- An instruction has a result exactly if it yields a value. -/
  yields : ∀ {i inst}, b.flow.inst? i = some inst →
    ((∃ v, b.flow.result? i = some v) ↔ inst.Yields b.flow)
  /-- The results of instructions are the values that refer back to them. -/
  origin : ∀ i v, b.flow.result? i = some v ↔ ∃ ty, ty ≠ .void ∧
    b.flow.origin? v = some (.result ty i)
  /-- Operands exist, and so do the instructions whose results they are. -/
  operand : ∀ {i inst v}, b.flow.inst? i = some inst → v ∈ inst.args →
    ∃ o, b.flow.origin? v = some o ∧ ∀ ty j, o = .result ty j → j ∈ b.func.layout.allInsts
  pos : b.pos.Names b.func.layout

theorem Intact.sound (h : b.Intact) (hf : b.flow.Formed) : b.Sound where
  placed i := DataFlow.hasInst_iff.trans (h.coherent.placed i).symm
  once := (Layout.proper_iff.1 h.coherent.layout).2
  inOneBlock i hi := by
    obtain ⟨c, hc⟩ := h.coherent.layout.mem_allInsts.1 hi
    refine ⟨c, h.coherent.blockOf?_eq_some.1 hc, fun d hd => ?_⟩
    exact Option.some_inj.1 ((h.coherent.blockOf?_eq_some.2 hd).symm.trans hc)
  known c := (h.coherent.known c).symm
  blocksOnce := (Layout.proper_iff.1 h.coherent.layout).1
  yields hi := hf.yields hi
  origin i v := by
    constructor
    · intro hv
      obtain ⟨ty, ho, hne⟩ := h.coherent.flow.result_origin hv
      exact ⟨ty, hne, ho⟩
    · rintro ⟨ty, -, ho⟩
      exact h.coherent.flow.origin_result ho
  operand hi hv := by
    obtain ⟨o, ho⟩ := h.coherent.flow.operand hi hv
    refine ⟨o, ho, fun ty j hj => ?_⟩
    subst hj
    exact (h.coherent.placed j).2 (DataFlow.hasInst_of_result (h.coherent.flow.origin_result ho))
  pos := h.pos

/-- Whatever was done to a function since it was empty, its parts fit together, and pruning one of
its instructions goes through. -/
theorem history_sound {name : String} {sig : Signature} {b : Builder}
    (h : History (Action.Allowed Inst.Fits) { func := .new name sig } b) :
    b.Sound ∧ ∀ {i inst}, b.flow.inst? i = some inst → ∃ removed b', b.prune i = .ok
      (removed, b') :=
  have hintact := History.intact Action.Allowed.any h (new_intact name sig)
  ⟨hintact.sound (h.formed (new_intact name sig) (new_formed name sig)),
  fun hi => prune_ok hintact hi⟩

/-- A function of four blocks, of which one is removed again with all it holds. -/
def reworking : List Action :=
  [.block (some "entry"), .block (some "then"), .block (some "exit"), .blockAfter "else" ⟨1⟩,
    .declare "g" ⟨[.int 32], some (.int 32)⟩, .declare "h" ⟨[], none⟩,
    .goTo (.append ⟨0⟩), .build (some "a") (.alloca (.int 32)), .build none (.store ⟨2⟩ ⟨1⟩),
    .build (some "x") (.load ⟨2⟩), .build none (.brCond ⟨0⟩ ⟨1⟩ ⟨3⟩),
    .goTo (.append ⟨1⟩), .build (some "y") (.binary .mul ⟨3⟩ ⟨3⟩),
    .build (some "r") (.call ⟨0⟩ [⟨4⟩]), .build none (.br ⟨2⟩),
    .goTo (.append ⟨3⟩), .build none (.call ⟨1⟩ []), .build none (.binary .add ⟨3⟩ ⟨3⟩),
    .build none (.br ⟨2⟩), .goTo (.append ⟨2⟩), .build none (.phi [⟨5⟩, ⟨6⟩] [⟨1⟩, ⟨3⟩]),
    .build none (.retValue ⟨7⟩), .atPhisEnd ⟨2⟩, .edit (.const (.int32 1)),
    .build none (.binary .add ⟨7⟩ ⟨8⟩), .prune ⟨12⟩, .delete ⟨5⟩, .moveToEnd ⟨4⟩ ⟨3⟩,
    .goTo (.before ⟨8⟩), .edit (.replaceBlockWithin ⟨3⟩ ⟨2⟩ ⟨3⟩), .removeBlock ⟨3⟩,
    .atTerminator ⟨2⟩, .nameBlock ⟨2⟩ none]

theorem reworking_sound :
    ∃ b, Action.run (Action.Allowed Inst.Fits)
      { func := .new "f" ⟨[.int 1, .int 32], some (.int 32)⟩ } reworking = some b ∧
    b.func.layout.allInsts.map (·.index) = [0, 1, 2, 3, 6, 10, 11] ∧ b.Sound := by
  have hrun : (Action.run (Action.Allowed Inst.Fits) { func := .new "f" ⟨[.int 1, .int 32],
      some (.int 32)⟩ } reworking).any (fun b => b.func.layout.allInsts.map (·.index) = [0, 1, 2, 3,
      6, 10, 11]) = true := by decide +kernel
  obtain ⟨b, hb, hinsts⟩ := (Option.any_eq_true _ _).1 hrun
  exact ⟨b, hb, of_decide_eq_true hinsts, (history_sound (Action.run_history hb)).1⟩

end MiddleEnd.Builder
