import MiddleEnd.Proofs.BuilderHistories

/-!
# Revisions

Working on a function without calling anything new. Nothing is imported, and calls are only added as
copies of calls that are there; apart from that, any operation of a builder will do.
-/

namespace MiddleEnd

namespace Builder

def Action.Revises (b : Builder) : Action → Prop
  | .build _ (.call _ _) => False
  | .build _ order => order.fits = true
  | .insert inst _ => ∀ f, inst.callee? = some f → ∃ i old, b.flow.inst? i = some old ∧
    old.callee? = some f
  | .declare _ _ => False
  | .edit change => change.inPlace = true
  | _ => True

abbrev Revised : Builder → Builder → Prop := History Action.Revises

namespace Revised

variable {start b c : Builder} {i : InstId}

theorem perform (h : Revised start b) {a : Action} (ha : a.Revises b) (hc : a.apply b = .ok c) :
    Revised start c :=
  h.tail ⟨a, ha, hc⟩

theorem edit (h : Revised start b) (change : DataFlow.Change) {g : DataFlow}
    (hc : change.inPlace = true) (hg : change.apply b.flow = .ok g) :
    Revised start (b.withFlow g) := by
  refine h.perform (a := .edit change) hc ?_
  rw [Action.apply, hg]
  rfl

theorem undef (h : Revised start b) (ty : Ty) : Revised start (b.withFlow (b.flow.undef ty).2) :=
  h.edit (.undef ty) rfl rfl

theorem const (h : Revised start b) (w : Word) : Revised start (b.withFlow (b.flow.const w).2) :=
  h.edit (.const w) rfl rfl

theorem goTo (h : Revised start b) (pos : InsertPos) : Revised start (b.goTo pos) :=
  h.perform (a := .goTo pos) trivial rfl

theorem build (h : Revised start b) {name? : Option String} (order : Order)
    (ha : Action.Revises b (.build name? order)) (hc : order.build b name? = .ok c) :
    Revised start c :=
  h.perform ha hc

theorem remove (h : Revised start b) (hc : b.removeInst i = .ok c) : Revised start c :=
  h.perform (a := .remove i) trivial hc

theorem delete (h : Revised start b) (hc : b.deleteInst i = .ok c) : Revised start c :=
  h.perform (a := .delete i) trivial hc

theorem replaceUse (h : Revised start b) {old new : ValueId} (hc : b.replaceUse old new = .ok c) :
    Revised start c := by
  obtain ⟨⟨n, g⟩, hg, hc⟩ := bind_eq_ok.1 hc
  cases hc
  exact h.edit (.replaceUse old new) rfl (snd_eq_ok.2 ⟨n, hg⟩)

theorem replaceByUndef (h : Revised start b) {v : ValueId} (hc : b.replaceByUndef v = .ok c) :
    Revised start c := by
  obtain ⟨ty, -, hc⟩ := bind_eq_ok.1 hc
  exact (h.undef ty).replaceUse hc

theorem removeIncoming (h : Revised start b) {n : Nat} {block : BlockId} {g : DataFlow}
    (hg : b.flow.removeIncoming i block = .ok (n, g)) : Revised start (b.withFlow g) :=
  h.edit (.removeIncoming i block) rfl (snd_eq_ok.2 ⟨n, hg⟩)

theorem replaceBlockWithin (h : Revised start b) {n : Nat} {old new : BlockId} {g : DataFlow}
    (hg : b.flow.replaceBlockWithin old new i = .ok (n, g)) : Revised start (b.withFlow g) :=
  h.edit (.replaceBlockWithin old new i) rfl (snd_eq_ok.2 ⟨n, hg⟩)

theorem atTerminator (h : Revised start b) {block : BlockId} (hc : b.atTerminator block = .ok c) :
    Revised start c :=
  h.perform (a := .atTerminator block) trivial hc

theorem moveToEnd (h : Revised start b) {block : BlockId} (hc : b.moveToEnd i block = .ok c) :
    Revised start c :=
  h.perform (a := .moveToEnd i block) trivial hc

theorem removeBlock (h : Revised start b) {block : BlockId} (hc : b.removeBlock block = .ok c) :
    Revised start c :=
  h.perform (a := .removeBlock block) trivial hc

theorem addBlock (h : Revised start b) {name? : Option String} {block : BlockId}
    (hc : b.addBlock name? = .ok (block, c)) : Revised start c :=
  h.perform (a := .block name?) trivial (snd_eq_ok.2 ⟨block, hc⟩)

theorem addBlockAfter (h : Revised start b) {name : String} {after block : BlockId}
    (hc : b.addBlockAfter name after = .ok (block, c)) : Revised start c :=
  h.perform (a := .blockAfter name after) trivial (snd_eq_ok.2 ⟨block, hc⟩)

theorem br (h : Revised start b) {name? : Option String} {target : BlockId}
    (hc : b.br name? target = .ok (i, c)) :
    Revised start c :=
  h.build (.br target) rfl (snd_eq_ok.2 ⟨i, hc⟩)

theorem copy (h : Revised start b) {name? : Option String} {reg v : ValueId}
    (hc : b.copy name? reg v = .ok (i, c)) :
    Revised start c :=
  h.build (.copy reg v) rfl (snd_eq_ok.2 ⟨i, hc⟩)

theorem binary (h : Revised start b) {name? : Option String} {op : Opcode} {x y v : ValueId}
    (hc : b.binary name? op x y = .ok (v, c)) : Revised start c :=
  h.build (.binary op x y) rfl (snd_eq_ok.2 ⟨v, hc⟩)

theorem phiTyped (h : Revised start b) {name? : Option String} {ty : Ty} {args : List ValueId}
    {preds : List BlockId} {v : ValueId} (hc : b.phiTyped name? ty args preds = .ok (v, c)) :
    Revised start c :=
  h.build (.phiTyped ty args preds) rfl (snd_eq_ok.2 ⟨v, hc⟩)

theorem clone (h : Revised start b) {inst : Inst} {ty : Ty} {j : InstId}
    (hi : b.flow.inst? i = some inst) (hc : b.insert inst ty = .ok (j, c)) : Revised start c :=
  h.perform (a := .insert inst ty) (fun _ hf => ⟨i, inst, hi, hf⟩) (snd_eq_ok.2 ⟨j, hc⟩)

theorem foldlM {α : Type} {f : Builder → α → Checked Builder} {l : List α} (h : Revised start b)
    (hf : ∀ {c x d}, Revised start c → f c x = .ok d → Revised start d)
    (hc : l.foldlM f b = .ok c) :
    Revised start c :=
  foldlM_ok_induct (fun _ => Revised start) hc h fun _ _ _ _ _ _ hc hd => hf hc hd

end Revised

end Builder

def Func.Revised (f f' : Func) : Prop := ∃ b, Builder.Revised { func := f } b ∧ b.func = f'

namespace Func.Revised

variable {f f' f'' : Func}

theorem refl (f : Func) : f.Revised f := ⟨_, .refl, rfl⟩

theorem trans (h : f.Revised f') (h' : f'.Revised f'') : f.Revised f'' := by
  obtain ⟨b, hb, rfl⟩ := h
  obtain ⟨c, hc, rfl⟩ := h'
  exact ⟨c, (Builder.Revised.goTo hb .none).trans hc, rfl⟩

end Func.Revised

end MiddleEnd
