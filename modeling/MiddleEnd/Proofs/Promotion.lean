import MiddleEnd.Proofs.Building
import MiddleEnd.Proofs.SingleAssignment
import MiddleEnd.Proofs.SlotRemoval
import MiddleEnd.Proofs.TrivialPhis

/-!
# Promotion

The slots that are promoted are the private ones. Once phis have been placed for them, loads
renamed, slots removed and trivial phis replaced, the function returns what it returned, and nothing
is left of the slots.
-/

namespace MiddleEnd

namespace Promotion

open Func

variable {f : Func} {entry : BlockId} {i j : InstId} {inst : Inst} {a : ValueId}

theorem isAccess_ok (hform : Verify.formFits inst = true) (hj : f.flow.inst? j = some inst)
    (ha : a ∈ inst.args) :
    ∃ q, isAccess f.flow a j = .ok q ∧
      (q = true ↔ inst = .unary .load a ∨ ∃ y, y ≠ a ∧ inst = .binary .store a y) := by
  unfold isAccess
  rw [DataFlow.inst_eq_ok.2 hj, ok_bind]
  cases inst with
  | unary op x =>
    obtain rfl := List.mem_singleton.1 ha
    by_cases hop : op = .load
    · subst hop
      exact ⟨true, rfl, by simp⟩
    · refine ⟨false, ?_, by simp [hop]⟩
      cases op <;> first | rfl | exact absurd rfl hop | cases hform
  | binary op x y =>
    by_cases hop : op = .store
    · subst hop
      by_cases hx : x = a
      · subst hx
        exact ⟨decide (y ≠ x), if_pos rfl, by simp⟩
      · exact ⟨false, if_neg hx, by simp [hx]⟩
    · refine ⟨false, ?_, by simp [hop]⟩
      cases op <;> first | rfl | exact absurd rfl hop | cases hform
  | nullary op => cases ha
  | jump op b => cases ha
  | _ op =>
    refine ⟨false, ?_, by simp⟩
    cases op <;> first | rfl | cases hform

theorem alloca_ok (hf : f.Regular entry) (ht : f.Typed)
    (hi : f.flow.inst? i = some (.nullary .alloca)) :
    ∃ a ty, f.flow.result? i = some a ∧ f.flow.ty a = .ok (.ptr ty) := by
  have hptr : (f.yieldTy i).isPtr = true := ht hi
  cases ha : f.flow.result? i with
  | none =>
    rw [Func.yieldTy, ha] at hptr
    cases hptr
  | some a =>
    obtain ⟨ty, ho, -⟩ := hf.coherent.flow.result_origin ha
    rw [Func.yieldTy_of_result ha, Func.tyOf_eq ho] at hptr
    cases ty with
    | ptr ty => exact ⟨a, ty, rfl, DataFlow.ty_of_origin ho⟩
    | _ => cases hptr

def isPromotable (f : Func) (i : InstId) : Checked Bool := do
  let slot ← f.flow.result i
  (← f.flow.users slot).toList.allM (isAccess f.flow slot)

theorem isPromotable_ok (hf : f.Regular entry) (ht : f.Typed)
    (hi : f.flow.inst? i = some (.nullary .alloca)) :
    ∃ q, isPromotable f i = .ok q ∧ (q = true ↔ ∃ a, f.Private i a) := by
  obtain ⟨a, -, ha, -⟩ := alloca_ok hf ht hi
  obtain ⟨ty, ho, -⟩ := hf.coherent.flow.result_origin ha
  obtain ⟨users, husers, huses⟩ := hf.coherent.flow.users_ok ho
  have haccess : ∀ j ∈ users.toList, ∃ q, isAccess f.flow a j = .ok q ∧ (q = true ↔ ∀ inst,
      f.flow.inst? j = some inst → inst = .unary .load a ∨ ∃ y, y ≠ a ∧
      inst = .binary .store a y) := by
    intro j hj
    obtain ⟨inst, hinst, hmem⟩ := (huses j).1 hj
    obtain ⟨q, hq, hiff⟩ := isAccess_ok (hf.forms hinst) hinst hmem
    refine ⟨q, hq, hiff.trans ⟨fun h inst' hinst' => ?_, fun h => h inst hinst⟩⟩
    cases hinst.symm.trans hinst'
    exact h
  obtain ⟨q, hq, hall⟩ := allM_exists haccess
  refine ⟨q, ?_, hall.trans ⟨fun h => ⟨a, hi, ha, fun {j inst} hj hm => ?_⟩, ?_⟩⟩
  · rw [isPromotable, DataFlow.result_eq_ok.2 ha, ok_bind, husers, ok_bind, hq]
  · exact h j ((huses j).2 ⟨inst, hj, hm⟩) inst hj
  · rintro ⟨a', hp⟩ j hj inst hinst
    cases ha.symm.trans hp.result
    obtain ⟨inst', hinst', hm⟩ := (huses j).1 hj
    cases hinst.symm.trans hinst'
    exact hp.uses hinst hm

theorem promotable_ok (hf : f.Regular entry) (ht : f.Typed) :
    ∃ insts, promotable f = .ok insts ∧ ∀ i, i ∈ insts ↔ ∃ a, f.Private i a := by
  have halloca : ∀ i, i ∈ f.allInsts.filter (fun i => f.flow.op? i = some .alloca) ↔
      f.flow.inst? i = some (.nullary .alloca) := by
    intro i
    rw [List.mem_filter, show i ∈ f.allInsts ↔ _ from hf.coherent.placed i, decide_eq_true_eq]
    constructor
    · rintro ⟨⟨inst, hi⟩, hop⟩
      rw [DataFlow.op?_eq_some hi] at hop
      rw [hi, Verify.alloca_of_form (hf.forms hi) (Option.some.inj hop)]
    · intro hi
      exact ⟨⟨_, hi⟩, DataFlow.op?_eq_some hi⟩
  obtain ⟨insts, hinsts, hmem⟩ :=
    filterM_exists fun i hi => isPromotable_ok hf ht ((halloca i).1 hi)
  refine ⟨insts, hinsts, fun i => (hmem i).trans ⟨And.right, fun h => ⟨?_, h⟩⟩⟩
  obtain ⟨a, hp⟩ := h
  exact (halloca i).2 hp.slot

/-- What a slot holds is asked for: by a load, or by a phi where paths with different stores
meet. -/
def Demands (f : Func) (a : ValueId) : Prop :=
  (∃ l, f.flow.inst? l = some (.unary .load a)) ∨ ∃ c, f.MergesAt a c

/-- What promotion starts from: a function without errors that nothing leads back to the start of.
Values are what its private slots hold when asked, and stores to them yield nothing. -/
structure Ready (f : Func) (entry : BlockId) : Prop where
  regular : f.Regular entry
  typed : f.Typed
  dominated : f.Dominated entry
  source : ∀ q, ¬ f.Leads q entry
  holds : ∀ {i a}, f.Private i a → Demands f a → f.flow.ty a ≠ .ok (.ptr .void)
  silent : ∀ {i a j y}, f.Private i a → f.flow.inst? j = some (.binary .store a y) →
    f.flow.result? j = none

theorem Ready.of_clean (h : f.Clean entry) (hsource : f.predecessors entry = [])
    (hholds : ∀ {i a}, f.Private i a → Demands f a → f.flow.ty a ≠ .ok (.ptr .void))
    (hsilent : ∀ {i a j y}, f.Private i a → f.flow.inst? j = some (.binary .store a y) →
      f.flow.result? j = none) :
    Ready f entry where
  regular := h.regular
  typed := h.typed
  dominated := h.valid.dominated
  source q hq := by
    have := (mem_predecessors h.coherent h.valid.shape.ended).2 hq
    rw [hsource] at this
    cases this
  holds := hholds
  silent := hsilent

section Run

variable {b c d : Builder} {insts needed : List InstId} {s p : State} {t : DominatorTree}
  {slot : Slot} {g base : DataFlow} {τ : ValueId → ValueId}
  {fill : InstId → List (ValueId × BlockId)}

theorem Ready.takes (h : Ready b.func entry) (hinsts : ∀ i, i ∈ insts ↔ ∃ a, b.func.Private i a) :
    ∃ s, State.ofSlots b insts = .ok s ∧ State.Taken b insts s := by
  have hslots : ∀ i ∈ insts, ∃ slot, State.slotOf b.flow i = .ok slot := by
    intro i hi
    obtain ⟨a, hp⟩ := (hinsts i).1 hi
    obtain ⟨a, ty, ha, hty⟩ := alloca_ok h.regular h.typed hp.slot
    exact ⟨⟨i, a, ty⟩, State.slotOf_eq_ok.2 ⟨rfl, ha, hty⟩⟩
  obtain ⟨s, hs⟩ := State.ofSlots_ok h.regular.coherent hslots
  exact ⟨s, hs, State.ofSlots_spec h.regular.coherent hs⟩

theorem State.Taken.hidden (hs : State.Taken b insts s)
    (hinsts : ∀ i, i ∈ insts ↔ ∃ a, b.func.Private i a) (hslot : slot ∈ s.slots) :
    b.func.Private slot.inst slot.address := by
  have hi : slot.inst ∈ insts := hs.insts ▸ List.mem_map_of_mem hslot
  obtain ⟨a, hp⟩ := (hinsts _).1 hi
  cases hp.result.symm.trans (hs.address slot hslot).1
  exact hp

theorem Ready.slot_ty (h : Ready b.func entry) (hinsts : ∀ i, i ∈ insts ↔ ∃ a, b.func.Private i a)
    (hs : State.Taken b insts s) (hslot : slot ∈ s.slots) (hd : Demands b.func slot.address) :
    slot.ty ≠ .void := by
  intro hvoid
  apply h.holds (hs.hidden hinsts hslot) hd
  exact hvoid ▸ (hs.address slot hslot).2

theorem Ready.planted (h : Ready b.func entry) (hinsts : ∀ i, i ∈ insts ↔ ∃ a, b.func.Private i a)
    (hn : insts.Nodup) (ht : t.Faithful b.func entry) (hs : State.Taken b insts s)
    {M : BlockId → List Slot} (hplaced : State.Placed b.func s.slots s.accesses M p)
    (hcovers : State.Covers b.func s.slots M) :
    Planted b.func entry t p ∧ p.Silent := by
  have hslots : p.slots = s.slots := hplaced.slots
  have haccesses : p.accesses = s.accesses := hplaced.accesses
  have hapart : (s.slots.map (·.inst)).Nodup := hs.insts.symm ▸ hn
  have hmerged := hplaced.merged hapart.of_map hcovers
  have hP : Planted b.func entry t p :=
    { regular := h.regular
      typed := h.typed
      dominated := h.dominated
      source := h.source
      tree := ht
      placed := ⟨M, hslots.symm ▸ haccesses.symm ▸ hplaced⟩
      merges := fun {c slot} => hslots.symm ▸ hmerged.points c slot
      once := hmerged.once
      hidden := fun hslot => hs.hidden hinsts (hslots ▸ hslot)
      holds := fun hslot => (hs.address _ (hslots ▸ hslot)).2
      loaded := fun hslot hl => h.slot_ty hinsts hs (hslots ▸ hslot) (.inl ⟨_, hl⟩)
      accesses := haccesses.symm ▸ hslots.symm ▸ hs.accesses
      distinct := haccesses.symm ▸ hs.distinct
      apart := hslots.symm ▸ hapart }
  refine ⟨hP, fun slot hslot i y hi => ?_⟩
  obtain ⟨hold, hi⟩ := hP.old_of_plain hi (by simp)
  rw [hP.result?_old hold]
  exact h.silent (hP.hidden hslot) hi

theorem Ready.places (h : Ready b.func entry) (hinsts : ∀ i, i ∈ insts ↔ ∃ a, b.func.Private i a)
    (hn : insts.Nodup) (ht : t.Faithful b.func entry) (hs : State.Taken b insts s) :
    (s.placePhis t).Yields fun p => Planted b.func entry t p ∧ p.Silent ∧ p.slots.map
      (·.inst) = insts := by
  have hplaces := State.placePhis_places h.regular.coherent h.regular.starts
    h.regular.shape.closed ht hn hs
  refine (hplaces.1 fun slot hslot hvoid c hm => h.slot_ty hinsts hs hslot (.inr ⟨c, hm⟩)
    hvoid).mono ?_
  rintro p ⟨M, hplaced, hcovers⟩
  obtain ⟨hP, hsilent⟩ := h.planted hinsts hn ht hs hplaced hcovers
  exact ⟨hP, hsilent, (congrArg _ hplaced.slots).trans hs.insts⟩

theorem Planted.renames (hP : Planted f entry t p) :
    (State.rename t (t.order.length + 1) [] p entry).Yields fun s =>
    ∃ s' g base τ fill, s.fillUnreachable t = .ok s' ∧ s'.fillLoads = .ok (p.withFlow g) ∧
      Filled f entry t p g base τ fill ∧ Unread p (· ∈ p.accesses) g := by
  refine (rename_root hP).mono ?_
  rintro _ ⟨g, τ, fill, rfl, hrenamed⟩
  obtain ⟨g, fill, hfilled, hrewritten⟩ := fillUnreachable_ok hP hrenamed.toRewritten
  obtain ⟨g', τ, fill, hloads, hrewritten, hunread⟩ := fillLoads_ok hP hrewritten
  obtain ⟨base, hF⟩ := hrewritten.exists_filled hP
  exact ⟨_, g', base, τ, fill, hfilled, hloads, hF, hunread⟩

/-- What promotion leaves of a function: it serves what it served, without the slots. -/
structure Promoted (f f' : Func) (entry : BlockId) : Prop where
  regular : f'.Regular entry
  typed : f'.Typed
  leads : f'.Leads = f.Leads
  orderly : ∀ {E}, f.Orderly E entry → f'.Orderly E entry
  serves : ∀ {E args d}, Foreign args → f.Serves E entry args d → f'.Serves E entry args d
  gone : ∀ {i a}, f.Private i a → f'.flow.inst? i = none ∧
    ∀ j inst, f.flow.inst? j = some inst → a ∈ inst.args → f'.flow.inst? j = none

theorem Filled.Removed.succeeds (hr : Removed p g needed c) (h : Filled f entry t p g base τ fill) :
    (c.removeTrivialPhis (p.added.filter (· ∈ needed))).Yields fun r =>
      TrivialPhi.Succeeded c r.2 entry := by
  refine TrivialPhi.removeFrom_keeps (TrivialPhi.kept_succeeded c entry) ⟨hr.regular h, hr.typed h,
    .refl .., fun hi =>
    ⟨_, hi, rfl⟩⟩ (fun i hi inst hinst => ?_) ?_
  · obtain ⟨hout, hinst⟩ := hr.thinned.inst_of hinst
    have hadded : i ∈ p.added := (List.mem_filter.1 (List.mem_reverse.1 hi)).1
    obtain ⟨args, preds, hphi⟩ := h.inst?_added_renamed hadded
    cases hphi.symm.trans hinst
    obtain ⟨d, slot, hat⟩ := h.planted.mem_added.1 hadded
    obtain ⟨-, -, v, hv, -⟩ := h.planted.phi hat
    have hkept : c.flow.result? i = g.result? i := (hr.thinned.result? i).trans (if_neg hout)
    exact ⟨rfl, v, hkept.trans ((h.rewritten.rewired.result? i).trans hv)⟩
  · rw [List.length_reverse]
    exact Nat.le_succ _

theorem Filled.Removed.promoted (hr : Removed p g needed c) (h : Filled f entry t p g base τ fill)
    (hd : TrivialPhi.Succeeded c d entry)
    (hslots : ∀ {i a}, f.Private i a → i ∈ p.slots.map (·.inst)) :
    Promoted f d.func entry where
  regular := hd.regular
  typed := hd.typed
  leads := hd.inherits.leads.trans (hr.leads h)
  orderly hf := hd.inherits.orderly (hr.orderly h hf)
  serves hargs hs := hd.inherits.refines (hr.serves h hargs hs)
  gone {i a} hp := by
    have hremoved : ∀ {j}, j ∈ p.removed needed → d.flow.inst? j = none := by
      intro j hj
      cases hinst : d.flow.inst? j with
      | none => rfl
      | some inst =>
        obtain ⟨old, hold, -⟩ := hd.fewer hinst
        exact absurd hj (hr.thinned.inst_of hold).1
    obtain ⟨slot, hslot, rfl⟩ := List.mem_map.1 (hslots hp)
    cases hp.result.symm.trans (h.planted.hidden hslot).result
    refine ⟨hremoved (State.mem_removed.2 (.inr (.inr ⟨slot, hslot, rfl⟩))), fun j inst hj hm => ?_⟩
    exact hremoved (State.mem_removed.2
      (.inr (.inl ((h.planted.accesses j).2 ⟨slot, hslot, inst, hj, hm⟩))))

theorem Promoted.refl (h : Ready f entry) (hnone : ∀ i a, ¬ f.Private i a) :
    Promoted f f entry where
  regular := h.regular
  typed := h.typed
  leads := rfl
  orderly := id
  serves _ hs := hs
  gone hp := absurd hp (hnone _ _)

theorem run_promotes (h : Ready b.func entry) :
    (run b).Yields fun r => Promoted b.func r.2.func entry := by
  obtain ⟨insts, hpromotable, hinsts⟩ := promotable_ok h.regular h.typed
  have hc := h.regular.coherent
  unfold run
  refine (Run.yields_log (P := fun _ => True) trivial).bind fun _ _ => ?_
  rw [Func.isEmpty_of_entry h.regular.starts, if_neg Bool.false_ne_true]
  refine (Run.yields_lift ⟨_, hpromotable, rfl⟩).bind ?_
  rintro _ rfl
  cases hempty : insts.isEmpty with
  | true =>
    refine Run.yields_pure (.refl h fun i a hp => ?_)
    have hi := (hinsts i).2 ⟨a, hp⟩
    rw [List.isEmpty_iff.1 hempty] at hi
    cases hi
  | false =>
    rw [if_neg Bool.false_ne_true]
    obtain ⟨t, hof, ht, -⟩ :=
      DominatorTree.ofFunc_ok h.regular.starts h.regular.shape.closed hc.bound
    obtain ⟨s, hs, htaken⟩ := h.takes hinsts
    refine (dominators_yield hof).bind ?_
    rintro _ rfl
    refine (Run.yields_lift ⟨s, hs, rfl⟩).bind ?_
    rintro _ rfl
    refine (Run.yields_log (P := fun _ => True) trivial).bind fun _ _ => ?_
    refine (h.places hinsts (promotable_nodup hc.layout hpromotable) ht htaken).bind ?_
    rintro p ⟨hP, hsilent, hslots⟩
    refine (Run.yields_lift ⟨_, ht.root_ok, rfl⟩).bind ?_
    rintro _ rfl
    refine hP.renames.bind ?_
    rintro s ⟨s', g, base, τ, fill, hunreachable, hloads, hF, hunread⟩
    refine (Run.yields_lift ⟨_, hunreachable, rfl⟩).bind ?_
    rintro _ rfl
    refine (Run.yields_lift ⟨_, hloads, rfl⟩).bind ?_
    rintro _ rfl
    refine (hF.removed_ok hunread hsilent).bind fun s hremoved => hremoved.bind ?_
    rintro c ⟨needed, hadded, hr⟩
    rw [hadded]
    refine (hr.succeeds hF).bind fun r hd => Run.yields_pure (hr.promoted hF hd fun {i a} hp => ?_)
    rw [hslots]
    exact (hinsts i).2 ⟨a, hp⟩

/-- Promotion preserves what a clean function returns if nothing leads to its entry, its slots of
type `void` are asked for nothing and stores to slots yield nothing. -/
theorem run_preserves_returns (h : b.func.Clean entry) (hsource : b.func.predecessors entry = [])
    (hholds : ∀ i a, b.func.Private i a → Demands b.func a → b.flow.ty a ≠ .ok (.ptr .void))
    (hsilent : ∀ i a j y, b.func.Private i a → b.flow.inst? j = some (.binary .store a y) →
      b.flow.result? j = none) :
    ∃ modified b', (run b).outcome = .ok (modified, b') ∧
      ∀ args d, Foreign args → b.func.Returns args d → b'.func.Returns args d := by
  have hready := Ready.of_clean h hsource (hholds _ _) (hsilent _ _ _ _)
  obtain ⟨⟨modified, b'⟩, hrun, hp⟩ := (run_promotes hready).outcome
  refine ⟨modified, b', hrun, fun args d hargs hd => ?_⟩
  obtain ⟨E, hE⟩ := hd.serves h.regular h.valid.dominated
  exact (hp.serves hargs hE).returns

/-- A counter in a slot. -/
def slotLoop : Checked Builder :=
  Func.build "down" ⟨[.int 32], some (.int 32)⟩
    [.block (some "entry"), .block (some "loop"), .block (some "exit"), .const (.int32 1),
    .const (.int32 0),
      .goTo (.append ⟨0⟩), .insert (.nullary .alloca) (.ptr (.int 32)),
      .insert (.binary .store ⟨3⟩ ⟨0⟩) .void, .insert (.jump .br ⟨1⟩) .void,
      .goTo (.append ⟨1⟩), .insert (.unary .load ⟨3⟩) (.int 32),
      .insert (.binary .sub ⟨4⟩ ⟨1⟩) (.int 32), .insert (.binary .store ⟨3⟩ ⟨5⟩) .void,
      .insert (.binary .eq ⟨5⟩ ⟨2⟩) (.int 1), .insert (.branch .brCond ⟨6⟩ ⟨2⟩ ⟨1⟩) .void,
      .goTo (.append ⟨2⟩), .insert (.unary .load ⟨3⟩) (.int 32),
      .insert (.unary .retValue ⟨7⟩) .void]

theorem silent_of_all (h : (f.flow.insts.toList.all fun e =>
    e.2.inst.op ≠ .store || (f.flow.result? e.1).isNone) = true) {j : InstId} {x y : ValueId}
    (hj : f.flow.inst? j = some (.binary .store x y)) : f.flow.result? j = none := by
  obtain ⟨e, he, hinst⟩ := DataFlow.inst?_eq_some.1 hj
  have := List.all_eq_true.1 h (j, e) (Table.mem_toList.2 he)
  simpa [hinst, Inst.op] using this

theorem slotLoop_ok : ∃ b entry, slotLoop = .ok b ∧ b.func.Clean entry ∧
    b.func.predecessors entry = [] ∧ b.func.SingleAssignment ∧
    (∀ v, b.flow.ty v ≠ .ok (.ptr .void)) ∧
    ∀ j x y, b.flow.inst? j = some (.binary .store x y) → b.flow.result? j = none := by
  obtain ⟨b, hb, h⟩ := exists_of_any (x := slotLoop) (p := fun b => b.func.isClean &&
    (b.func.entry.toOption.any fun entry => (b.func.predecessors entry).isEmpty) &&
    b.func.allReached && b.flow.values.toList.all (·.2.origin.ty ≠ .ptr .void) &&
    b.flow.insts.toList.all fun e => e.2.inst.op ≠ .store || (b.flow.result? e.1).isNone)
    (by decide +kernel)
  simp only [Bool.and_eq_true] at h
  obtain ⟨⟨⟨⟨hclean, hpreds⟩, hreached⟩, hty⟩, hsilent⟩ := h
  obtain ⟨entry, hc, hpreds⟩ :=
    Func.clean_of_sourced (Func.build_coherent (by decide) hb) hclean hpreds
  have hasks : b.func.AsksReached :=
    Func.asksReached_of_reachable (Func.reachable_of_allReached hc.coherent hc.valid hreached)
  exact ⟨b, entry, hb, hc, hpreds, hc.singleAssignment hasks, ty_ne_of_all hty,
    fun j x y => silent_of_all hsilent⟩

theorem slotLoop_preserved :
    ∃ b modified b', slotLoop = .ok b ∧ (run b).outcome = .ok (modified, b') ∧
    ∀ args d, Foreign args → b.func.Returns args d → b'.func.Returns args d := by
  obtain ⟨b, entry, hb, hclean, hsource, -, hty, hsilent⟩ := slotLoop_ok
  obtain ⟨modified, b', hrun, hkeep⟩ :=
    run_preserves_returns hclean hsource (fun _ a _ _ => hty a) fun _ _ j y _ => hsilent j _ y
  exact ⟨b, modified, b', hb, hrun, hkeep⟩

/-- A block that control never comes to loads nothing from a slot of type `void`. -/
def voidLoad : Checked Builder :=
  Func.build "f" ⟨[], some (.int 32)⟩
    [.block (some "entry"), .block (some "other"), .block (some "exit"), .const (.ofBool true),
    .const (.int32 7),
      .goTo (.append ⟨0⟩), .insert (.nullary .alloca) (.ptr .void),
      .insert (.branch .brCond ⟨0⟩ ⟨2⟩ ⟨1⟩) .void, .goTo (.append ⟨1⟩),
      .insert (.unary .load ⟨2⟩) .void, .insert (.jump .br ⟨2⟩) .void, .goTo (.append ⟨2⟩),
      .insert (.unary .retValue ⟨1⟩) .void]

/-- The function returns, but promotion ends in a fault. -/
theorem voidLoad_not_preserved :
    ∃ b entry e, voidLoad = .ok b ∧ b.func.Clean entry ∧ b.func.predecessors entry = [] ∧
      b.func.Returns [] (.word ⟨32, 7, by decide, by decide⟩) ∧ (run b).outcome = .error e := by
  obtain ⟨b, hb, h⟩ := exists_of_any (x := voidLoad) (p := fun b => b.func.isClean &&
    (b.func.entry.toOption.any fun entry => (b.func.predecessors entry).isEmpty) &&
    b.func.result? [] 3 = some (.word ⟨32, 7, by decide, by decide⟩) &&
    (run b).outcome.toOption.isNone) (by decide +kernel)
  simp only [Bool.and_eq_true] at h
  obtain ⟨⟨⟨hclean, hpreds⟩, hret⟩, hrun⟩ := h
  obtain ⟨entry, hc, hpreds⟩ :=
    Func.clean_of_sourced (Func.build_coherent (by decide) hb) hclean hpreds
  cases ho : (run b).outcome with
  | ok r =>
    rw [ho] at hrun
    cases hrun
  | error e =>
    exact ⟨b, entry, e, hb, hc, hpreds, Func.returns_of_result? (of_decide_eq_true hret), ho⟩

/-- A clean function in single assignment form is left without errors and without the slots that can
be promoted, under the same conditions. -/
theorem run_verifies (h : b.func.Clean entry) (hsingle : b.func.SingleAssignment)
    (hsource : b.func.predecessors entry = [])
    (hholds : ∀ i a, b.func.Private i a → Demands b.func a → b.flow.ty a ≠ .ok (.ptr .void))
    (hsilent : ∀ i a j y, b.func.Private i a → b.flow.inst? j = some (.binary .store a y) →
      b.flow.result? j = none) :
    ∃ modified b', (run b).outcome = .ok (modified, b') ∧ b'.func.errors = .ok [] ∧
      ∀ insts, promotable b.func = .ok insts → ∀ i ∈ insts, b'.flow.inst? i = none ∧
        ∀ a, b.flow.result? i = some a → ∀ j inst, b.flow.inst? j = some inst → a ∈ inst.args →
          b'.flow.inst? j = none := by
  have hready := Ready.of_clean h hsource (hholds _ _) (hsilent _ _ _ _)
  obtain ⟨⟨modified, b'⟩, hrun, hp⟩ := (run_promotes hready).outcome
  have horderly : b'.func.Orderly b'.func.Leads entry := by
    rw [hp.leads]
    exact hp.orderly (h.orderly (hsingle.asksReached h.coherent))
  refine ⟨modified, b', hrun, horderly.verified hp.typed, fun insts hinsts i hi => ?_⟩
  obtain ⟨insts', hinsts', hmem⟩ := promotable_ok h.regular h.typed
  cases hinsts.symm.trans hinsts'
  obtain ⟨a, hprivate⟩ := (hmem i).1 hi
  refine ⟨(hp.gone hprivate).1, fun a' ha' => ?_⟩
  cases hprivate.result.symm.trans ha'
  exact (hp.gone hprivate).2

theorem slotLoop_verified :
    ∃ b modified b', slotLoop = .ok b ∧ (run b).outcome = .ok (modified, b') ∧ b'.func.errors = .ok
      [] ∧ ∀ insts, promotable b.func = .ok insts → ∀ i ∈ insts, b'.flow.inst? i = none := by
  obtain ⟨b, entry, hb, hclean, hsource, hsingle, hty, hsilent⟩ := slotLoop_ok
  obtain ⟨modified, b', hrun, hv, hgone⟩ :=
    run_verifies hclean hsingle hsource (fun _ a _ _ => hty a) fun _ _ j y _ => hsilent j _ y
  exact ⟨b, modified, b', hb, hrun, hv, fun insts hinsts i hi => (hgone insts hinsts i hi).1⟩

/-- A loop through the entry, around a counter in a slot. -/
def loopToEntry : Checked Builder :=
  Func.build "f" ⟨[.int 1], some (.int 32)⟩
    [.block (some "entry"), .block (some "exit"), .const (.int32 1),
      .goTo (.append ⟨0⟩), .insert (.nullary .alloca) (.ptr (.int 32)),
      .insert (.unary .load ⟨2⟩) (.int 32), .insert (.binary .add ⟨3⟩ ⟨1⟩) (.int 32),
      .insert (.binary .store ⟨2⟩ ⟨4⟩) .void, .insert (.branch .brCond ⟨0⟩ ⟨0⟩ ⟨1⟩) .void,
      .goTo (.append ⟨1⟩), .insert (.unary .retValue ⟨4⟩) .void]

/-- The phi in the entry merges nothing but the sum, which takes its place and comes to use
itself. -/
theorem loopToEntry_not_verified : ∃ b entry modified b', loopToEntry = .ok b ∧ b.func.Clean entry ∧
    (run b).outcome = .ok (modified, b') ∧ b'.func.errors ≠ .ok [] := by
  obtain ⟨b, hb, h⟩ := exists_of_any (x := loopToEntry) (p := fun b => b.func.isClean &&
    (run b).outcome.toOption.any fun r => r.2.func.errors.toOption.all (!·.isEmpty))
    (by decide +kernel)
  rw [Bool.and_eq_true] at h
  obtain ⟨entry, hc⟩ := Func.clean_of_isClean (Func.build_coherent (by decide) hb) h.1
  obtain ⟨⟨modified, b'⟩, hrun, herrors⟩ := exists_of_any h.2
  refine ⟨b, entry, modified, b', hb, hc, hrun, fun hv => ?_⟩
  rw [hv] at herrors
  cases herrors

end Run

end Promotion

end MiddleEnd
