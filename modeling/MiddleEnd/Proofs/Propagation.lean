import MiddleEnd.Proofs.Lattice

/-!
# Propagation

What the two work lists keep up. Every instruction of a block that runs is settled, unless an
operand of it moved up since and waits in the list of values: its result takes account of its
operands, and the edges it may take are taken or wait in the list of edges. So all instructions are
settled once both lists are empty. Each piece of work costs less than what it frees: values move up
twice at most and an edge is taken once.
-/

namespace MiddleEnd

namespace Propagation

/-- What the evaluation of calls promises: what the instruction may yield if this much is known
about its operands. -/
abbrev CallSpec := InstId → List LatticeValue → LatticeValue → Prop

/-- The functions that propagation gets through. -/
structure Workable (f : Func) (entry : BlockId) : Prop where
  coherent : f.Coherent
  starts : f.entry = .ok entry
  shape : f.WellShaped
  types : ∀ {i inst}, f.flow.inst? i = some inst → Verify.formFits inst = true ∧
    f.Rule f.tyOf (f.yieldTy i) inst
  wide : ∀ i, f.yieldTy i ≠ .int 0
  phis : ∀ {b xs i}, Connects f.Leads entry b → f.insts b = .ok xs → i ∈ xs →
    f.flow.isPhi i = true →
    ∃ r, f.flow.result? i = some r

def Answers (f : Func) (call : CallRule) (spec : CallSpec) : Prop :=
  ∀ {facts i inst r}, Facts.Typed facts f → f.flow.inst? i = some inst → inst.op = .call →
    f.flow.result? i = some r →
    (call facts i inst).Yields fun x => spec i (inst.args.map (facts.known f)) x ∧
    ∀ w, x = .const w → f.tyOf r = w.ty

def Wants (f : Func) (spec : CallSpec) (facts : Facts) (b : BlockId) (i : InstId) (inst : Inst)
    (x : LatticeValue) :
    Prop :=
  match inst.op with
  | .phi => ∀ {v p}, (v, p) ∈ inst.edges → facts.taken p b = true → (facts.known f v).Le x
  | .call => spec i (inst.args.map (facts.known f)) x
  | op => if op.isPure then evalPure f facts i inst = .ok x else x = .varying

/-- The blocks that an instruction may lead to, for all that is known about its condition. -/
inductive Heads (f : Func) (facts : Facts) : Inst → BlockId → Prop where
  | jump {op : Opcode} {t : BlockId} : Heads f facts (.jump op t) t
  | const {op : Opcode} {c : ValueId} {w : Word} {t e : BlockId} : facts.known f c = .const w →
      Heads f facts (.branch op c t e) (if w.isZero then e else t)
  | onTrue {op : Opcode} {c : ValueId} {t e : BlockId} :
      facts.known f c = .varying → Heads f facts (.branch op c t e) t
  | onFalse {op : Opcode} {c : ValueId} {t e : BlockId} :
      facts.known f c = .varying → Heads f facts (.branch op c t e) e

/-- The facts take account of an instruction of block `b`. -/
structure Settled (f : Func) (spec : CallSpec) (facts : Facts)
    (marked : BlockId → BlockId → Prop) (b : BlockId) (i : InstId) (inst : Inst) : Prop where
  value : inst.op.isTerminator = false → ∀ r, f.flow.result? i = some r →
    ∃ x, Wants f spec facts b i inst x ∧ x.Le (facts.known f r)
  goes : ∀ {t}, Heads f facts inst t → marked b t
  returns : ∀ {x}, inst = .unary .retValue x → (facts.known f x).Le facts.returns

section Settled

variable {f : Func} {spec : CallSpec} {facts facts' : Facts} {b : BlockId}
  {i : InstId} {inst : Inst}

theorem Wants.congr {x : LatticeValue} (h : Wants f spec facts b i inst x)
    (ho : ∀ v ∈ inst.args, ∃ o, f.flow.origin? v = some o)
    (hk : ∀ v ∈ inst.args, facts'.known f v = facts.known f v)
    (ht : inst.op = .phi → ∀ p, facts'.taken p b = true → facts.taken p b = true) :
    Wants f spec facts' b i inst x := by
  unfold Wants at h ⊢
  split at h
  · rename_i hop
    intro v p he hp
    rw [hk v (Inst.arg_of_edge he)]
    exact h he (ht hop p hp)
  · rw [List.map_congr_left hk]
    exact h
  · split at h
    · rename_i hpure
      rw [if_pos hpure, evalPure_congr ho hk]
      exact h
    · rename_i hpure
      rw [if_neg hpure]
      exact h

theorem Heads.congr {t : BlockId} (h : Heads f facts' inst t)
    (hk : ∀ v ∈ inst.args, facts'.known f v = facts.known f v) :
    Heads f facts inst t := by
  cases h with
  | jump => exact .jump
  | const hc => exact .const ((hk _ (List.mem_singleton.2 rfl)).symm.trans hc)
  | onTrue hc => exact .onTrue ((hk _ (List.mem_singleton.2 rfl)).symm.trans hc)
  | onFalse hc => exact .onFalse ((hk _ (List.mem_singleton.2 rfl)).symm.trans hc)

theorem Settled.mono {marked marked' : BlockId → BlockId → Prop}
    (h : Settled f spec facts marked b i inst)
    (ho : ∀ v ∈ inst.args, ∃ o, f.flow.origin? v = some o)
    (hk : ∀ v ∈ inst.args, facts'.known f v = facts.known f v)
    (hr : ∀ r, (facts.known f r).Le (facts'.known f r))
    (ht : inst.op = .phi → ∀ p, facts'.taken p b = true → facts.taken p b = true)
    (hret : facts.returns.Le facts'.returns) (hm : ∀ {t}, marked b t → marked' b t) :
    Settled f spec facts' marked' b i inst where
  value hterm r hres := by
    obtain ⟨x, hx, hle⟩ := h.value hterm r hres
    exact ⟨x, hx.congr ho hk ht, hle.trans (hr r)⟩
  goes hg := hm (h.goes (hg.congr hk))
  returns {x} he := by
    subst he
    rw [hk x (by simp [Inst.args])]
    exact (h.returns rfl).trans hret

end Settled

def total (weight : ValueId → Nat) : Nat → Nat
  | 0 => 0
  | n + 1 => total weight n + weight ⟨n⟩

theorem total_le {weight weight' : ValueId → Nat} (h : ∀ v, weight' v ≤ weight v) (n : Nat) :
    total weight' n ≤ total weight n := by
  induction n with
  | zero => exact Nat.le_refl _
  | succ n ih => exact Nat.add_le_add ih (h ⟨n⟩)

theorem total_lt {weight weight' : ValueId → Nat} (h : ∀ v, weight' v ≤ weight v) {v : ValueId}
    (hv : weight' v < weight v) {n : Nat} (hn : v.index < n) :
    total weight' n < total weight n := by
  induction n with
  | zero => omega
  | succ n ih =>
    by_cases he : v.index = n
    · have hv' : weight' ⟨n⟩ < weight ⟨n⟩ := by
        subst he
        exact hv
      exact Nat.add_lt_add_of_le_of_lt (total_le h n) hv'
    · exact Nat.add_lt_add_of_lt_of_le (ih (by omega)) (h ⟨n⟩)

theorem total_le_mul {weight : ValueId → Nat} {c : Nat} (h : ∀ v, weight v ≤ c) (n : Nat) :
    total weight n ≤ c * n := by
  induction n with
  | zero => exact Nat.le_refl _
  | succ n ih =>
    have := h ⟨n⟩
    rw [total, Nat.mul_succ]
    omega

def visitCost (f : Func) : Nat := 2 * f.flow.insts.bound + 1

def edgeCost (f : Func) : List (Option BlockId × BlockId) → Nat
  | [] => 0
  | (none, _) :: rest => visitCost f + edgeCost f rest
  | (some _, _) :: rest => 1 + edgeCost f rest

/-- The references to blocks in a function. -/
def refs (f : Func) : Nat := (sizes f.flow).2.2

/-- The rounds of visits that are still to come: one for each value in the list, for each move up
that is left and for each edge that is not taken. -/
def reserve (f : Func) (s : State) : Nat :=
  s.valueWork.length + total (fun v => (s.facts.known f v).slack) f.flow.values.bound +
    (refs f - s.facts.edges.length)

def cost (f : Func) (s : State) : Nat := edgeCost f s.edgeWork + visitCost f * reserve f s

section Cost

variable {f : Func} {facts : Facts} {edges : List (Option BlockId × BlockId)}
  {values : List ValueId}

theorem cost_first (b : BlockId) :
    cost f ⟨facts, (none, b) :: edges, values⟩ = cost f ⟨facts, edges, values⟩ + visitCost f := by
  show visitCost f + edgeCost f edges + _ = _
  rw [Nat.add_comm (visitCost f), Nat.add_right_comm]
  rfl

theorem cost_drop (a b : BlockId) :
    cost f ⟨facts, (some a, b) :: edges, values⟩ = cost f ⟨facts, edges, values⟩ + 1 := by
  show 1 + edgeCost f edges + _ = _
  rw [Nat.add_comm 1, Nat.add_right_comm]
  rfl

theorem cost_take {e : BlockId × BlockId} (h : (e :: facts.edges).length ≤ refs f) :
    cost f ⟨facts, edges, values⟩ =
      cost f ⟨{ facts with edges := e :: facts.edges }, edges, values⟩ + visitCost f := by
  have hres : reserve f ⟨facts, edges, values⟩ =
      reserve f ⟨{ facts with edges := e :: facts.edges }, edges, values⟩ + 1 := by
    rw [List.length_cons] at h
    show _ + total _ _ + (refs f - facts.edges.length) = _ + total _ _ +
      (refs f - (facts.edges.length + 1)) + 1
    have htotal : total (fun v => (facts.known f v).slack) f.flow.values.bound =
        total (fun v => (Facts.known { facts with edges := e :: facts.edges } f v).slack)
          f.flow.values.bound := rfl
    simp only [htotal]
    omega
  unfold cost
  rw [hres, Nat.mul_succ, Nat.add_assoc]

theorem cost_users (v : ValueId) :
    cost f ⟨facts, edges, v :: values⟩ = cost f ⟨facts, edges, values⟩ + visitCost f := by
  have hres : reserve f ⟨facts, edges, v :: values⟩ = reserve f ⟨facts, edges, values⟩ + 1 := by
    simp only [reserve, List.length_cons]
    omega
  unfold cost
  rw [hres, Nat.mul_succ, Nat.add_assoc]

end Cost

def State.Marks (s : State) (a b : BlockId) : Prop :=
  s.facts.taken a b = true ∨ (some a, b) ∈ s.edgeWork

/-- What `n` visits of instructions can do. -/
structure Moved (f : Func) (n : Nat) (s s' : State) : Prop where
  blocks : s'.facts.blocks = s.facts.blocks
  edges : s'.facts.edges = s.facts.edges
  known : ∀ v, (s.facts.known f v).Le (s'.facts.known f v)
  changed : ∀ {v}, s'.facts.known f v ≠ s.facts.known f v → v ∈ s'.valueWork
  returns : s.facts.returns.Le s'.facts.returns
  edgeWork : ∀ {e}, e ∈ s.edgeWork → e ∈ s'.edgeWork
  valueWork : ∀ {v}, v ∈ s.valueWork → v ∈ s'.valueWork
  cost : cost f s' ≤ cost f s + 2 * n

/-- The state makes sense: facts are typed, blocks that run can be reached, and edges are edges of
the function. -/
structure Sane (f : Func) (entry : BlockId) (s : State) : Prop where
  typed : s.facts.Typed f
  returns : ∀ w, s.facts.returns = .const w → f.sig.returns = w.ty
  reach : ∀ {b}, s.facts.runs b = true → Connects f.Leads entry b
  waiting : ∀ {a b}, (some a, b) ∈ s.edgeWork → s.facts.runs a = true ∧ f.Leads a b
  first : ∀ {b}, (none, b) ∈ s.edgeWork → b = entry
  nodup : s.facts.edges.Nodup
  leads : ∀ {a b}, s.facts.taken a b = true → f.Leads a b
  stale : ∀ {v}, v ∈ s.valueWork → ∃ o, f.flow.origin? v = some o

section Moved

variable {f : Func} {s s' s'' : State} {m n : Nat}

theorem Moved.refl (f : Func) (s : State) : Moved f 0 s s where
  blocks := rfl
  edges := rfl
  known _ := LatticeValue.Le.refl _
  changed h := absurd rfl h
  returns := LatticeValue.Le.refl _
  edgeWork h := h
  valueWork h := h
  cost := Nat.le_refl _

theorem Moved.trans (h : Moved f m s s') (h' : Moved f n s' s'') : Moved f (m + n) s s'' where
  blocks := h'.blocks.trans h.blocks
  edges := h'.edges.trans h.edges
  known v := (h.known v).trans (h'.known v)
  changed {v} hv := by
    by_cases hc : s''.facts.known f v = s'.facts.known f v
    · exact h'.valueWork (h.changed (hc ▸ hv))
    · exact h'.changed hc
  returns := h.returns.trans h'.returns
  edgeWork he := h'.edgeWork (h.edgeWork he)
  valueWork hv := h'.valueWork (h.valueWork hv)
  cost := by
    have := h.cost
    have := h'.cost
    omega

theorem Moved.mono (h : Moved f m s s') (hmn : m ≤ n) : Moved f n s s' :=
  { h with cost := Nat.le_trans h.cost (by omega) }

theorem Moved.taken (h : Moved f n s s') (a b : BlockId) :
    s'.facts.taken a b = s.facts.taken a b := by
  unfold Facts.taken
  rw [h.edges]

theorem Moved.runs (h : Moved f n s s') (b : BlockId) : s'.facts.runs b = s.facts.runs b := by
  unfold Facts.runs
  rw [h.blocks]

theorem Moved.marks (h : Moved f n s s') {a b : BlockId} (hm : s.Marks a b) : s'.Marks a b :=
  hm.imp (fun ht => (h.taken a b).trans ht) h.edgeWork

end Moved

/-- Some operand of the instruction moved up and its users were not looked at since. -/
def Pending (s : State) (inst : Inst) : Prop := ∃ v ∈ inst.args, v ∈ s.valueWork

/-- All instructions of blocks that run are settled, but for those that wait and those that `exempt`
names. -/
structure Kept (f : Func) (entry : BlockId) (spec : CallSpec) (exempt : InstId → Prop) (s : State) :
    Prop extends Sane f entry s where
  settled : ∀ {b xs i inst}, s.facts.runs b = true → f.insts b = .ok xs → i ∈ xs →
    f.flow.inst? i = some inst →
    exempt i ∨ Pending s inst ∨ Settled f spec s.facts s.Marks b i inst

section Visit

variable {f : Func} {entry : BlockId} {call : CallRule} {spec : CallSpec} {s s' : State}

theorem Kept.moved {exempt : InstId → Prop} {n : Nat} (hf : Workable f entry)
    (h : Kept f entry spec exempt s) (hs : Sane f entry s') (hm : Moved f n s s') :
    Kept f entry spec exempt s' where
  toSane := hs
  settled {b xs i inst} hb hxs hi hinst := by
    rw [hm.runs] at hb
    refine (h.settled hb hxs hi hinst).imp id fun h => ?_
    by_cases hp : Pending s' inst
    · exact .inl hp
    · refine .inr ?_
      rcases h with ⟨v, hv, hw⟩ | hset
      · exact absurd ⟨v, hv, hm.valueWork hw⟩ hp
      · refine hset.mono (fun v hv => hf.coherent.flow.operand hinst hv) (fun v hv => ?_) hm.known
          (fun _ p hp => (hm.taken p b).symm.trans hp) hm.returns hm.marks
        exact Classical.byContradiction fun hne => hp ⟨v, hv, hm.changed hne⟩

theorem known_insert (facts : Facts) {v : ValueId} {ty : Ty} {i : InstId} (x : LatticeValue)
    (hv : f.flow.origin? v = some (.result ty i)) (w : ValueId) :
    Facts.known { facts with values := facts.values.insert v x } f w = if w =
      v then x else facts.known f w := by
  by_cases hw : w = v
  · subst hw
    rw [if_pos rfl, Facts.known_result hv]
    simp
  · have hne : ¬ v = w := fun h => hw h.symm
    unfold Facts.known
    simp [hne, hw]

theorem cost_up {r : ValueId} (hr : r.index < f.flow.values.bound) (he : s'.edgeWork = s.edgeWork)
    (hd : s'.facts.edges = s.facts.edges) (hw : s'.valueWork = r :: s.valueWork)
    (hle : ∀ v, (s'.facts.known f v).slack ≤ (s.facts.known f v).slack)
    (hlt : (s'.facts.known f r).slack < (s.facts.known f r).slack) : cost f s' ≤ cost f s := by
  have htotal := total_lt (n := f.flow.values.bound) hle hlt hr
  have hres : reserve f s' ≤ reserve f s := by
    unfold reserve
    rw [hw, hd, List.length_cons]
    omega
  unfold cost
  rw [he]
  exact Nat.add_le_add_left (Nat.mul_le_mul_left _ hres) _

def State.raise (s : State) (v : ValueId) (x : LatticeValue) : State :=
  { s with
    facts := { s.facts with values := s.facts.values.insert v x }
    valueWork := v :: s.valueWork }

theorem State.update_eq {v : ValueId} {o : ValueDef} (hv : f.flow.origin? v = some o) (s : State)
    (x : LatticeValue) :
    s.update f v x = if (s.facts.known f v).meet x = s.facts.known f v then pure s else do
      Run.trace fun _ => .ok (f.valueText v ++ " is " ++ ((s.facts.known f v).meet x).text)
      return s.raise v ((s.facts.known f v).meet x) := by
  unfold State.update State.value
  rw [Facts.value_ok hv]
  rfl

theorem raise_moved {r : ValueId} {ty : Ty} {i : InstId} {x : LatticeValue}
    (ho : f.flow.origin? r = some (.result ty i))
    (hnew : (s.facts.known f r).meet x ≠ s.facts.known f r) :
    Moved f 1 s (s.raise r ((s.facts.known f r).meet x)) := by
  have hknown := known_insert (f := f) s.facts ((s.facts.known f r).meet x) ho
  refine ⟨rfl, rfl, fun v => ?_, fun {v} hv => ?_, LatticeValue.Le.refl _, id,
    fun hv => List.mem_cons_of_mem _ hv, ?_⟩
  · show (s.facts.known f v).Le (Facts.known { s.facts with values := _ } f v)
    rw [hknown]
    split
    · rename_i hv
      rw [hv]
      exact LatticeValue.le_meet_left _ _
    · exact LatticeValue.Le.refl _
  · change Facts.known { s.facts with values := _ } f v ≠ _ at hv
    rw [hknown] at hv
    split at hv
    · rename_i hvr
      rw [hvr]
      exact List.mem_cons_self
    · exact absurd rfl hv
  · refine Nat.le_add_right_of_le (cost_up (DataFlow.origin?_lt_bound ho) rfl rfl rfl
      (fun v => ?_) ?_)
    · show (Facts.known { s.facts with values := _ } f v).slack ≤ _
      rw [hknown]
      split
      · rename_i hv
        rw [hv]
        exact Nat.le_of_lt (LatticeValue.slack_meet_lt hnew)
      · exact Nat.le_refl _
    · show (Facts.known { s.facts with values := _ } f r).slack < _
      rw [hknown, if_pos rfl]
      exact LatticeValue.slack_meet_lt hnew

theorem update_spec (hc : f.Coherent) (hs : Sane f entry s) {i : InstId} {r : ValueId}
    {x : LatticeValue} (hr : f.flow.result? i = some r) (hx : ∀ w, x = .const w → f.tyOf r = w.ty) :
    (s.update f r x).Yields fun s' => Sane f entry s' ∧ Moved f 1 s s' ∧ x.Le (s'.facts.known f r) ∧
      ∀ v, v ≠ r → s'.facts.known f v = s.facts.known f v := by
  obtain ⟨ty, ho, -⟩ := hc.flow.result_origin hr
  rw [State.update_eq ho]
  split
  · rename_i hsame
    exact Run.yields_pure ⟨hs, (Moved.refl f s).mono (Nat.zero_le 1), hsame, fun v _ => rfl⟩
  · rename_i hnew
    refine Run.Yields.bind (Run.yields_log (P := fun _ => True) trivial) fun _ _ =>
      Run.yields_pure ?_
    have hknown := known_insert (f := f) s.facts ((s.facts.known f r).meet x) ho
    refine ⟨{ hs with typed := ?_, stale := ?_ }, raise_moved ho hnew, ?_,
      fun v hv => (hknown v).trans (if_neg hv)⟩
    · intro v w hv
      change Facts.known { s.facts with values := _ } f v = _ at hv
      rw [hknown] at hv
      split at hv
      · rename_i hvr
        rw [hvr]
        rcases LatticeValue.const_of_meet hv with h | h
        · exact hs.typed h
        · exact hx w h
      · exact hs.typed hv
    · intro v hv
      rcases List.mem_cons.1 hv with rfl | hv
      · exact ⟨_, ho⟩
      · exact hs.stale hv
    · show x.Le (Facts.known { s.facts with values := _ } f r)
      rw [hknown, if_pos rfl]
      exact LatticeValue.le_meet_right _ _

@[simp]
theorem mark_facts (s : State) (a b : BlockId) : (s.mark a b).facts = s.facts := by
  unfold State.mark
  split <;> rfl

@[simp]
theorem mark_valueWork (s : State) (a b : BlockId) : (s.mark a b).valueWork = s.valueWork := by
  unfold State.mark
  split <;> rfl

theorem mem_mark {e : Option BlockId × BlockId} {a b : BlockId} (h : e ∈ s.edgeWork) :
    e ∈ (s.mark a b).edgeWork := by
  unfold State.mark
  split
  · exact h
  · exact List.mem_cons_of_mem _ h

theorem mem_of_mark {e : Option BlockId × BlockId} {a b : BlockId} (h : e ∈ (s.mark a b).edgeWork) :
    e ∈ s.edgeWork ∨ e = (some a, b) ∧ s.facts.taken a b = false := by
  unfold State.mark at h
  split at h
  · exact .inl h
  · rename_i hnew
    refine (List.mem_cons.1 h).symm.imp id fun he => ⟨he, Bool.eq_false_iff.2 hnew⟩

theorem marks_mark {a b p c : BlockId} : (s.mark a b).Marks p c ↔ s.Marks p c ∨ p = a ∧ c = b := by
  unfold State.mark
  split
  · rename_i ht
    refine ⟨.inl, ?_⟩
    rintro (h | ⟨rfl, rfl⟩)
    · exact h
    · exact .inl ht
  · simp only [State.Marks, List.mem_cons, Prod.mk.injEq, Option.some.injEq]
    exact or_assoc.symm.trans or_right_comm

theorem mark_cost (s : State) (a b : BlockId) : cost f (s.mark a b) ≤ cost f s + 1 := by
  unfold State.mark
  split
  · exact Nat.le_succ _
  · show 1 + edgeCost f s.edgeWork + visitCost f * reserve f s ≤ _
    unfold cost
    omega

theorem mark_spec (hs : Sane f entry s) {a b : BlockId} (ha : s.facts.runs a = true)
    (hl : f.Leads a b) :
    Sane f entry (s.mark a b) ∧ (s.mark a b).facts = s.facts ∧
    (s.mark a b).valueWork = s.valueWork ∧
      (∀ {e}, e ∈ s.edgeWork → e ∈ (s.mark a b).edgeWork) ∧ (s.mark a b).Marks a b ∧
      cost f (s.mark a b) ≤ cost f s + 1 := by
  have hfacts := mark_facts s a b
  refine ⟨?_, hfacts, mark_valueWork s a b, mem_mark, marks_mark.2 (.inr ⟨rfl, rfl⟩),
    mark_cost s a b⟩
  refine ⟨hfacts ▸ hs.typed, hfacts ▸ hs.returns, hfacts ▸ hs.reach, fun {p q} hw => ?_,
    fun {q} hw => ?_, hfacts ▸ hs.nodup, hfacts ▸ hs.leads, mark_valueWork s a b ▸ hs.stale⟩
  · rw [hfacts]
    rcases mem_of_mark hw with hw | ⟨he, -⟩
    · exact hs.waiting hw
    · cases he
      exact ⟨ha, hl⟩
  · rcases mem_of_mark hw with hw | ⟨he, -⟩
    · exact hs.first hw
    · cases he

theorem op_of_heads {facts : Facts} {inst : Inst} {t : BlockId}
    (hform : Verify.formFits inst = true) (h : Heads f facts inst t) :
    inst.op.isTerminator = true := by
  cases h <;> simp only [Verify.formFits, decide_eq_true_eq] at hform <;> subst hform <;> rfl

def Visited (f : Func) (entry : BlockId) (spec : CallSpec) (b : BlockId) (i : InstId) (inst : Inst)
    (s s' : State) :
    Prop :=
  Sane f entry s' ∧ Moved f 1 s s' ∧ (Pending s' inst ∨ Settled f spec s'.facts s'.Marks b i inst)

theorem visit_value (hf : Workable f entry) (hs : Sane f entry s) {b : BlockId} {i : InstId}
    {inst : Inst} {r : ValueId} {x : LatticeValue} (hinst : f.flow.inst? i = some inst)
    (hterm : inst.op.isTerminator = false) (hr : f.flow.result? i = some r)
    (hw : Wants f spec s.facts b i inst x) (hx : ∀ w, x = .const w → f.yieldTy i = w.ty) :
    (s.update f r x).Yields (Visited f entry spec b i inst s) := by
  have hyield : f.yieldTy i = f.tyOf r := by
    unfold Func.yieldTy
    rw [hr]
    rfl
  refine (update_spec hf.coherent hs hr fun w h => hyield.symm.trans (hx w h)).mono ?_
  rintro s' ⟨hs', hm, hle, -⟩
  refine ⟨hs', hm, ?_⟩
  by_cases hp : Pending s' inst
  · exact .inl hp
  have hk : ∀ v ∈ inst.args, s'.facts.known f v = s.facts.known f v := fun v hv =>
    Classical.byContradiction fun hne => hp ⟨v, hv, hm.changed hne⟩
  refine .inr ⟨fun _ r' hr' => ?_, fun hg => ?_, fun he => ?_⟩
  · obtain rfl : r = r' := Option.some.inj (hr.symm.trans hr')
    exact ⟨x, hw.congr (fun v hv => hf.coherent.flow.operand hinst hv) hk fun _ p hp =>
      (hm.taken p b).symm.trans hp, hle⟩
  · rw [op_of_heads (hf.types hinst).1 hg] at hterm
    cases hterm
  · subst he
    cases hterm

theorem visited_of_none (hf : Workable f entry) (hs : Sane f entry s) {b : BlockId}
    {i : InstId} {inst : Inst} (hinst : f.flow.inst? i = some inst)
    (hterm : inst.op.isTerminator = false) (hr : f.flow.result? i = none) :
    Visited f entry spec b i inst s s := by
  refine ⟨hs, (Moved.refl f s).mono (Nat.zero_le 1),
    .inr ⟨fun _ r hr' => ?_, fun hg => ?_, fun he => ?_⟩⟩
  · rw [hr] at hr'
    cases hr'
  · rw [op_of_heads (hf.types hinst).1 hg] at hterm
    cases hterm
  · subst he
    cases hterm

theorem moved_of_edges (hfacts : s'.facts = s.facts) (hv : s'.valueWork = s.valueWork)
    (he : ∀ {e}, e ∈ s.edgeWork → e ∈ s'.edgeWork) (hc : cost f s' ≤ cost f s + 2) :
    Moved f 1 s s' where
  blocks := by rw [hfacts]
  edges := by rw [hfacts]
  known v := by
    rw [hfacts]
    exact LatticeValue.Le.refl _
  changed h := absurd (by rw [hfacts]) h
  returns := by
    rw [hfacts]
    exact LatticeValue.Le.refl _
  edgeWork := he
  valueWork h := hv ▸ h
  cost := hc

/-- A branch is settled by marking the edges that it may take. -/
theorem visitBranch_spec (hf : Workable f entry) (hs : Sane f entry s) {b : BlockId}
    {xs : List InstId} {i : InstId} {inst : Inst} (hb : s.facts.runs b = true)
    (hxs : f.insts b = .ok xs) (hi : i ∈ xs) (hinst : f.flow.inst? i = some inst)
    (hop : inst.op = .br ∨ inst.op = .brCond) :
    ∃ s', visitBranch f s b inst = .ok s' ∧ Visited f entry spec b i inst s s' := by
  obtain ⟨hform, -⟩ := hf.types hinst
  have hterm : inst.op.isTerminator = true := by
    rcases hop with h | h <;> rw [h] <;> rfl
  have hsettled : ∀ {s' : State}, s'.facts = s.facts →
      (∀ {t}, Heads f s.facts inst t → s'.Marks b t) →
      Settled f spec s'.facts s'.Marks b i inst := by
    intro s' hfacts hmarks
    refine ⟨fun h => ?_, fun hg => hmarks (hfacts ▸ hg), fun he => ?_⟩
    · rw [hterm] at h
      cases h
    · subst he
      rcases hop with h | h <;> cases h
  have hlead : ∀ {t}, t ∈ inst.blocks → f.Leads b t :=
    fun ht => hf.shape.leads hxs hi hinst hterm ht
  rcases hop with hop | hop
  · obtain ⟨t, rfl⟩ := Verify.jump_of_form hform hop
    obtain ⟨hs', hfacts, hv, he, hm, hc⟩ := mark_spec hs hb (hlead (List.mem_singleton.2 rfl))
    refine ⟨s.mark b t, rfl, hs', moved_of_edges hfacts hv he (Nat.le_succ_of_le hc),
      .inr (hsettled hfacts fun hg => ?_)⟩
    cases hg
    exact hm
  · obtain ⟨c, t, e, rfl⟩ := Verify.branch_of_form hform hop
    obtain ⟨o, ho⟩ := hf.coherent.flow.operand hinst (List.mem_singleton.2 rfl)
    have ht := hlead (t := t) (by simp [Inst.blocks])
    have he := hlead (t := e) (by simp [Inst.blocks])
    unfold visitBranch State.value
    simp only [Inst.op, reduceCtorEq, if_false, Inst.args, Inst.blocks, Checked.nth]
    rw [show (Checked.ofOption Fault.outOfBounds [c][0]? : Checked ValueId) =
      .ok c from rfl, ok_bind, Facts.value_ok ho, ok_bind]
    cases hk : s.facts.known f c with
    | unknown =>
      refine ⟨s, rfl, hs, (Moved.refl f s).mono (Nat.zero_le 1), .inr (hsettled rfl fun hg => ?_)⟩
      cases hg with
      | const h => rw [hk] at h; cases h
      | onTrue h => rw [hk] at h; cases h
      | onFalse h => rw [hk] at h; cases h
    | const w =>
      have hto : f.Leads b (if w.isZero then e else t) := by
        split
        · exact he
        · exact ht
      obtain ⟨hs', hfacts, hv, he, hm, hc⟩ := mark_spec hs hb hto
      have hmark : (do return s.mark b (← Checked.ofOption Fault.outOfBounds [t,
          e][if w.isZero then 1 else 0]?)) =
          (.ok (s.mark b (if w.isZero then e else t)) : Checked State) := by
        by_cases hz : w.isZero = true <;> simp only [hz] <;> rfl
      refine ⟨_, hmark, hs', moved_of_edges hfacts hv he (Nat.le_succ_of_le hc),
        .inr (hsettled hfacts fun hg => ?_)⟩
      cases hg with
      | const h =>
        rw [hk] at h
        cases h
        exact hm
      | onTrue h => rw [hk] at h; cases h
      | onFalse h => rw [hk] at h; cases h
    | varying =>
      obtain ⟨hs₁, hfacts₁, hv₁, he₁, hm₁, hc₁⟩ := mark_spec hs hb ht
      obtain ⟨hs₂, hfacts₂, hv₂, he₂, hm₂, hc₂⟩ := mark_spec hs₁ (hfacts₁ ▸ hb) he
      refine ⟨_, rfl, hs₂, moved_of_edges (hfacts₂.trans hfacts₁) (hv₂.trans hv₁) (fun h =>
        he₂ (he₁ h)) (by omega), .inr (hsettled (hfacts₂.trans hfacts₁) fun hg => ?_)⟩
      cases hg with
      | const h => rw [hk] at h; cases h
      | onTrue h => exact hm₁.imp (fun h => hfacts₂ ▸ h) he₂
      | onFalse h => exact hm₂

theorem visit_spec (hf : Workable f entry) (hcall : Answers f call spec)
    (hs : Sane f entry s) {b : BlockId} {xs : List InstId} {i : InstId} {inst : Inst}
    (hb : s.facts.runs b = true) (hxs : f.insts b = .ok xs) (hi : i ∈ xs)
    (hinst : f.flow.inst? i = some inst) :
    (visit f call s i).Yields (Visited f entry spec b i inst s) := by
  have hblock : f.layout.blockOf? i = some b := hf.coherent.blockOf?_eq_some.2 ⟨xs, hxs, hi⟩
  obtain ⟨hform, hrule⟩ := hf.types hinst
  unfold visit
  refine Run.Yields.bind (Run.yields_lift ⟨inst, DataFlow.inst_eq_ok.2 hinst, rfl⟩) ?_
  rintro _ rfl
  split
  · rename_i hop
    rw [hblock]
    obtain ⟨r, hr⟩ := hf.phis (hs.reach hb) hxs hi (by rw [DataFlow.isPhi_of_inst hinst, hop]; rfl)
    obtain ⟨x, hx, hle, hconst⟩ := evalPhi_spec (f := f) s.facts b inst fun he =>
      hf.coherent.flow.operand hinst (Inst.arg_of_edge he)
    have htyped : ∀ w, x = .const w → f.yieldTy i = w.ty := by
      intro w hw
      obtain ⟨v, p, he, hv⟩ := hconst w hw
      obtain ⟨args, preds, rfl⟩ := Verify.phi_of_form hform (by rw [hop]; rfl)
      rw [← hs.typed hv, hrule v (Inst.arg_of_edge he)]
    refine Run.Yields.bind (Run.yields_lift ⟨x, hx, rfl⟩) ?_
    rintro _ rfl
    refine Run.Yields.bind (Run.yields_lift ⟨r, DataFlow.result_eq_ok.2 hr, rfl⟩) ?_
    rintro _ rfl
    refine visit_value hf hs hinst (by rw [hop]; rfl) hr ?_ htyped
    unfold Wants
    rw [hop]
    exact hle
  · rename_i hop
    rw [hblock]
    exact Run.yields_lift (visitBranch_spec hf hs hb hxs hi hinst (.inl hop))
  · rename_i hop
    rw [hblock]
    exact Run.yields_lift (visitBranch_spec hf hs hb hxs hi hinst (.inr hop))
  · rename_i hop
    refine Run.yields_pure ⟨hs, (Moved.refl f s).mono (Nat.zero_le 1),
      .inr ⟨fun h => ?_, fun hg => ?_, fun he => ?_⟩⟩
    · rw [hop] at h
      cases h
    · cases hg <;> simp only [Inst.op] at hop <;> subst hop <;> simp [Verify.formFits] at hform
    · subst he
      cases hop
  · rename_i hop
    obtain ⟨x, rfl⟩ := Verify.return_of_form hform hop
    obtain ⟨o, ho⟩ := hf.coherent.flow.operand hinst (List.mem_singleton.2 rfl)
    refine Run.Yields.bind (Run.yields_lift ⟨x, rfl, rfl⟩) ?_
    rintro _ rfl
    refine Run.Yields.bind (Run.yields_lift ⟨_, Facts.value_ok ho, rfl⟩) ?_
    rintro _ rfl
    refine Run.yields_pure ⟨{ hs with returns := fun w hw => ?_ }, ?_,
      .inr ⟨fun h => ?_, fun hg => ?_, fun he => ?_⟩⟩
    · rcases LatticeValue.const_of_meet hw with h | h
      · exact hs.returns w h
      · rw [← hs.typed h]
        exact hrule
    · exact ⟨rfl, rfl, fun v => LatticeValue.Le.refl _, fun h => absurd rfl h,
        LatticeValue.le_meet_left _ _, id, id, Nat.le_add_right _ _⟩
    · cases h
    · cases hg
    · cases he
      exact LatticeValue.le_meet_right _ _
  · rename_i hop
    split
    · rename_i r hr
      refine Run.Yields.bind (hcall hs.typed hinst hop hr) fun x hx => ?_
      refine visit_value hf hs hinst (by rw [hop]; rfl) hr ?_ fun w hw => ?_
      · unfold Wants
        rw [hop]
        exact hx.1
      · unfold Func.yieldTy
        rw [hr]
        exact hx.2 w hw
    · rename_i hr
      have hr : f.flow.result? i = none := by
        cases h : f.flow.result? i with
        | none => rfl
        | some r => exact absurd h (hr r)
      exact Run.yields_pure (visited_of_none hf hs hinst (by rw [hop]; rfl) hr)
  · rename_i op hphi hbr hbrCond hret hretValue hcallop
    have hterm : inst.op.isTerminator = false := by
      revert hbr hbrCond hret hretValue
      cases inst.op <;> simp <;> rfl
    have hwants : ∀ {x}, (if inst.op.isPure then evalPure f s.facts i inst =
        .ok x else x = .varying) →
        Wants f spec s.facts b i inst x := by
      intro x hx
      unfold Wants
      split
      · exact absurd ‹_› hphi
      · exact absurd ‹_› hcallop
      · exact hx
    split
    · rename_i hpure
      obtain ⟨r, n, hr, -, -⟩ := Func.Rule.yields hform hrule hpure
      obtain ⟨x, hx, heval⟩ :=
        evalPure_spec hf.coherent.flow hinst hform hrule hpure (hf.wide i) hs.typed
      refine Run.Yields.bind (Run.yields_lift ⟨x, hx, rfl⟩) ?_
      rintro _ rfl
      refine Run.Yields.bind (Run.yields_lift ⟨r, DataFlow.result_eq_ok.2 hr, rfl⟩) ?_
      rintro _ rfl
      exact visit_value hf hs hinst hterm hr (hwants (by rw [if_pos hpure]; exact hx)) heval.typed
    · rename_i hpure
      split
      · rename_i r hr
        exact visit_value hf hs hinst hterm hr (hwants (by rw [if_neg hpure]))
          fun w hw => by cases hw
      · rename_i hr
        exact Run.yields_pure (visited_of_none hf hs hinst hterm hr)

theorem Kept.mono {exempt exempt' : InstId → Prop} (h : Kept f entry spec exempt s)
    (imp : ∀ i, exempt i → exempt' i) : Kept f entry spec exempt' s :=
  { h with settled := fun hb hxs hi hinst => (h.settled hb hxs hi hinst).imp (imp _) id }

theorem Kept.drop {exempt : InstId → Prop} (h : Kept f entry spec exempt s) {i : InstId}
    (hset : ∀ {b xs inst}, s.facts.runs b = true → f.insts b = .ok xs → i ∈ xs →
      f.flow.inst? i = some inst →
      Pending s inst ∨ Settled f spec s.facts s.Marks b i inst) :
    Kept f entry spec (fun j => exempt j ∧ j ≠ i) s where
  toSane := h.toSane
  settled {b xs j inst} hb hxs hj hinst := by
    by_cases hji : j = i
    · subst hji
      exact .inr (hset hb hxs hj hinst)
    · exact (h.settled hb hxs hj hinst).imp (fun he => ⟨he, hji⟩) id

theorem visit_kept (hf : Workable f entry) (hcall : Answers f call spec) {exempt : InstId → Prop}
    (h : Kept f entry spec exempt s) {b : BlockId} {xs : List InstId} {i : InstId}
    (hb : s.facts.runs b = true) (hxs : f.insts b = .ok xs) (hi : i ∈ xs) :
    (visit f call s i).Yields fun s' => Kept f entry spec (fun j => exempt j ∧ j ≠ i) s' ∧
    Moved f 1 s s' := by
  obtain ⟨inst, hinst⟩ := hf.coherent.inst_of_mem hxs hi
  refine (visit_spec hf hcall h.toSane hb hxs hi hinst).mono ?_
  rintro s' ⟨hs', hm, hset⟩
  refine ⟨(h.moved hf hs' hm).drop ?_, hm⟩
  intro b' xs' inst' _ hxs' hi' hinst'
  obtain rfl := hf.coherent.layout.one_block hxs hxs' hi hi'
  obtain rfl : inst = inst' := Option.some.inj (hinst.symm.trans hinst')
  exact hset

theorem visits_spec {visit : State → InstId → Run State} {exempt : InstId → Prop} {l : List InstId}
    (hvisit : ∀ {exempt n t i}, i ∈ l → Kept f entry spec exempt t → Moved f n s t →
      (visit t i).Yields fun s' =>
      Kept f entry spec (fun j => exempt j ∧ j ≠ i) s' ∧ Moved f 1 t s')
    (h : Kept f entry spec exempt s) :
    (l.foldlM visit s).Yields fun s' => Kept f entry spec (fun j => exempt j ∧ j ∉ l) s' ∧
    Moved f l.length s s' := by
  refine Run.yields_foldlM
    (fun pre t => Kept f entry spec (fun j => exempt j ∧ j ∉ pre) t ∧ Moved f pre.length s t) ?_ ?_
  · exact ⟨h.mono fun i hi => ⟨hi, List.not_mem_nil⟩, Moved.refl f s⟩
  · rintro pre i post t rfl ⟨ht, hm⟩
    refine (hvisit (List.mem_append_right pre List.mem_cons_self) ht hm).mono ?_
    rintro s' ⟨hs', hm'⟩
    refine ⟨hs'.mono ?_, ?_⟩
    · rintro j ⟨⟨hj, hpre⟩, hne⟩
      exact ⟨hj, by simp [hpre, hne]⟩
    · rw [List.length_append]
      exact hm.trans hm'

theorem length_le_bound {l : List InstId} (hn : l.Nodup)
    (h : ∀ i ∈ l, ∃ inst, f.flow.inst? i = some inst) :
    l.length ≤ f.flow.insts.bound := by
  have hsub : ∀ n ∈ l.map InstId.index, n ∈ List.range f.flow.insts.bound := by
    intro n hmem
    obtain ⟨i, hi, rfl⟩ := List.mem_map.1 hmem
    obtain ⟨inst, hinst⟩ := h i hi
    obtain ⟨e, he, -⟩ := DataFlow.inst?_eq_some.1 hinst
    exact List.mem_range.2 (Table.get?_lt_bound he)
  have hmap : (l.map InstId.index).Nodup := by
    refine List.pairwise_map.2 (hn.imp fun hne he => hne ?_)
    exact Key.index_inj he
  have := List.Nodup.length_le_of_subset hmap hsub
  simpa using this

/-- What is known and what may run or be taken only grows. -/
structure Grew (f : Func) (s s' : State) : Prop where
  known : ∀ v, (s.facts.known f v).Le (s'.facts.known f v)
  runs : ∀ {b}, s.facts.runs b = true ∨ (none, b) ∈ s.edgeWork → s'.facts.runs b = true ∨
    (none, b) ∈ s'.edgeWork
  marks : ∀ {a b}, s.Marks a b → s'.Marks a b

theorem Grew.refl (f : Func) (s : State) : Grew f s s := ⟨fun _ => LatticeValue.Le.refl _, id, id⟩

theorem Grew.trans {s'' : State} (h : Grew f s s') (h' : Grew f s' s'') : Grew f s s'' :=
  ⟨fun v => (h.known v).trans (h'.known v), fun hb => h'.runs (h.runs hb),
    fun hm => h'.marks (h.marks hm)⟩

theorem Moved.grew {n : Nat} (h : Moved f n s s') : Grew f s s' where
  known := h.known
  runs hb := hb.imp (fun hr => (h.runs _).trans hr) h.edgeWork
  marks := h.marks

/-- Entering a block whose phis are to be looked at. -/
theorem enter_spec (hf : Workable f entry) (hcall : Answers f call spec) {b : BlockId}
    (hb : Connects f.Leads entry b)
    (h : Kept f entry spec (fun i => f.flow.isPhi i = true ∧ f.layout.blockOf? i = some b) s) :
    (enter f call s b).Yields fun s' => Kept f entry spec (fun _ => False) s' ∧
    s'.facts.edges = s.facts.edges ∧
      (∀ c, s'.facts.runs c = true ↔ s.facts.runs c = true ∨ c = b) ∧ Grew f s s' ∧
      cost f s' ≤ cost f s + 2 * f.flow.insts.bound := by
  obtain ⟨xs, hxs⟩ := Layout.mem_blocks_iff.1 (hf.shape.closed.connects_mem hf.starts hb)
  have hhome : ∀ {i}, f.layout.blockOf? i = some b → i ∈ xs := by
    intro i hi
    obtain ⟨xs', hxs', hi⟩ := hf.coherent.blockOf?_eq_some.1 hi
    obtain rfl : xs = xs' := Except.ok.inj (hxs.symm.trans hxs')
    exact hi
  have hlength : xs.length ≤ f.flow.insts.bound :=
    length_le_bound (hf.coherent.layout.insts_nodup hxs) fun i hi => hf.coherent.inst_of_mem hxs hi
  unfold enter
  refine Run.Yields.bind (Run.yields_log (P := fun _ => True) trivial) fun _ _ => ?_
  refine Run.Yields.bind (Run.yields_lift ⟨xs, hxs, rfl⟩) ?_
  rintro _ rfl
  split
  · rename_i hruns
    refine (visits_spec (s := s) (fun hi ht hm => ?_) h).mono ?_
    · exact visit_kept hf hcall ht ((hm.runs b).trans hruns) hxs (List.mem_filter.1 hi).1
    · rintro s' ⟨hs', hm⟩
      have hle := List.length_filter_le f.flow.isPhi xs
      refine ⟨hs'.mono ?_, hm.edges, fun c => ?_, hm.grew, Nat.le_trans hm.cost (by omega)⟩
      · rintro i ⟨⟨hphi, hi⟩, hnot⟩
        exact hnot (List.mem_filter.2 ⟨hhome hi, hphi⟩)
      · rw [hm.runs]
        refine ⟨.inl, ?_⟩
        rintro (hc | rfl)
        · exact hc
        · exact hruns
  · rename_i hruns
    have hruns' : ∀ c, Facts.runs { s.facts with blocks := b :: s.facts.blocks } c = true ↔
        s.facts.runs c = true ∨ c = b := by
      intro c
      simp [Facts.runs, or_comm]
    have hstart : Kept f entry spec (fun i => i ∈ xs)
        { s with facts := { s.facts with blocks := b :: s.facts.blocks } } := by
      refine { h with reach := ?_, waiting := ?_, settled := ?_ }
      · intro c hc
        rcases (hruns' c).1 hc with hc | rfl
        · exact h.reach hc
        · exact hb
      · intro a c hw
        exact ⟨(hruns' a).2 (.inl (h.waiting hw).1), (h.waiting hw).2⟩
      · intro c ys i inst hc hys hi hinst
        rcases (hruns' c).1 hc with hc | rfl
        · rcases h.settled hc hys hi hinst with he | hset
          · exact .inl (hhome he.2)
          · refine .inr (hset.imp id fun hset => ?_)
            exact hset.mono (fun v hv => hf.coherent.flow.operand hinst hv) (fun _ _ => rfl)
              (fun _ => LatticeValue.Le.refl _) (fun _ _ h => h) (LatticeValue.Le.refl _) id
        · obtain rfl : xs = ys := Except.ok.inj (hxs.symm.trans hys)
          exact .inl hi
    have hgrew : Grew f s { s with facts := { s.facts with blocks := b :: s.facts.blocks } } :=
      ⟨fun _ => LatticeValue.Le.refl _, fun hc => hc.imp (fun hc => (hruns' _).2 (.inl hc)) id, id⟩
    refine (visits_spec (fun hi ht hm => ?_) hstart).mono ?_
    · exact visit_kept hf hcall ht ((hm.runs b).trans ((hruns' b).2 (.inr rfl))) hxs hi
    · rintro s' ⟨hs', hm⟩
      refine ⟨hs'.mono fun i hi => hi.2 hi.1, hm.edges, fun c => ?_, hgrew.trans hm.grew,
        Nat.le_trans hm.cost ?_⟩
      · rw [hm.runs]
        exact hruns' c
      · exact Nat.add_le_add_left (Nat.mul_le_mul_left 2 hlength) _

theorem visitUsers_spec {order : UserOrder} (hf : Workable f entry) (hcall : Answers f call spec)
    {v : ValueId} {o : ValueDef} (hv : f.flow.origin? v = some o)
    (h : Kept f entry spec (fun i => ∃ inst, f.flow.inst? i = some inst ∧ v ∈ inst.args) s) :
    (visitUsers order f call s v).Yields fun s' => Kept f entry spec (fun _ => False) s' ∧
      Moved f f.flow.insts.bound s s' := by
  obtain ⟨us, hus, huses⟩ := hf.coherent.flow.users_ok hv
  have hperm := order.perm f v us
  have hlength : (order.list f v us).length ≤ f.flow.insts.bound := by
    rw [hperm.length_eq]
    exact length_le_bound us.nodup fun i hi => ((huses i).1 hi).imp fun _ h => h.1
  unfold visitUsers
  refine Run.Yields.bind (Run.yields_lift ⟨us, hus, rfl⟩) ?_
  rintro _ rfl
  refine (visits_spec (s := s) (fun {exempt n t i} _ ht hm => ?_) h).mono ?_
  · split
    · rename_i hany
      cases hb : f.layout.blockOf? i with
      | none =>
        rw [hb] at hany
        cases hany
      | some b =>
        rw [hb] at hany
        obtain ⟨xs, hxs, hi⟩ := hf.coherent.blockOf?_eq_some.1 hb
        exact visit_kept hf hcall ht hany hxs hi
    · rename_i hany
      refine Run.yields_pure ⟨ht.drop ?_, (Moved.refl f t).mono (Nat.zero_le 1)⟩
      intro b xs inst hb hxs hi _
      rw [hf.coherent.blockOf?_eq_some.2 ⟨xs, hxs, hi⟩] at hany
      exact absurd hb hany
  · rintro s' ⟨hs', hm⟩
    exact ⟨hs'.mono fun i hi => hi.2 (hperm.mem_iff.2 ((huses i).2 hi.1)), hm.mono hlength⟩

end Visit

end Propagation

end MiddleEnd
