import MiddleEnd.Proofs.Building
import MiddleEnd.Proofs.DeadInstructions

/-!
# Dead code elimination

The stack of instructions to look at is one way to keep the work that is left; any order of work
leads to the same function. A turn of the work picks any instruction that waits and either passes
over it or removes it, in which case the producers of its operands wait as well.
-/

namespace MiddleEnd.DeadCode

/-- A function and the instructions that wait to be looked at, some more than once. -/
structure Task where
  work : List InstId
  builder : Builder

namespace Task

/-- All instructions without side effects wait. -/
def start (b : Builder) : Task := ⟨(b.func.allInsts.filter (!b.flow.hasSideEffects ·)).reverse, b⟩

/-- No more turns are left than this: each instruction that is removed makes as many wait as it has
operands at most. -/
def size (t : Task) : Nat := t.work.length + operandCount t.builder.flow

end Task

/-- One instruction that waits is looked at. -/
inductive Turn (i : InstId) : Task → Task → Prop where
  | pass {work rest : List InstId} {b : Builder} (pick : work.Perm (i :: rest))
    (kept : b.flow.hasInst i = false ∨ b.func.isDead i = .ok false) : Turn i ⟨work, b⟩ ⟨rest, b⟩
  | remove {work rest producers next : List InstId} {inst : Inst} {b c : Builder}
      (pick : work.Perm (i :: rest))
    (hi : b.flow.inst i = .ok inst) (dead : b.func.isDead i = .ok true)
    (hp : b.flow.definers inst.args = .ok producers) (hr : b.removeInst i = .ok c)
    (hn : next.Perm (producers.filter (· ≠ i) ++ rest)) : Turn i ⟨work, b⟩ ⟨next, c⟩

/-- A number of turns, whatever they pick. -/
inductive Turns : Nat → Task → Task → Prop where
  | none (t : Task) : Turns 0 t t
  | next {i : InstId} {n : Nat} {t t' t'' : Task} (h : Turn i t t') (hs : Turns n t' t'') :
      Turns (n + 1) t t''

variable {f : Func} {b : Builder} {t t' : Task} {i : InstId} {D : List InstId}

theorem operandCount_eq (g : DataFlow) : operandCount g = g.tally (·.args.length) := rfl

theorem look (hc : b.func.Coherent) (i : InstId) :
    ((b.flow.hasInst i = false ∨ b.func.isDead i = .ok false) ∧ ¬ b.func.Unused i) ∨
      (∃ inst, b.flow.hasInst i = true ∧ b.flow.inst? i = some inst ∧ b.func.isDead i = .ok true) ∧
        b.func.Unused i := by
  cases hi : b.flow.inst? i with
  | none => exact .inl ⟨.inl (DataFlow.hasInst_of_absent hi), Func.isDead_of_absent hi⟩
  | some inst =>
    obtain ⟨dead, hdead, hiff⟩ := hc.isDead_ok hi
    cases dead with
    | false => exact .inl ⟨.inr hdead, fun hu => by simpa using hiff.2 hu⟩
    | true => exact .inr ⟨⟨inst, DataFlow.hasInst_iff.2 ⟨inst, hi⟩, rfl, hdead⟩, hiff.1 rfl⟩

theorem not_unused_of_kept (hc : b.func.Coherent)
    (kept : b.flow.hasInst i = false ∨ b.func.isDead i = .ok false) :
    ¬ b.func.Unused i := by
  rcases look hc i with ⟨-, hnot⟩ | ⟨⟨inst, hhas, -, hdead⟩, -⟩
  · exact hnot
  · rcases kept with kept | kept
    · rw [hhas] at kept
      cases kept
    · rw [hdead] at kept
      cases kept

theorem swept_pass {work rest : List InstId} (hs : f.Swept b.func D (· ∈ work))
    (pick : work.Perm (i :: rest)) (hi : ¬ b.func.Unused i) : f.Swept b.func D (· ∈ rest) := by
  refine hs.mono fun j hj hmem => (List.mem_cons.1 (pick.mem_iff.1 hmem)).resolve_left ?_
  rintro rfl
  exact hi hj

theorem swept_remove {work rest producers next : List InstId} {inst : Inst}
    (hs : f.Swept b.func D (· ∈ work)) (pick : work.Perm (i :: rest))
    (hi : b.flow.inst? i = some inst) (hu : b.func.Unused i)
    (hp : b.flow.definers inst.args = .ok producers)
    (hn : next.Perm (producers.filter (· ≠ i) ++ rest)) :
    ∃ c, b.removeInst i = .ok c ∧ f.Swept c.func (D ++ [i]) (· ∈ next) := by
  obtain ⟨js, hjs, -, hfeeds⟩ := hs.coherent.definers_ok hi
  cases hjs.symm.trans hp
  obtain ⟨c, hc, hswept, -⟩ := hs.remove hu
  refine ⟨c, hc, hswept.mono fun j _ hj => ?_⟩
  obtain ⟨hne, hj⟩ := hj
  refine hn.mem_iff.2 (List.mem_append.2 ?_)
  rcases hj with hj | hj
  · exact .inr ((List.mem_cons.1 (pick.mem_iff.1 hj)).resolve_left hne)
  · exact .inl (List.mem_filter.2 ⟨(hfeeds j).2 hj, by simpa using hne⟩)

theorem Turn.swept (h : Turn i t t') (hs : f.Swept t.builder.func D (· ∈ t.work)) :
    ∃ D', f.Swept t'.builder.func D' (· ∈ t'.work) := by
  cases h with
  | pass pick kept => exact ⟨D, swept_pass hs pick (not_unused_of_kept hs.coherent kept)⟩
  | remove pick hi dead hp hr hn =>
    have hinst := DataFlow.inst_eq_ok.1 hi
    obtain ⟨c, hc, hs'⟩ :=
      swept_remove hs pick hinst (hs.coherent.unused_of_isDead hinst dead) hp hn
    cases hc.symm.trans hr
    exact ⟨_, hs'⟩

theorem Turn.size_lt (h : Turn i t t') (hc : t.builder.func.Coherent) : t'.size < t.size := by
  cases h with
  | @pass work rest b pick kept =>
    have := pick.length_eq
    rw [List.length_cons] at this
    unfold Task.size
    dsimp only
    omega
  | @remove work rest producers next inst b c pick hi dead hp hr hn =>
    have hinst := DataFlow.inst_eq_ok.1 hi
    obtain ⟨js, hjs, hlen, -⟩ := hc.definers_ok hinst
    cases hjs.symm.trans hp
    obtain ⟨c', hc', -, hshrunk⟩ := hc.swept.remove (hc.unused_of_isDead hinst dead)
    cases hc'.symm.trans hr
    have htally := hshrunk.tally hinst (·.args.length)
    have hpick := pick.length_eq
    have hnext := hn.length_eq
    have hfilter := List.length_filter_le (· ≠ i) producers
    rw [List.length_cons] at hpick
    rw [List.length_append] at hnext
    unfold Task.size
    rw [operandCount_eq, operandCount_eq]
    dsimp only at htally ⊢
    omega

theorem Turn.exists_of_mem (hc : t.builder.func.Coherent) (hi : i ∈ t.work) :
    ∃ t', Turn i t t' := by
  obtain ⟨work, b⟩ := t
  have pick := List.perm_cons_erase hi
  rcases look hc i with ⟨kept, -⟩ | ⟨⟨inst, -, hinst, hdead⟩, hu⟩
  · exact ⟨_, .pass pick kept⟩
  · obtain ⟨js, hjs, -⟩ := hc.definers_ok hinst
    obtain ⟨c, hc', -⟩ := hc.swept.remove hu
    exact ⟨_, .remove pick (DataFlow.inst_eq_ok.2 hinst) hdead hjs hc' (.refl _)⟩

theorem Turns.swept {n : Nat} (h : Turns n t t') (hs : f.Swept t.builder.func D (· ∈ t.work)) :
    ∃ D', f.Swept t'.builder.func D' (· ∈ t'.work) := by
  induction h generalizing D with
  | none t => exact ⟨D, hs⟩
  | next h _ ih =>
    obtain ⟨D', hs'⟩ := h.swept hs
    exact ih hs'

theorem Turns.size_le {n : Nat} (h : Turns n t t') (hs : f.Swept t.builder.func D (· ∈ t.work)) :
    n + t'.size ≤ t.size := by
  induction h generalizing D with
  | none t => omega
  | next h _ ih =>
    obtain ⟨D', hs'⟩ := h.swept hs
    have := h.size_lt hs.coherent
    have := ih hs'
    omega

theorem start_swept (hc : b.func.Coherent) :
    b.func.Swept (Task.start b).builder.func [] (· ∈ (Task.start b).work) := by
  refine hc.swept.mono fun i hi _ => List.mem_reverse.2 (List.mem_filter.2 ⟨?_, ?_⟩)
  · obtain ⟨inst, hinst, -⟩ := hi.1
    exact (hc.placed i).2 ⟨inst, hinst⟩
  · obtain ⟨inst, hinst, heff⟩ := hi.1
    have hinst : b.flow.inst? i = some inst := hinst
    simp [DataFlow.hasSideEffects, DataFlow.op?_eq_some hinst, heff]

/-- The work comes to an end in some order of turns, nothing unused is left, and the flag tells
whether anything went. -/
structure Finished (f : Func) (t : Task) (r : Bool × Builder) : Prop where
  swept : ∃ D, f.Swept r.2.func D (fun _ => False) ∧ (r.1 = true ↔ D ≠ [])
  turns : ∃ n, Turns n t ⟨[], r.2⟩

theorem Finished.empty {modified : Bool} (hs : f.Swept b.func D (· ∈ []))
    (hm : modified = true ↔ D ≠ []) :
    Finished f ⟨[], b⟩ (modified, b) where
  swept := ⟨D, hs.mono fun _ _ hi => absurd hi List.not_mem_nil, hm⟩
  turns := ⟨0, .none _⟩

theorem Finished.next {r : Bool × Builder} (h : Turn i t t') (hr : Finished f t' r) :
    Finished f t r where
  swept := hr.swept
  turns := by
    obtain ⟨n, hn⟩ := hr.turns
    exact ⟨n + 1, .next h hn⟩

/-- Working down the stack is one way to take turns. -/
theorem removeFrom_ok {fuel : Nat} {modified : Bool} {work : List InstId}
    (hs : f.Swept b.func D (· ∈ work)) (hm : modified = true ↔ D ≠ [])
    (hfuel : Task.size ⟨work, b⟩ ≤ fuel) :
    (removeFrom fuel modified work b).Succeeds f.CalleesKnown (Finished f ⟨work, b⟩) := by
  induction fuel generalizing modified work b D with
  | zero =>
    cases work with
    | nil =>
      unfold removeFrom
      exact Run.succeeds_pure (.empty hs hm)
    | cons i rest => simp [Task.size] at hfuel
  | succ fuel ih =>
    cases work with
    | nil =>
      unfold removeFrom
      exact Run.succeeds_pure (.empty hs hm)
    | cons i rest =>
      have hless : ∀ {u}, Turn i ⟨i :: rest, b⟩ u → u.size ≤ fuel := fun hturn =>
        Nat.le_of_lt_succ (Nat.lt_of_lt_of_le (hturn.size_lt hs.coherent) hfuel)
      unfold removeFrom
      rcases look hs.coherent i with ⟨kept, hnot⟩ | ⟨⟨inst, hhas, hinst, hdead⟩, hu⟩
      · have hturn : Turn i ⟨i :: rest, b⟩ ⟨rest, b⟩ := .pass (.refl _) kept
        have hpass := (ih (swept_pass hs (.refl _) hnot) hm (hless hturn)).mono fun _ =>
          Finished.next hturn
        by_cases hhas : b.flow.hasInst i = true
        · rw [if_neg (by simp [hhas])]
          refine (Run.succeeds_lift (P := (· = false)) ⟨_,
            kept.resolve_left (by simp [hhas]), rfl⟩).bind ?_
          rintro _ rfl
          exact hpass
        · rw [if_pos (by simp [hhas])]
          exact hpass
      · obtain ⟨js, hjs, -⟩ := hs.coherent.definers_ok hinst
        have hperm : ((js.filter (· ≠ i)).reverse ++ rest).Perm (js.filter (· ≠ i) ++ rest) :=
          (List.reverse_perm _).append_right _
        obtain ⟨c, hc, hs'⟩ := swept_remove hs (.refl _) hinst hu hjs hperm
        have hturn : Turn i ⟨i :: rest, b⟩ ⟨(js.filter (· ≠ i)).reverse ++ rest, c⟩ :=
          .remove (.refl _) (DataFlow.inst_eq_ok.2 hinst) hdead hjs hc hperm
        have hgone : (removeFrom fuel true ((js.filter (· ≠ i)).reverse ++ rest) c).Succeeds
            f.CalleesKnown (Finished f ⟨i :: rest, b⟩) :=
          (ih hs' (by simp) (hless hturn)).mono fun _ => Finished.next hturn
        rw [if_neg (by simp [hhas])]
        refine (Run.succeeds_lift (P := (· = true)) ⟨_, hdead, rfl⟩).bind ?_
        rintro _ rfl
        refine (Run.succeeds_lift (P := (· = inst)) ⟨_, DataFlow.inst_eq_ok.2 hinst, rfl⟩).bind ?_
        rintro _ rfl
        refine (Run.succeeds_lift (P := (· = js)) ⟨_, hjs, rfl⟩).bind ?_
        rintro _ rfl
        refine (Run.succeeds_log fun hk => ?_).bind fun _ _ => ?_
        · obtain ⟨text, htext⟩ := hs.coherent.instText_ok (hs.calleesKnown hk) hinst
          exact ⟨_, by rw [htext, ok_bind]; rfl⟩
        refine (Run.succeeds_lift (P := (· = c)) ⟨_, hc, rfl⟩).bind ?_
        rintro _ rfl
        exact hgone

theorem Turns.builder_eq {n : Nat} (h : Turns n t t') (hc : t.builder.func.Coherent)
    (hnone : ∀ i, ¬ t.builder.func.Unused i) : t'.builder = t.builder := by
  induction h with
  | none t => rfl
  | next h _ ih =>
    cases h with
    | pass pick kept => exact ih hc hnone
    | remove pick hi dead hp hr hn =>
      exact absurd (hc.unused_of_isDead (DataFlow.inst_eq_ok.1 hi) dead) (hnone _)

theorem run_ok (hc : b.func.Coherent) :
    (run b).Succeeds b.func.CalleesKnown (Finished b.func (.start b)) := by
  unfold run
  refine (Run.succeeds_log fun _ => ⟨_, rfl⟩).bind fun _ _ => ?_
  refine removeFrom_ok (start_swept hc) (by simp) (Nat.le_of_eq ?_)
  exact congrArg (· + operandCount b.flow) (List.length_reverse ..)

/-- On a coherent function the pass ends without a fault, whoever listens as long as calls are to
known functions. The dead instructions go and nothing else changes; the flag tells whether there
were any; a second run finds none. Any other order of the work also comes to an end, never gets
stuck before, and leaves the same code. -/
theorem run_removes_dead (hc : b.func.Coherent) :
    (run b).Succeeds b.func.CalleesKnown fun r =>
      b.func.Shed r.2.func b.func.Dead ∧ (r.1 = true ↔ ∃ i, b.func.Dead i) ∧ r.2.func.Coherent ∧
      (run r.2).Succeeds r.2.func.CalleesKnown (· = (false, r.2)) ∧
      (∃ n, Turns n (.start b) ⟨[], r.2⟩) ∧
      ∀ {n t}, Turns n (.start b) t → n ≤ (Task.start b).size ∧ (∀ i ∈ t.work, ∃ t', Turn i t t') ∧
        (t.work = [] → r.2.func.SameCode t.builder.func) := by
  refine (run_ok hc).mono fun r hr => ?_
  obtain ⟨D, hs, hflag⟩ := hr.swept
  have hshed := hs.shed fun _ => id
  have hsecond : (run r.2).Succeeds r.2.func.CalleesKnown (· = (false, r.2)) := by
    refine (run_ok hs.coherent).mono fun r' hr' => ?_
    have hnone : ∀ i, ¬ r.2.func.Unused i := fun i hi => hs.unused hi
    obtain ⟨D', hs', hflag'⟩ := hr'.swept
    obtain ⟨n, hn⟩ := hr'.turns
    refine Prod.ext ?_ (hn.builder_eq hs.coherent hnone)
    rw [← Bool.not_eq_true, hflag', Decidable.not_not, List.eq_nil_iff_forall_not_mem]
    intro i hi
    exact absurd ((Func.Thinned.refl r.2.func).mem_of_dead hnone (hs'.dead i hi)) List.not_mem_nil
  refine ⟨hshed, ?_, hs.coherent, hsecond, hr.turns, fun {n t} ht => ?_⟩
  · exact hflag.trans (hs.ne_nil_iff fun _ => id)
  · obtain ⟨D', hs'⟩ := ht.swept (start_swept hc)
    have hsize := ht.size_le (start_swept hc)
    refine ⟨by omega, fun i hi => Turn.exists_of_mem hs'.coherent hi, fun hnil => ?_⟩
    exact hshed.sameCode (hs'.shed fun i hi => by simp [hnil] at hi) hs.coherent

/-- Two instructions that share an operand nobody else needs, and a loop that feeds nothing but
itself. -/
def tangle : Checked Builder :=
  Func.build "f" ⟨[.int 32, .int 1], some (.int 32)⟩
    [.block (some "entry"), .block (some "loop"), .block (some "exit"), .const (.int32 1),
      .goTo (.append ⟨0⟩), .insert (.binary .mul ⟨0⟩ ⟨0⟩) (.int 32),
      .insert (.binary .add ⟨3⟩ ⟨3⟩) (.int 32), .insert (.binary .sub ⟨3⟩ ⟨2⟩) (.int 32),
      .insert (.jump .br ⟨1⟩) .void, .goTo (.append ⟨1⟩), .insert (.phi .phi [⟨0⟩] [⟨0⟩]) (.int 32),
      .insert (.binary .add ⟨6⟩ ⟨2⟩) (.int 32), .edge ⟨4⟩ ⟨7⟩ ⟨1⟩,
      .insert (.branch .brCond ⟨1⟩ ⟨1⟩ ⟨2⟩) .void, .goTo (.append ⟨2⟩),
      .insert (.unary .retValue ⟨0⟩) .void]

theorem tangle_removes_dead : ∃ b r, tangle = .ok b ∧ (run b).outcome = .ok r ∧ r.1 = true ∧
    r.2.func.allInsts.map (·.index) = [3, 4, 5, 6, 7] ∧ b.func.Shed r.2.func b.func.Dead ∧
    (run r.2).outcome = .ok (false, r.2) := by
  obtain ⟨b, hb, h⟩ := exists_of_any (x := tangle) (p := fun b =>
    (run b).outcome.toOption.any fun r =>
    r.1 && r.2.func.allInsts.map (·.index) == [3, 4, 5, 6, 7]) (by decide +kernel)
  obtain ⟨r, hr, hkept⟩ := exists_of_any h
  simp only [Bool.and_eq_true, beq_iff_eq] at hkept
  obtain ⟨r', hr', hshed, -, -, hagain, -⟩ :=
    (run_removes_dead (Func.build_coherent (by decide) hb)).outcome
  cases hr.symm.trans hr'
  obtain ⟨_, hagain, rfl⟩ := hagain.outcome
  exact ⟨b, r, hb, hr, hkept.1, hkept.2, hshed, hagain⟩

end MiddleEnd.DeadCode
