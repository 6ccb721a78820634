import MiddleEnd.Proofs.Thinning

/-!
# Refinement

A run that returns takes some of the edges of its function. Along these edges every operand is there
before it is used, even where the function at large has no such order: a run that read a missing
value would be stuck. What a change does to such runs, it does to all that a function returns.
-/

namespace MiddleEnd

namespace Frame

theorem Gives.reads {f : Func} {s : Frame} {i : InstId} {inst : Inst} {d : Datum}
    (h : Gives f s i inst d) :
    ∀ v ∈ inst.args, ∃ a, s.read f v = .ok a := by
  intro v hv
  cases h with
  | alloca => cases hv
  | load hx => exact ⟨_, List.mem_singleton.1 hv ▸ hx⟩
  | unary _ _ hx _ => exact ⟨_, List.mem_singleton.1 hv ▸ hx⟩
  | binary _ _ hx hy _ =>
    rcases List.mem_cons.1 hv with rfl | hv
    · exact ⟨_, hx⟩
    · exact ⟨_, List.mem_singleton.1 hv ▸ hy⟩

theorem Goes.reads {f : Func} {s : Frame} {inst : Inst} {b : BlockId} (h : Goes f s inst b) :
    (∀ v ∈ inst.args, ∃ a, s.read f v = .ok a) ∧ b ∈ inst.blocks := by
  cases h with
  | jump =>
    refine ⟨fun v hv => ?_, by simp [Inst.blocks]⟩
    cases hv
  | @branch op c w t e hc =>
    refine ⟨fun v hv => ⟨_, List.mem_singleton.1 hv ▸ hc⟩, ?_⟩
    cases w.isZero <;> simp [Inst.blocks]

end Frame

def Func.Takes (f : Func) (s₀ : Frame) (a b : BlockId) : Prop :=
  ∃ s t last, Reached f (fun _ _ => True) s₀ s ∧ s.rest = [last] ∧ s.step f = .ok (.next t) ∧
    s.block = a ∧ t.block = b

section Takes

variable {f : Func} {entry : BlockId} {s₀ s : Frame} {d : Datum}

theorem Along.of_run {n : Nat} (h : s.run f n = .ok (.done (some d))) :
    Along f (fun _ _ => True) s d := by
  induction n generalizing s with
  | zero => cases h
  | succ n ih =>
    rw [Frame.run] at h
    split at h
    · rename_i t ht
      exact .next ht (fun _ => trivial) (ih h)
    · exact .done h

theorem Along.reached {E : BlockId → BlockId → Prop} (h : Along f E s₀ d)
    (hr : Reached f (fun _ _ => True) s₀ s) :
    Along f E s d := by
  induction hr with
  | start => exact h
  | next _ hstep _ ih =>
    cases ih with
    | done hdone =>
      rw [hstep] at hdone
      cases hdone
    | next hstep' _ ha =>
      rw [hstep] at hstep'
      cases hstep'
      exact ha

theorem Along.takes (h : Along f (fun _ _ => True) s d) (hr : Reached f (fun _ _ => True) s₀ s) :
    Along f (f.Takes s₀) s d := by
  induction h with
  | done hdone => exact .done hdone
  | @next s t d hstep hE _ ih =>
    refine .next hstep (fun htail => ?_) (ih (hr.next hstep hE))
    cases hrest : s.rest with
    | nil =>
      unfold Frame.step at hstep
      rw [hrest] at hstep
      cases hstep
    | cons i rest =>
      rw [hrest] at htail
      have hnil : rest = [] := htail
      subst hnil
      exact ⟨s, t, i, hr, hrest, hstep, rfl, rfl⟩

theorem Along.taken {E : BlockId → BlockId → Prop} (h : Along f E s₀ d) {a b : BlockId}
    (hab : f.Takes s₀ a b) : E a b := by
  obtain ⟨s, t, last, hr, hrest, hstep, rfl, rfl⟩ := hab
  cases h.reached hr with
  | done hdone =>
    rw [hstep] at hdone
    cases hdone
  | next hstep' hE _ =>
    rw [hstep] at hstep'
    cases hstep'
    exact hE (by rw [hrest]; rfl)

theorem Func.Regular.takes_connects (hf : f.Regular entry) (h₀ : Func.AtStart f entry s₀)
    (hr : Reached f (fun _ _ => True) s₀ s) :
    s.Sits f (fun _ _ => True) entry ∧ Connects (f.Takes s₀) entry s.block ∧
      ∀ {v e ty i}, s.values v = some e → f.flow.origin? v = some (.result ty i) →
        ∃ home xs, f.insts home = .ok xs ∧ i ∈ xs ∧ Connects (f.Takes s₀) entry home := by
  induction hr with
  | start =>
    refine ⟨?_, by rw [h₀.block]; exact .refl _ _, fun hv ho => ?_⟩
    · obtain ⟨front, t, he, -, -⟩ := hf.shape.ended h₀.insts
      refine ⟨by rw [h₀.block]; exact .refl _ _, ⟨[], by rw [h₀.block]; exact h₀.insts⟩,
        hf.bare h₀.insts, ?_⟩
      rw [he]
      simp
    · obtain ⟨ty', p, ho'⟩ := hf.coherent.flow.param_origin (h₀.params hv)
      rw [ho] at ho'
      cases ho'
  | @next s t hr hstep hE ih =>
    obtain ⟨hs, hcon, hset⟩ := ih
    have hsteps := hf.steps hs hstep hE
    refine ⟨hf.sits_step hs hsteps, ?_⟩
    obtain ⟨pre, hpre⟩ := hs.suffix
    cases hsteps with
    | @yields i rest inst w e hrest hne hi hw hg =>
      refine ⟨hcon, fun {v e' ty j} hv ho => ?_⟩
      by_cases hvw : v = w
      · subst hvw
        rw [hf.coherent.flow.definer_eq hw ho]
        exact ⟨s.block, _, hpre, by rw [hrest]; exact List.mem_append_right _ List.mem_cons_self,
          hcon⟩
      · exact hset (by simpa [Frame.set, hvw] using hv) ho
    | stores => exact ⟨hcon, hset⟩
    | @enters i inst b xs t hrest hi hg hedge hent =>
      have hcon' : Connects (f.Takes s₀) entry b :=
        hcon.step ⟨s, t, i, hr, hrest, hstep, rfl, hent.block⟩
      rw [hent.block]
      refine ⟨hcon', fun {v e' ty j} hv ho => ?_⟩
      by_cases hphi : ∃ phi ∈ xs.takeWhile f.flow.isPhi, f.flow.result? phi = some v
      · obtain ⟨phi, hp, hpv⟩ := hphi
        rw [hf.coherent.flow.definer_eq hpv ho]
        exact ⟨b, xs, hent.insts, (List.takeWhile_prefix _).subset hp, hcon'⟩
      · rw [hent.kept v fun phi hp hpv => hphi ⟨phi, hp, hpv⟩] at hv
        exact hset hv ho

theorem Func.Regular.runs_through (hf : f.Regular entry) (h₀ : Func.AtStart f entry s₀)
    (ha : Along f (fun _ _ => True) s₀ d) (hr : Reached f (fun _ _ => True) s₀ s)
    {pre : List InstId} {u : InstId} {post : List InstId} (hrest : s.rest = pre ++ u :: post) :
    ∃ t, Reached f (fun _ _ => True) s₀ t ∧ t.block = s.block ∧ t.rest = u :: post := by
  induction pre generalizing s with
  | nil => exact ⟨s, hr, rfl, hrest⟩
  | cons i pre ih =>
    have hs := (hf.takes_connects h₀ hr).1
    obtain ⟨front, hfront⟩ := hs.suffix
    have hmid : ¬ (pre ++ u :: post = []) := by simp
    have hterm : f.flow.isTerminator i = false := by
      rw [hrest] at hfront
      cases hi : f.flow.isTerminator i with
      | false => rfl
      | true => exact absurd ((hf.terminator_iff hfront).1 hi) hmid
    cases ha.reached hr with
    | done hdone =>
      obtain ⟨j, rest, x, hj, hinst, -, -⟩ := Frame.step_done_iff.1 hdone
      rw [hrest] at hj
      cases hj
      rw [DataFlow.isTerminator_of_inst hinst] at hterm
      cases hterm
    | @next _ t _ hstep hE _ =>
      have hnext := hr.next hstep hE
      have hin : t.block = s.block ∧ t.rest = pre ++ u :: post := by
        cases hf.steps hs hstep hE with
        | yields hj =>
          rw [hrest] at hj
          cases hj
          exact ⟨rfl, rfl⟩
        | stores hj =>
          rw [hrest] at hj
          cases hj
          exact ⟨rfl, rfl⟩
        | enters hj =>
          rw [hrest] at hj
          exact absurd (List.cons.inj hj).2 hmid
      obtain ⟨t', ht', hb, hu⟩ := ih hnext hin.2
      exact ⟨t', ht', hb.trans hin.1, hu⟩

theorem Func.Regular.reads (hf : f.Regular entry) (h₀ : Func.AtStart f entry s₀)
    (ha : Along f (fun _ _ => True) s₀ d) (hr : Reached f (fun _ _ => True) s₀ s) {u : InstId}
    {post : List InstId} {inst : Inst} (hrest : s.rest = u :: post)
    (hu : f.flow.inst? u = some inst) :
    ∀ v ∈ inst.args, ∃ a, s.read f v = .ok a := by
  have hs := (hf.takes_connects h₀ hr).1
  cases ha.reached hr with
  | done hdone =>
    obtain ⟨j, rest, x, hj, hinst, hx, -⟩ := Frame.step_done_iff.1 hdone
    rw [hrest] at hj
    cases hj
    rw [hu] at hinst
    cases hinst
    exact fun v hv => ⟨_, List.mem_singleton.1 hv ▸ hx⟩
  | @next _ t _ hstep hE _ =>
    cases hf.steps hs hstep hE with
    | yields hj hne hinst hv hg =>
      rw [hrest] at hj
      cases hj
      rw [hu] at hinst
      cases hinst
      exact hg.reads
    | stores hj hne hinst hx hy =>
      rw [hrest] at hj
      cases hj
      rw [hu] at hinst
      cases hinst
      intro v hv
      rcases List.mem_cons.1 hv with rfl | hv
      · exact ⟨_, hx⟩
      · exact ⟨_, List.mem_singleton.1 hv ▸ hy⟩
    | enters hj hinst hg =>
      rw [hrest] at hj
      cases hj
      rw [hu] at hinst
      cases hinst
      exact hg.reads.1

theorem Func.Regular.enters (hf : f.Regular entry) (h₀ : Func.AtStart f entry s₀) {b : BlockId}
    {xs : List InstId} (hb : Connects (f.Takes s₀) entry b) (hxs : f.insts b = .ok xs) :
    ∃ s, Reached f (fun _ _ => True) s₀ s ∧ s.block = b ∧ s.rest = xs.dropWhile f.flow.isPhi := by
  obtain ⟨p, hp⟩ := hb
  rcases hp.last_step with ⟨rfl, -⟩ | ⟨c, q, -, ⟨s, t, last, hr, hrest, hstep, rfl, rfl⟩, -⟩
  · have hrest := h₀.insts
    rw [hxs] at hrest
    cases hrest
    refine ⟨s₀, .start, h₀.block, ?_⟩
    have hnone := hf.bare h₀.insts
    cases hr : s₀.rest with
    | nil => rfl
    | cons i rest =>
      have := hnone i (by rw [hr]; exact List.mem_cons_self)
      simp [this]
  · have hs := (hf.takes_connects h₀ hr).1
    have hnext := hr.next hstep fun _ => trivial
    refine ⟨t, hnext, rfl, ?_⟩
    cases hf.steps hs hstep fun _ => trivial with
    | yields hj hne => exact absurd (List.cons.inj (hj.symm.trans hrest)).2 hne
    | stores hj hne => exact absurd (List.cons.inj (hj.symm.trans hrest)).2 hne
    | enters hj hinst hg hedge hent =>
      have hys := hent.insts
      rw [← hent.block, hxs] at hys
      cases hys
      exact hent.rest

theorem Func.Avail.of_leads {E : BlockId → BlockId → Prop}
    (hE : ∀ {a b}, E a b → f.Leads a b) {b : BlockId} {rest : List InstId} {v : ValueId}
    (hb : Connects E entry b) (h : f.Avail f.Leads entry b rest v) :
    f.Avail E entry b rest v := by
  intro ty i ho
  obtain ⟨home, xs, hxs, hi, hg, hout⟩ := h ho
  exact ⟨home, xs, hxs, hi, ⟨hb, fun p hp => hg.2 p (hp.mono hE)⟩, hout⟩

theorem Func.Regular.not_stranded (hf : f.Regular entry) (h₀ : Func.AtStart f entry s₀)
    (hE : ∀ {a b}, f.Takes s₀ a b → f.Leads a b) (hr : Reached f (fun _ _ => True) s₀ s)
    {v : ValueId} {a : Datum} (hd : s.read f v = .ok a) : ¬ f.Stranded entry v := by
  rintro ⟨ty, i, home, xs, ho, hxs, hi, hun⟩
  unfold Frame.read at hd
  rw [ho] at hd
  cases hv : s.values v with
  | none =>
    rw [hv] at hd
    cases hd
  | some e =>
    obtain ⟨home', xs', hxs', hi', p, hp⟩ := (hf.takes_connects h₀ hr).2.2 hv ho
    rw [hf.coherent.layout.one_block hxs' hxs hi' hi] at hp
    exact hun ⟨p, hp.mono hE⟩

theorem Func.Regular.takes_leads (hf : f.Regular entry) (h₀ : Func.AtStart f entry s₀)
    {a b : BlockId} (h : f.Takes s₀ a b) : f.Leads a b := by
  obtain ⟨s, t, last, hr, hrest, hstep, rfl, rfl⟩ := h
  have hs := (hf.takes_connects h₀ hr).1
  obtain ⟨pre, hpre⟩ := hs.suffix
  cases hf.steps hs hstep fun _ => trivial with
  | yields hj hne => exact absurd (List.cons.inj (hj.symm.trans hrest)).2 hne
  | stores hj hne => exact absurd (List.cons.inj (hj.symm.trans hrest)).2 hne
  | @enters i inst b xs t hj hinst hg hedge hent =>
    rw [Func.leads_iff]
    refine ⟨_, i, inst, hpre, by rw [hj]; simp, hinst, ?_, ?_⟩
    · rw [← DataFlow.isTerminator_of_inst hinst]
      exact hf.goes_terminator hinst hg
    · rw [hent.block]
      exact hg.reads.2

/-- A valid function is orderly along the edges that a run takes which returns. -/
theorem Func.Regular.orderly_takes (hf : f.Regular entry) (hdom : f.Dominated entry)
    (h₀ : Func.AtStart f entry s₀) (ha : Along f (fun _ _ => True) s₀ d) :
    f.Orderly (f.Takes s₀) entry := by
  have hE : ∀ {a b}, f.Takes s₀ a b → f.Leads a b := fun h => hf.takes_leads h₀ h
  have hlead : ∀ {b}, Connects (f.Takes s₀) entry b → Connects f.Leads entry b := by
    rintro b ⟨p, hp⟩
    exact ⟨p, hp.mono hE⟩
  refine ⟨hf, hE, ?_, ?_⟩
  · intro b pre u post inst v hcon hb hu hphi hv
    obtain ⟨s, hr, hblock, hrest⟩ := hf.enters h₀ hcon hb
    obtain ⟨-, hbody, hsplit⟩ := hf.body_of_block hb
    -- The instruction is not a phi, so it stands in the part of the block that the run goes
    -- through.
    obtain ⟨mid, hmid⟩ : ∃ mid, s.rest = mid ++ u :: post := by
      rw [hrest]
      have hpos : (pre ++ u :: post).dropWhile f.flow.isPhi = pre.dropWhile f.flow.isPhi ++
          u :: post := by
        rw [List.dropWhile_append]
        split
        · rename_i hnil
          have hup : f.flow.isPhi u = false := by rw [DataFlow.isPhi_of_inst hu, hphi]
          rw [List.dropWhile_cons_of_neg (by rw [hup]; simp), List.isEmpty_iff.1 hnil]
          rfl
        · rfl
      exact ⟨_, hpos⟩
    obtain ⟨t, ht, hbt, hut⟩ := hf.runs_through h₀ ha hr hmid
    obtain ⟨a, hread⟩ := hf.reads h₀ ha ht hut hu v hv
    have := (hdom.body (hlead hcon) hb hu hphi hv).resolve_right (hf.not_stranded h₀ hE ht hread)
    exact this.of_leads hE hcon
  · intro b xs u inst v p hcon hpb hb hx hu hphi hv
    obtain ⟨s, t, last, hr, hrest, hstep, rfl, rfl⟩ := id hpb
    have hs := (hf.takes_connects h₀ hr).1
    have hup : f.flow.isPhi u = true := by rw [DataFlow.isPhi_of_inst hu, hphi]
    cases hf.steps hs hstep fun _ => trivial with
    | yields hj hne => exact absurd (List.cons.inj (hj.symm.trans hrest)).2 hne
    | stores hj hne => exact absurd (List.cons.inj (hj.symm.trans hrest)).2 hne
    | @enters i jnst c ys t hj hinst hg hedge hent =>
      have hys := hent.insts
      rw [← hent.block, hb] at hys
      cases hys
      have hux : u ∈ xs.takeWhile f.flow.isPhi := hf.shape.mem_phis hb hx hup
      obtain ⟨v', w, e, hv', hw, he', -⟩ := hent.merged u hux
      rw [DataFlow.incoming?_of_edge hu (hf.shape.phi_edges hb hx hup hu).1 hv] at hv'
      cases hv'
      have hleads := hlead (hcon.step hpb)
      have := (hdom.phis hleads hb hx hu hphi hv (hlead hcon)).resolve_right
        (hf.not_stranded h₀ hE hr he')
      exact this.of_leads hE hcon

end Takes

namespace Func

/-- The function returns `d`, and operands are there before they are used along the edges of `E`,
which the run takes. -/
def Serves (f : Func) (E : BlockId → BlockId → Prop) (entry : BlockId) (args : List Datum)
    (d : Datum) : Prop :=
  f.Orderly E entry ∧ ∃ s₀, Frame.start f args = .ok s₀ ∧ Along f E s₀ d

/-- Whatever the first function serves the second one serves as well. -/
def Refines (f f' : Func) (entry : BlockId) : Prop :=
  ∀ ⦃E args d⦄, f.Serves E entry args d → f'.Serves E entry args d

variable {f f' f'' : Func} {entry : BlockId} {args : List Datum} {d : Datum}
  {E : BlockId → BlockId → Prop}

theorem Refines.refl (f : Func) (entry : BlockId) : Refines f f entry := fun _ _ _ h => h

theorem Refines.trans (h : Refines f f' entry) (h' : Refines f' f'' entry) : Refines f f'' entry :=
  fun _ _ _ hs => h' (h hs)

/-- A refinement with the same edges, along which operands are there as well. -/
structure Inherits (f f' : Func) (entry : BlockId) : Prop where
  leads : f'.Leads = f.Leads
  orderly : ∀ {E}, f.Orderly E entry → f'.Orderly E entry
  refines : f.Refines f' entry

theorem Inherits.refl (f : Func) (entry : BlockId) : f.Inherits f entry := ⟨rfl, id, .refl f entry⟩

theorem Inherits.trans (h : f.Inherits f' entry) (h' : f'.Inherits f'' entry) :
    f.Inherits f'' entry :=
  ⟨h'.leads.trans h.leads, fun hf => h'.orderly (h.orderly hf), h.refines.trans h'.refines⟩

theorem Serves.returns (h : f.Serves E entry args d) : f.Returns args d := by
  obtain ⟨-, s₀, hs, ha⟩ := h
  obtain ⟨n, hn⟩ := ha.returns
  exact ⟨s₀, n, hs, hn⟩

theorem Returns.serves (hf : f.Regular entry) (hdom : f.Dominated entry) (h : f.Returns args d) :
    ∃ E, f.Serves E entry args d := by
  obtain ⟨s₀, n, hs, hn⟩ := h
  have ha := Along.of_run hn
  have h₀ := hf.atStart hs
  exact ⟨f.Takes s₀, hf.orderly_takes hdom h₀ ha, s₀, hs, ha.takes .start⟩

theorem Refines.returns (h : Refines f f' entry) (hf : f.Regular entry) (hdom : f.Dominated entry)
    (hr : f.Returns args d) : f'.Returns args d := by
  obtain ⟨E, hE⟩ := hr.serves hf hdom
  exact (h hE).returns

theorem Serves.rewire {g : DataFlow} {ρ : InstId → Inst → Inst} (h : f.Serves E entry args d)
    (hg : g.Exact) (hR : DataFlow.Rewired f.flow g ρ)
    (hM : ∀ {s₀}, Frame.start f args = .ok s₀ → ∀ {i inst}, f.flow.inst? i = some inst →
      Inst.Matches (Same f E entry s₀ { f with flow := g }) inst (ρ i inst)) :
    ({ f with flow := g } : Func).Serves E entry args d := by
  obtain ⟨hf, s₀, hs, ha⟩ := h
  refine ⟨hf.rewire hg hR fun hi => ?_, s₀, ?_, ha.rewire hf (hf.atStart hs) hR (hM hs) .start⟩
  · exact (hM hs hi).imp fun _ _ _ _ hsame => hsame.avail
  · have hp : g.params = f.flow.params := hR.params
    unfold Frame.start Func.params at hs ⊢
    rw [← hp] at hs
    exact hs

theorem Serves.thin {D : List InstId} {C : Cell → Prop} (h : f.Serves E entry args d)
    (ht : f.Thinned f' D) (hd : f.Idle D) (hc : f'.Coherent)
    (hC : ∀ {s₀}, Frame.start f args = .ok s₀ → f.Apart E s₀ D C) :
    f'.Serves E entry args d := by
  obtain ⟨hf, s₀, hs, ha⟩ := h
  have h₀ := hf.atStart hs
  have hs' := hs
  unfold Frame.start at hs'
  rw [hf.starts, ok_bind] at hs'
  obtain ⟨rest, hrest, hs'⟩ := bind_eq_ok.1 hs'
  cases hs'
  have hstart : Frame.start f' args = .ok {
      block := entry
      rest := rest.filter (· ∉ D)
      values := fun v => (f'.params.idxOf? v).bind (args[·]?)
      memory := fun _ => .undefined } := by
    unfold Frame.start
    rw [ht.starts hf.starts, ok_bind, ht.insts_ok hrest, ok_bind]
    rfl
  refine ⟨hf.thin ht hd hc, _, hstart, ?_⟩
  · refine ha.thin hf (hf.sits_atStart h₀) ht hd hc (hC hs) .start ⟨rfl, rfl, rfl,
      fun _ => ?_, fun _ => rfl⟩
    have hp : f'.params = f.params := ht.params
    rw [hp]

end Func

end MiddleEnd
