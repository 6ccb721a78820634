import MiddleEnd.Proofs.LoweredForm
import MiddleEnd.Proofs.Simulation
import MiddleEnd.Proofs.TypeSafety
import Mathlib.Data.List.TakeWhile

/-!
# Registers for phis hold what the phis held

A function whose phis were lowered runs like the one it came from, instruction by instruction.
Wherever a phi is there, its register holds the same. At the end of a block the copies are done
before control goes on: as no edge leads from a fork to a merge, the registers they write are those
of phis that are about to run, or of phis that are not there.
-/

namespace MiddleEnd

open PhiLowering (Registers Lowered Assigned Translated Spelled inPlace blockCopies)
open ParallelCopy (Sequenced inSequence atOnce)

namespace Frame

theorem read_set_reg {d : Func} {s : Frame} {rest : List InstId} {r v : ValueId}
    {ty : Ty} {a : Datum} (hr : d.flow.origin? r = some (.reg ty)) :
    ({ s with rest }.set r a : Frame).read d v = if v = r then .ok a else s.read d v := by
  by_cases hv : v = r
  · subst hv
    unfold Frame.read Frame.set
    rw [hr]
    simp
  · rw [if_neg hv]
    exact read_set_ne hv

/-- Copies between registers that are put in a sequence go through, if all that they read at first
can be read. -/
theorem run_copies {d : Func} {pending saves seq : List (ValueId × ValueId)}
    (h : Sequenced pending saves seq) {s : Frame} {ks tail : List InstId}
    (hspell : Spelled d ks seq) (hrest : s.rest = ks ++ tail)
    (hregs : ∀ m ∈ seq, ∃ ty, d.flow.origin? m.1 = some (.reg ty))
    (hread : ∀ p ∈ pending, ∃ a, s.read d p.2 = .ok a) :
    ∃ t, s.run d ks.length = .ok (.next t) ∧ t.block = s.block ∧ t.rest = tail ∧
      t.memory = s.memory ∧ t.activation = s.activation ∧
      (∀ v, t.read d v = inSequence seq (s.read d) v) ∧
      ∀ v, v ∉ seq.map (·.1) → t.values v = s.values v := by
  -- One copy is done, then the others.
  have hstep : ∀ {c : ValueId × ValueId} {later : List (ValueId × ValueId)} {s : Frame} {k : InstId}
      {ks : List InstId} {a : Datum}, d.flow.inst? k = some (.binary .copy c.1 c.2) →
      (∃ ty, d.flow.origin? c.1 = some (.reg ty)) →
      s.rest = k :: ks ++ tail → s.read d c.2 = .ok a →
      (∃ t, ({ s with rest := ks ++ tail }.set c.1 a : Frame).run d ks.length = .ok (.next t) ∧
      t.block = s.block ∧
        t.rest = tail ∧ t.memory = s.memory ∧ t.activation = s.activation ∧
        (∀ v, t.read d v = inSequence later
        (({ s with rest := ks ++ tail }.set c.1 a : Frame).read d) v) ∧
        ∀ v, v ∉ later.map (·.1) →
        t.values v = ({ s with rest := ks ++ tail }.set c.1 a : Frame).values v) →
      ∃ t, s.run d (k :: ks).length = .ok (.next t) ∧ t.block = s.block ∧ t.rest = tail ∧
      t.memory = s.memory ∧
        t.activation = s.activation ∧ (∀ v, t.read d v = inSequence (c :: later) (s.read d) v) ∧
        ∀ v, v ∉ (c :: later).map (·.1) → t.values v = s.values v := by
    rintro c later s k ks a hk ⟨ty, hr⟩ hrest ha ⟨t, hrun, hblock, htail, hmem, hact,
      hreads, hvalues⟩
    have hmove : s.step d = .ok (.next ({ s with rest := ks ++ tail }.set c.1 a)) :=
      step_next_iff.2 (.copies hrest hk ha)
    refine ⟨t, by rw [List.length_cons, Frame.run, hmove]; exact hrun, hblock, htail, hmem,
      hact, fun v => ?_,
      fun v hv => ?_⟩
    · rw [hreads, ParallelCopy.inSequence_cons]
      congr 1
      funext w
      rw [read_set_reg hr, ← ha]
    · rw [List.map_cons, List.mem_cons, not_or] at hv
      rw [hvalues v hv.2]
      exact if_neg hv.1
  induction h generalizing s ks with
  | done =>
    cases hspell
    exact ⟨s, rfl, rfl, hrest, rfl, rfl, fun _ => rfl, fun _ _ => rfl⟩
  | @write pending saves later c hmem hfree _ ih =>
    cases hspell with
    | @cons k _ ks _ hk hspell =>
      obtain ⟨hr, hregs⟩ := List.forall_mem_cons.1 hregs
      obtain ⟨a, ha⟩ := hread c hmem
      refine hstep hk hr hrest ha (ih hspell rfl hregs fun p hp => ?_)
      obtain ⟨ty, hr⟩ := hr
      obtain ⟨e, he⟩ := hread p (List.mem_of_mem_erase hp)
      rw [read_set_reg hr]
      split
      · exact ⟨a, rfl⟩
      · exact ⟨e, he⟩
  | @save pending saves later c saved hmem hblocked hfresh _ ih =>
    cases hspell with
    | @cons k _ ks _ hk hspell =>
      obtain ⟨hr, hregs⟩ := List.forall_mem_cons.1 hregs
      -- A target is saved because some copy reads it.
      obtain ⟨q, hq, hqc⟩ := ParallelCopy.isFree_eq_false.1 (hblocked c hmem)
      obtain ⟨a, ha⟩ := hread q hq
      rw [hqc] at ha
      refine hstep (c := (saved, c.1)) hk hr hrest ha (ih hspell rfl hregs fun p hp => ?_)
      obtain ⟨ty, hr⟩ := hr
      obtain ⟨p', hp', rfl⟩ := ParallelCopy.mem_redirect.1 hp
      obtain ⟨e, he⟩ := hread p' hp'
      rw [read_set_reg hr]
      by_cases hsame : p'.2 = c.1
      · simp only [if_pos hsame]
        exact ⟨a, rfl⟩
      · simp only [if_neg hsame]
        split
        · exact ⟨a, rfl⟩
        · exact ⟨e, he⟩

/-- The second frame holds in registers what the first one holds for the phis that are there, and
the same as that for everything else. What is left to run of the block has the copies in front of
its end. -/
structure Reflects (c d : Func) (regs : Registers) (moves : BlockId → List (ValueId × ValueId))
    (E : BlockId → BlockId → Prop) (entry : BlockId) (s s' : Frame) : Prop where
  block : s'.block = s.block
  rest : ∃ front last ks, s.rest = front ++ [last] ∧ s'.rest = front ++ (ks ++ [last]) ∧
    Spelled d ks (moves s.block)
  reads : ∀ {v o a}, c.flow.origin? v = some o →
    (regs.get? v ≠ none → c.Avail E entry s.block s.rest v) →
    s.read c v = .ok a → s'.read d (inPlace regs v) = .ok a
  memory : s'.memory = s.memory
  activation : s'.activation = s.activation

theorem read_set_result {f : Func} {s : Frame} {rest : List InstId} {v : ValueId} {ty : Ty}
    {i : InstId} {a : Datum} (hv : f.flow.origin? v = some (.result ty i)) :
    ({ s with rest }.set v a : Frame).read f v = .ok a :=
  (read_result hv).2 (if_pos rfl)

end Frame

namespace PhiLowering.Translated

open MiddleEnd.Frame (Reflects)

variable {c d : Func} {regs : Registers} {moves : BlockId → List (ValueId × ValueId)}
  {E : BlockId → BlockId → Prop} {entry : BlockId} {s₀ s s' t : Frame}
  (h : Translated c d regs moves) (hc : c.Lowerable entry)

include h hc

omit hc in
theorem inPlace_inj {v w : ValueId} {o o' : ValueDef} (hv : c.flow.origin? v = some o)
    (hw : c.flow.origin? w = some o') (he : inPlace regs w = inPlace regs v) : w = v := by
  rcases h.inPlace_cases hv with ⟨r, hr, hrv, -⟩ | ⟨-, hrv, -⟩ <;>
    rcases h.inPlace_cases hw with ⟨r', hr', hrw, -⟩ | ⟨-, hrw, -⟩ <;> rw [hrv, hrw] at he
  · exact h.assigned.distinct hr' (he ▸ hr)
  · rw [he, h.assigned.new hr] at hw
    cases hw
  · rw [← he, h.assigned.new hr'] at hv
    cases hv
  · exact he

theorem leads_of_copy {a : BlockId} {v : ValueId} {o : ValueDef} (ho : c.flow.origin? v = some o)
    {p : ValueId × ValueId} (hp : p ∈ blockCopies c.flow regs c.allPhis a)
    (he : p.1 = inPlace regs v) :
    ∃ phi home xs, c.flow.isPhi phi = true ∧ c.flow.result? phi = some v ∧
      c.insts home = .ok xs ∧ phi ∈ xs ∧ c.Leads a home := by
  obtain ⟨phi, hphi, w, inst, u, hw, hi, hedge, rfl⟩ := PhiLowering.mem_blockCopies.1 hp
  obtain ⟨ty, how, -⟩ := hc.coherent.flow.result_origin hw
  obtain rfl := h.inPlace_inj ho how he
  have hisPhi := (mem_phis hc).1 hphi
  obtain ⟨home, xs, hxs, hmem⟩ := hc.coherent.home hi
  exact ⟨phi, home, xs, hisPhi, hw, hxs, hmem,
    ((hc.shape.phi_edges hxs hmem hisPhi hi).2 a).1 (Inst.block_of_edge hedge)⟩

omit h in
theorem sole (hcrit : ∀ {a b}, c.Leads a b → ¬ (c.Forks a ∧ c.Merges b))
    (hE : ∀ {a b}, E a b → c.Leads a b) {a b home : BlockId} {rest xs : List InstId} {phi : InstId}
    (hphi : c.flow.isPhi phi = true) (hxs : c.insts home = .ok xs) (hmem : phi ∈ xs)
    (hb : c.Behind E entry a rest phi) (hl : c.Leads a home) (hl' : c.Leads a b) : b = home := by
  have hne : home ≠ entry := by
    rintro rfl
    rw [hc.bare hxs phi hmem] at hphi
    cases hphi
  refine Classical.byContradiction fun hbh => not_guards_of_sole hne (fun {x} hx => ?_)
    ((hc.behind_iff hxs hmem).1 hb).1
  exact Classical.byContradiction fun hxa => hcrit hl ⟨⟨b, home, hbh, hl', hl⟩, x, a,
    hxa, hE hx, hl⟩

omit h in
theorem source_read (hf : c.Orderly E entry) (h₀ : c.AtStart entry s₀)
    (hargs : ∀ v ∈ c.flow.params, ∃ e, s₀.values v = some e) (hr : Reached c E s₀ s) {last : InstId}
    (hrest : s.rest = [last]) {phi : InstId} {inst : Inst} {v : ValueId}
    (hphi : c.flow.isPhi phi = true) (hi : c.flow.inst? phi = some inst)
    (he : (v, s.block) ∈ inst.edges) :
    c.Avail E entry s.block s.rest v ∧ ∃ a, s.read c v = .ok a := by
  have hsits := hf.sits_reached (hf.sits_atStart h₀) hr
  obtain ⟨pre, hpre⟩ := hsits.suffix
  rw [hrest] at hpre
  have hcon : Connects c.Leads entry s.block := by
    obtain ⟨p, hp⟩ := hsits.connects
    exact ⟨p, hp.mono hf.edges⟩
  obtain ⟨hcomp, hav⟩ := avail_edge hc hphi hi he hcon hpre
  have hav := hrest.symm ▸ hav.of_leads hf.edges hsits.connects
  refine ⟨hav, ?_⟩
  obtain ⟨o, ho⟩ := hc.coherent.flow.operand hi (Inst.arg_of_edge he)
  cases o with
  | const w => exact ⟨.word w, by unfold Frame.read; rw [ho]⟩
  | undef ty => exact ⟨.undefined, by unfold Frame.read; rw [ho]⟩
  | reg ty => exact absurd ho hcomp.plain
  | param ty p =>
    obtain ⟨e, hv⟩ := hargs v (hcomp.listed ho)
    obtain ⟨e', hv'⟩ := hf.stays h₀ hr hv
    exact ⟨e', by unfold Frame.read; rw [ho, hv']⟩
  | result ty i =>
    obtain ⟨hstore, hterm, -⟩ := hcomp.result ho
    obtain ⟨e, hv⟩ := hf.there h₀ hr hstore hterm (hc.coherent.flow.origin_result ho) (hav ho)
    exact ⟨e, (Frame.read_result ho).2 hv⟩

end PhiLowering.Translated

namespace Frame

/-- The last frame is the second one with the copies of the block done, and the end of the block
still to run. -/
structure Leaves (c d : Func) (regs : Registers) (s s' t' : Frame) : Prop where
  block : t'.block = s.block
  rest : t'.rest = s.rest
  memory : t'.memory = s.memory
  activation : t'.activation = s.activation
  copied : ∀ p ∈ blockCopies c.flow regs c.allPhis s.block, t'.read d p.1 = s'.read d p.2
  kept : ∀ {v o}, c.flow.origin? v = some o → (∀ p ∈ blockCopies c.flow regs c.allPhis s.block,
    p.1 ≠ inPlace regs v) →
    t'.read d (inPlace regs v) = s'.read d (inPlace regs v)

end Frame

namespace PhiLowering.Translated

open MiddleEnd.Frame (Reflects Leaves)

variable {c d : Func} {regs : Registers} {moves : BlockId → List (ValueId × ValueId)}
  {E : BlockId → BlockId → Prop} {entry : BlockId} {s₀ s s' t t' : Frame}
  (h : Translated c d regs moves) (hc : c.Lowerable entry)

include h hc

theorem leave (hm : s.Reflects c d regs moves E entry s') {last : InstId} (hrest : s.rest = [last])
    (hread : ∀ p ∈ blockCopies c.flow regs c.allPhis s.block, ∃ a, s'.read d p.2 = .ok a) :
    ∃ n t', s'.run d n = .ok (.next t') ∧ s.Leaves c d regs s' t' := by
  obtain ⟨front, last', ks, hs, hs', hspell⟩ := hm.rest
  obtain ⟨rfl, he⟩ : front = [] ∧ [last'] = [last] := by
    rw [hrest] at hs
    cases front with
    | nil => exact ⟨rfl, hs.symm⟩
    | cons x front => simp at hs
  obtain ⟨g, hg, hregs, saves, hseq, hsaves⟩ := h.arranged s.block
  obtain ⟨t', hrun, hblock, htail, hmem, hact, hreads, -⟩ := Frame.run_copies hseq hspell hs'
    (fun m hm => (h.moves_spec hc hm).1) fun p hp => hread p (ParallelCopy.mem_moves.1 hp).1
  have hn : ((blockCopies c.flow regs c.allPhis s.block).map (·.1)).Nodup :=
    blockCopies_nodup hregs hc.coherent.flow (PhiLowering.allPhis_nodup hc.coherent)
      (fun phi hphi inst hi => by
      have hisPhi := (mem_phis hc).1 hphi
      obtain ⟨home, xs, hxs, hmem⟩ := hc.coherent.home hi
      exact (hc.shape.phi_edges hxs hmem hisPhi hi).1) s.block
  -- What values are read in was there before the places that the order uses on the way.
  have heffect : ∀ {v o}, c.flow.origin? v = some o → t'.read d (inPlace regs v) =
      atOnce (blockCopies c.flow regs c.allPhis s.block) (s'.read d) (inPlace regs v) := by
    intro v o ho
    rw [hreads, hseq.effect (ParallelCopy.nodup_targets_moves hn), ParallelCopy.atOnce_moves hn]
    intro hsaved
    obtain ⟨p, hp, he⟩ := List.mem_map.1 hsaved
    obtain ⟨o', ho'⟩ := hregs.source hg ho
    rw [← he, (hsaves p hp).new] at ho'
    cases ho'
  refine ⟨_, t', hrun, hblock.trans hm.block, htail.trans (he.trans hrest.symm),
    hmem.trans hm.memory, hact.trans hm.activation, fun p hp => ?_, fun ho hnot => ?_⟩
  · obtain ⟨phi, hphi, w, inst, u, hw, -, -, rfl⟩ := PhiLowering.mem_blockCopies.1 hp
    obtain ⟨ty, ho, -⟩ := hc.coherent.flow.result_origin hw
    exact (heffect ho).trans (ParallelCopy.atOnce_of_mem hn hp _)
  · exact (heffect ho).trans (ParallelCopy.atOnce_of_not_mem hnot _)

theorem leave_reached (hf : c.Orderly E entry) (h₀ : c.AtStart entry s₀)
    (hargs : ∀ v ∈ c.flow.params, ∃ e, s₀.values v = some e) (hr : Reached c E s₀ s)
    (hm : s.Reflects c d regs moves E entry s') {last : InstId} (hrest : s.rest = [last]) :
    ∃ n t', s'.run d n = .ok (.next t') ∧ s.Leaves c d regs s' t' := by
  refine h.leave hc hm hrest fun p hp => ?_
  obtain ⟨phi, hphi, w, inst, v, -, hi, hedge, rfl⟩ := PhiLowering.mem_blockCopies.1 hp
  obtain ⟨hav, a, ha⟩ := source_read hc hf h₀ hargs hr hrest ((mem_phis hc).1 hphi) hi hedge
  obtain ⟨o, ho⟩ := hc.coherent.flow.operand hi (Inst.arg_of_edge hedge)
  exact ⟨a, hm.reads ho (fun _ => hav) ha⟩

theorem left_read (hm : s.Reflects c d regs moves E entry s')
    (hl : s.Leaves c d regs s' t') {v : ValueId} {o : ValueDef} {a : Datum}
    (ho : c.flow.origin? v = some o) (hav : regs.get? v ≠ none → c.Avail E entry s.block s.rest v)
    (ha : s.read c v = .ok a)
    (hnot : ∀ {phi home xs}, c.flow.isPhi phi = true → c.flow.result? phi = some v →
      c.insts home = .ok xs →
      phi ∈ xs → ¬ c.Leads s.block home) : t'.read d (inPlace regs v) = .ok a := by
  rw [hl.kept ho fun p hp he => ?_]
  · exact hm.reads ho hav ha
  · obtain ⟨phi, home, xs, hphi, hv, hxs, hmem, hleads⟩ := h.leads_of_copy hc ho hp he
    exact hnot hphi hv hxs hmem hleads

theorem enter_eq {b : BlockId} {ys : List InstId} (hys : d.insts b = .ok ys) (s : Frame)
    (i : InstId) :
    s.enter d i b = .ok { s with block := b, source? := some s.block, rest := ys } := by
  have htake : ys.takeWhile d.flow.isPhi = [] :=
    List.takeWhile_eq_nil_iff.2 fun _ => by simp [h.no_phi hc]
  have hdrop : ys.dropWhile d.flow.isPhi = ys :=
    List.dropWhile_eq_self_iff.2 fun _ => by simp [h.no_phi hc]
  exact Frame.enter_eq_ok.2 ⟨ys, [], hys, by rw [htake]; rfl, by rw [hdrop]; rfl⟩

/-- Where the one function entered a block and ran its phis, the other one has done the copies and
enters it. -/
theorem enter (hf : c.Orderly E entry) (hcrit : ∀ {a b}, c.Leads a b → ¬ (c.Forks a ∧ c.Merges b))
    (hs : s.Sits c E entry) (hm : s.Reflects c d regs moves E entry s')
    (hl : s.Leaves c d regs s' t') {last : InstId} (hrest : s.rest = [last]) {b : BlockId}
    {xs : List InstId} (hE : E s.block b) (hent : Frame.Entered c s t b xs)
    (hav : ∀ {phi inst v}, c.flow.isPhi phi = true → c.flow.inst? phi = some inst →
      (v, s.block) ∈ inst.edges →
      c.Avail E entry s.block s.rest v) (i : InstId) :
    ∃ t'', t'.enter d i b = .ok t'' ∧ t.Reflects c d regs moves E entry t'' := by
  obtain ⟨phis, body, end', rfl, hshape⟩ := hc.shape.shaped hent.insts
  obtain ⟨ks, hks, hspell⟩ := h.insts_eq hc hent.insts hshape
  have htake : (phis ++ (body ++ [end'])).takeWhile c.flow.isPhi = phis := hshape.takeWhile_eq
  have hdrop : (phis ++ (body ++ [end'])).dropWhile c.flow.isPhi = body ++ [end'] :=
    hshape.dropWhile_eq
  obtain ⟨pre, hpre⟩ := hs.suffix
  rw [hrest] at hpre
  refine ⟨_, h.enter_eq hc hks t' i, hent.block.symm,
    ⟨body, end', ks, hent.rest.trans hdrop, rfl, ?_⟩, ?_, hl.memory.trans hent.memory.symm,
    hl.activation.trans hent.activation.symm⟩
  · rw [hent.block]
    exact hspell
  intro v o a ho havail ha
  show t'.read d (inPlace regs v) = .ok a
  -- What is no phi of the block was there before, and no copy of the block writes to it.
  have hold : (∀ phi ∈ phis, c.flow.result? phi ≠ some v) →
      (regs.get? v ≠ none → c.Avail E entry s.block s.rest v) →
      t'.read d (inPlace regs v) = .ok a := by
    intro hnew hbefore
    refine h.left_read hc hm hl ho hbefore ?_ fun {phi home xs} hphi hv hxs hmem hleads => ?_
    · rw [← ha]
      exact (Frame.read_congr rfl (hent.kept v (htake.symm ▸ hnew))).symm
    · obtain ⟨w, r, hw, hr⟩ := h.given hc hphi
      cases hv.symm.trans hw
      obtain ⟨ty, hov, -⟩ := hc.coherent.flow.result_origin hv
      have hbehind := hbefore (by simp [hr]) hov
      obtain rfl := sole hc hcrit hf.edges hphi hxs hmem hbehind hleads (hf.edges hE)
      cases hent.insts.symm.trans hxs
      refine hnew phi ?_ hv
      exact htake ▸ hc.shape.mem_phis hxs hmem hphi
  cases hr : regs.get? v with
  | none =>
    refine hold (fun phi hphi hv => ?_) fun hn => absurd hr hn
    obtain ⟨w, r, hw, hr'⟩ := h.given hc (hshape.isPhi phi hphi)
    cases hv.symm.trans hw
    rw [hr] at hr'
    cases hr'
  | some r =>
    obtain ⟨phi, hall, hv⟩ := h.assigned.result hr
    have hphi := (mem_phis hc).1 hall
    obtain ⟨ty, hov, -⟩ := hc.coherent.flow.result_origin hv
    have hbehind := havail (by simp [hr]) hov
    rw [hent.block, hent.rest] at hbehind
    rcases (hf.behind_enter hs.connects hE hent.insts (Func.not_terminator_of_phi hphi)
      ((hf.terminator_iff hpre).2 rfl)).1 hbehind with hmem | ⟨hnot, hbehind, -⟩
    · obtain ⟨u, w, e, hin, hw, hu, hset⟩ := hent.merged phi hmem
      cases hv.symm.trans hw
      obtain ⟨inst, hi⟩ := DataFlow.inst_of_isPhi hphi
      have hedge := DataFlow.edge_of_incoming? hi hin
      obtain ⟨o', ho'⟩ := hc.coherent.flow.operand hi (Inst.arg_of_edge hedge)
      cases ((Frame.read_result hov).1 ha).symm.trans hset
      refine (hl.copied _ (PhiLowering.mem_blockCopies.2 ⟨phi, hall, v, inst, u, hv, hi, hedge,
        rfl⟩)).trans ?_
      exact hm.reads ho' (fun _ => hav hphi hi hedge) hu
    · refine hold (fun phi' hphi' hv' => hnot ?_) fun _ ty' i' ho' => ?_
      · rw [hc.coherent.flow.definer_eq hv' hov]
        exact List.mem_append_left _ hphi'
      · cases hov.symm.trans ho'
        rw [hrest]
        exact hbehind

omit h hc in
theorem split_rest (hm : s.Reflects c d regs moves E entry s') {i : InstId} {rest : List InstId}
    (hrest : s.rest = i :: rest) (hne : rest ≠ []) :
    ∃ front last ks, rest = front ++ [last] ∧ s'.rest = i :: (front ++ (ks ++ [last])) ∧
      Spelled d ks (moves s.block) := by
  obtain ⟨front, last, ks, hs, hs', hspell⟩ := hm.rest
  rw [hrest] at hs
  cases front with
  | nil => exact absurd (List.cons.inj hs).2 hne
  | cons j front =>
    obtain ⟨rfl, rfl⟩ := List.cons.inj hs
    exact ⟨front, last, ks, rfl, hs', hspell⟩

omit h in
theorem operand_read (hf : c.Orderly E entry) (hs : s.Sits c E entry)
    (hm : s.Reflects c d regs moves E entry s') {i : InstId} {rest : List InstId} {inst : Inst}
    (hrest : s.rest = i :: rest) (hi : c.flow.inst? i = some inst) {x : ValueId} {a : Datum}
    (hx : x ∈ inst.args) (ha : s.read c x = .ok a) : s'.read d (inPlace regs x) = .ok a := by
  obtain ⟨pre, hpre⟩ := hs.suffix
  rw [hrest] at hpre
  obtain ⟨o, ho⟩ := hc.coherent.flow.operand hi hx
  have hphi : inst.op.isPhi = false := by
    rw [← DataFlow.isPhi_of_inst hi]
    exact hs.plain i (by rw [hrest]; exact List.mem_cons_self)
  refine hm.reads ho (fun _ => ?_) ha
  rw [hrest]
  exact hf.body hs.connects hpre hi hphi hx

theorem avail_before (hs : s.Sits c E entry) {i : InstId} {rest : List InstId}
    (hrest : s.rest = i :: rest) {v : ValueId}
    (hav : regs.get? v ≠ none → c.Avail E entry s.block rest v) :
    regs.get? v ≠ none → c.Avail E entry s.block s.rest v := by
  intro hreg ty j ho
  obtain ⟨pre, hpre⟩ := hs.suffix
  rw [hrest] at hpre ⊢
  rcases (hc.behind_cons hpre hs.connects).1 (hav hreg ho) with rfl | hbehind
  · have hplain := hs.plain j (by rw [hrest]; exact List.mem_cons_self)
    exact absurd (h.get?_result hc (hc.coherent.flow.origin_result ho) hplain) hreg
  · exact hbehind

theorem reflects_set (hs : s.Sits c E entry)
    (hm : s.Reflects c d regs moves E entry s') {i : InstId} {rest rest' : List InstId}
    (hrest : s.rest = i :: rest) {v : ValueId} (hv : c.flow.result? i = some v) (e : Datum)
    (hleft : ∃ front last ks, rest = front ++ [last] ∧ rest' = front ++ (ks ++ [last]) ∧
      Spelled d ks (moves s.block)) :
    ({ s with rest }.set v e : Frame).Reflects c d regs moves E entry
    ({ s' with rest := rest' }.set v e) where
  block := hm.block
  rest := hleft
  memory := hm.memory
  activation := hm.activation
  reads {w o a} ho hav ha := by
    have hplain := hs.plain i (by rw [hrest]; exact List.mem_cons_self)
    obtain ⟨ty, hov, -⟩ := hc.coherent.flow.result_origin hv
    have hhere : inPlace regs v = v := by rw [inPlace, h.get?_result hc hv hplain, Option.getD_none]
    by_cases hwv : w = v
    · subst hwv
      rw [Frame.read_set_result hov] at ha
      rw [hhere, Frame.read_set_result (h.result_origin hc hplain hv hov)]
      exact ha
    · rw [Frame.read_set_ne hwv] at ha
      rw [Frame.read_set_ne fun he => hwv (h.inPlace_inj hov ho (he.trans hhere.symm))]
      exact hm.reads ho (h.avail_before hc hs hrest hav) ha

theorem reflects_store (hs : s.Sits c E entry)
    (hm : s.Reflects c d regs moves E entry s') {i : InstId} {rest rest' : List InstId}
    (hrest : s.rest = i :: rest) (cell : Cell) (e : Datum)
    (hleft : ∃ front last ks, rest = front ++ [last] ∧ rest' = front ++ (ks ++ [last]) ∧
      Spelled d ks (moves s.block)) :
    ({ s with rest }.store cell e : Frame).Reflects c d regs moves E entry
    ({ s' with rest := rest' }.store cell e) where
  block := hm.block
  rest := hleft
  activation := hm.activation
  reads ho hav ha := hm.reads ho (h.avail_before hc hs hrest hav) ha
  memory := by
    funext other
    show (if other = cell then e else s'.memory other) = if other = cell then e else s.memory other
    rw [hm.memory]

theorem goes (hf : c.Orderly E entry) (hcrit : ∀ {a b}, c.Leads a b → ¬ (c.Forks a ∧ c.Merges b))
    (hs : s.Sits c E entry) (hm : s.Reflects c d regs moves E entry s')
    (hl : s.Leaves c d regs s' t') {last : InstId} (hrest : s.rest = [last]) {inst : Inst}
    (hi : c.flow.inst? last = some inst) {b : BlockId} (hg : Frame.Goes c s inst b) :
    Frame.Goes d t' (inst.mapArgs (inPlace regs)) b := by
  obtain ⟨pre, hpre⟩ := hs.suffix
  rw [hrest] at hpre
  refine hg.carry (R := fun v v' => v' = inPlace regs v) (Inst.Matches.of_mapArgs fun _ _ => rfl) ?_
  rintro x _ a hx rfl ha
  obtain ⟨o, ho⟩ := hc.coherent.flow.operand hi hx
  have hterm := hf.goes_terminator hi hg
  have hop : inst.op.isTerminator = true := (DataFlow.isTerminator_of_inst hi).symm.trans hterm
  have hav : c.Avail E entry s.block s.rest x :=
    hrest.symm ▸ hf.body hs.connects hpre hi (Opcode.not_phi_of_terminator hop) hx
  refine h.left_read hc hm hl ho (fun _ => hav) ha fun {phi home xs} hphi hv hxs hmem hleads => ?_
  obtain ⟨ty, hov, -⟩ := hc.coherent.flow.result_origin hv
  -- The branch goes to the block of the phi either way, so it does not ask for the phi.
  have hsole : ∀ {b}, b ∈ inst.blocks → b = home := fun hb =>
    sole hc hcrit hf.edges hphi hxs hmem (hav hov) hleads ((Func.leads_last_iff hpre hi hop).2 hb)
  cases inst with
  | branch op y t e =>
    obtain rfl := List.mem_singleton.1 hx
    have ht : t = home := hsole (by simp [Inst.blocks])
    have he : e = home := hsole (by simp [Inst.blocks])
    subst ht
    subst he
    exact hc.apart hi hxs hmem hphi hv
  | jump op t => cases hx
  | _ => cases hg

theorem step (hf : c.Orderly E entry) (hcrit : ∀ {a b}, c.Leads a b → ¬ (c.Forks a ∧ c.Merges b))
    (h₀ : c.AtStart entry s₀) (hargs : ∀ v ∈ c.flow.params, ∃ e, s₀.values v = some e)
    (hr : Reached c E s₀ s) (hm : s.Reflects c d regs moves E entry s') (hstep : c.Steps E s t) :
    ∃ n t', s'.run d n = .ok (.next t') ∧ t.Reflects c d regs moves E entry t' := by
  have hs := hf.sits_reached (hf.sits_atStart h₀) hr
  cases hstep with
  | @yields i rest inst v e hrest hne hi hv hg =>
    obtain ⟨front, last, ks, hfront, hrest', hspell⟩ := split_rest hm hrest hne
    have hplain := hs.plain i (by rw [hrest]; exact List.mem_cons_self)
    have hresult := h.result? hc hi hplain
    have hgives : Frame.Gives d s' i (inst.mapArgs (inPlace regs)) e := by
      refine hg.carry (R := fun v v' => v' = inPlace regs v)
        (Inst.Matches.of_mapArgs fun _ _ => rfl) ?_ (Frame.resultWidth?_congr hc.coherent.flow
        hresult fun hw ho => h.result_origin hc hplain hw ho) hm.memory hm.activation
      rintro x _ a hx rfl ha
      exact operand_read hc hf hs hm hrest hi hx ha
    have hmove : s'.step d = .ok (.next _) :=
      Frame.step_next_iff.2 (.yields hrest' (h.kept hc hi hplain) (hresult.trans hv) hgives)
    exact ⟨1, _, by rw [Frame.run, hmove]; rfl, h.reflects_set hc hs hm hrest hv e ⟨front, last, ks,
      hfront, rfl, hspell⟩⟩
  | @stores i rest x y cell e hrest hne hi hx hy =>
    obtain ⟨front, last, ks, hfront, hrest', hspell⟩ := split_rest hm hrest hne
    have hplain := hs.plain i (by rw [hrest]; exact List.mem_cons_self)
    have hmove : s'.step d = .ok (.next _) :=
      Frame.step_next_iff.2 (.stores hrest' (h.kept hc hi hplain)
        (operand_read hc hf hs hm hrest hi List.mem_cons_self hx)
      (operand_read hc hf hs hm hrest hi (List.mem_cons_of_mem _ List.mem_cons_self) hy))
    exact ⟨1, _, by rw [Frame.run, hmove]; rfl, h.reflects_store hc hs hm hrest cell e ⟨front, last,
      ks, hfront, rfl, hspell⟩⟩
  | @enters last inst b xs t hrest hi hg hE hent =>
    have hplain := hs.plain last (by rw [hrest]; exact List.mem_cons_self)
    obtain ⟨n, t', hrun, hl⟩ := h.leave_reached hc hf h₀ hargs hr hm hrest
    obtain ⟨t'', henter, hm'⟩ := h.enter hc hf hcrit hs hm hl hrest hE hent
      (fun hphi hpi hedge => (source_read hc hf h₀ hargs hr hrest hphi hpi hedge).1) last
    have hmove : t'.step d = .ok (.next t'') := Frame.step_next_iff.2
      (.enters (hl.rest.trans hrest) (h.kept hc hi hplain)
      (h.goes hc hf hcrit hs hm hl hrest hi hg) henter)
    exact ⟨n + 1, t'', by rw [Frame.run_add hrun, Frame.run, hmove]; rfl, hm'⟩

theorem done (hf : c.Orderly E entry) (h₀ : c.AtStart entry s₀)
    (hargs : ∀ v ∈ c.flow.params, ∃ e, s₀.values v = some e) (hr : Reached c E s₀ s)
    (hm : s.Reflects c d regs moves E entry s') {e : Datum}
    (hdone : s.step c = .ok (.done (some e))) : ∃ n, s'.run d n = .ok (.done (some e)) := by
  have hs := hf.sits_reached (hf.sits_atStart h₀) hr
  obtain ⟨i, rest, x, hrest, hi, hx, hdef⟩ := Frame.step_done_iff.1 hdone
  obtain ⟨pre, hpre⟩ := hs.suffix
  rw [hrest] at hpre
  obtain rfl : rest = [] :=
    (hf.terminator_iff hpre).1 (by rw [DataFlow.isTerminator_of_inst hi]; rfl)
  obtain ⟨n, t', hrun, hl⟩ := h.leave_reached hc hf h₀ hargs hr hm hrest
  obtain ⟨o, ho⟩ := hc.coherent.flow.operand hi List.mem_cons_self
  have hread : t'.read d (inPlace regs x) = .ok e := by
    refine h.left_read hc hm hl ho (fun _ => ?_) hx fun {_ home _} _ _ _ _ hleads => ?_
    · exact hrest.symm ▸ hf.body hs.connects hpre hi rfl List.mem_cons_self
    · cases (Func.leads_last_iff hpre hi rfl).1 hleads
  have hplain := hs.plain i (by rw [hrest]; exact List.mem_cons_self)
  have hend : t'.step d = .ok (.done (some e)) :=
    Frame.step_done_iff.2 ⟨i, [], _, hl.rest.trans hrest, h.kept hc hi hplain, hread, hdef⟩
  exact ⟨n + 1, by rw [Frame.run_add hrun, Frame.run, hend]⟩

theorem run (hf : c.Orderly E entry) (hcrit : ∀ {a b}, c.Leads a b → ¬ (c.Forks a ∧ c.Merges b))
    (h₀ : c.AtStart entry s₀) (hargs : ∀ v ∈ c.flow.params, ∃ e, s₀.values v = some e)
    (hr : Reached c E s₀ s) (hm : s.Reflects c d regs moves E entry s') {e : Datum}
    (ha : Along c E s e) :
    ∃ n, s'.run d n = .ok (.done (some e)) := by
  induction ha generalizing s' with
  | done hdone => exact h.done hc hf h₀ hargs hr hm hdone
  | next hstep hE _ ih =>
    have hsteps := hf.steps (hf.sits_reached (hf.sits_atStart h₀) hr) hstep hE
    obtain ⟨n, t', hrun, hm'⟩ := h.step hc hf hcrit h₀ hargs hr hm hsteps
    obtain ⟨k, hk⟩ := ih (hr.next hstep hE) hm'
    exact ⟨n + k, by rw [Frame.run_add hrun]; exact hk⟩

theorem reflects_start (hf : c.Orderly E entry) {args : List Datum}
    (hstart : Frame.start c args = .ok s₀) :
    ∃ s₀', Frame.start d args = .ok s₀' ∧ s₀.Reflects c d regs moves E entry s₀' := by
  have h₀ := hf.atStart hstart
  obtain ⟨hsits, hblock, hact, hvalues, hmemory⟩ := hf.sits_start (E := E) hstart
  obtain ⟨phis, body, last, hxs, hshape⟩ : ∃ phis body last, s₀.rest = phis ++ (body ++ [last]) ∧
      c.Shaped entry phis body last := by
    obtain ⟨phis, body, last, hxs, hshape⟩ := hc.shape.shaped h₀.insts
    exact ⟨phis, body, last, hxs, hshape⟩
  have hinsts := hxs ▸ h₀.insts
  obtain rfl : phis = [] := List.eq_nil_iff_forall_not_mem.2 fun i hi => by
    have hbare := hc.bare hinsts i (List.mem_append_left _ hi)
    rw [hshape.isPhi i hi] at hbare
    cases hbare
  obtain ⟨ks, hks, hspell⟩ := h.insts_eq hc hinsts hshape
  refine ⟨_, Frame.start_eq (h.lowered.alike.starts hc.starts) hks args, hblock.symm,
    ⟨body, last, ks, hxs, rfl, hblock.symm ▸ hspell⟩, fun {v o a} ho hav ha => ?_,
    hmemory.symm, hact.symm⟩
  rcases h.inPlace_cases ho with ⟨r, hr, -, -⟩ | ⟨-, he, hv⟩
  · obtain ⟨phi, -, hphi⟩ := h.assigned.result hr
    obtain ⟨ty, hov, -⟩ := hc.coherent.flow.result_origin hphi
    exact absurd (hav (by simp [hr]) hov) (hf.not_behind_start h₀)
  · rw [he, ← ha]
    refine Frame.read_congr (hv.trans ho.symm) ?_
    rw [hvalues]
    unfold Func.params
    rw [h.lowered.params]

theorem returns (hcrit : ∀ {a b}, c.Leads a b → ¬ (c.Forks a ∧ c.Merges b))
    {args : List Datum} {e : Datum} (hargs : c.flow.params.length ≤ args.length)
    (hr : c.Returns args e) : d.Returns args e := by
  obtain ⟨E, hf, s₀, hstart, ha⟩ := hr.serves hc.regular hc.dominated
  obtain ⟨-, -, -, hvalues, -⟩ := hf.sits_start (E := E) hstart
  have hset : ∀ v ∈ c.flow.params, ∃ e, s₀.values v = some e := by
    intro v hv
    obtain ⟨n, hlt, hn⟩ := List.getElem_of_mem hv
    have hidx : c.params.idxOf? v = some n :=
      (idxOf?_eq_some hc.coherent.flow.params_nodup).2 (List.getElem?_eq_some_iff.2 ⟨hlt, hn⟩)
    refine ⟨args[n], ?_⟩
    rw [hvalues]
    dsimp only
    rw [hidx]
    exact List.getElem?_eq_getElem (lt_of_lt_of_le hlt hargs)
  obtain ⟨s₀', hstart', hm⟩ := h.reflects_start hc hf hstart
  obtain ⟨n, hn⟩ := h.run hc hf hcrit (hf.atStart hstart) hset .start hm ha
  exact ⟨s₀', n, hstart', hn⟩

end PhiLowering.Translated

namespace Func

/-- Along edges from blocks that control may come to, phis take no results of stores and
terminators, which are never set, and no results of instructions that control never comes to. -/
def PhisFed (f : Func) : Prop :=
  ∀ ⦃phi inst v p ty i⦄, f.flow.inst? phi = some inst → inst.op.isPhi = true → (v, p) ∈ inst.edges →
    f.Reachable p →
    f.flow.origin? v = some (.result ty i) → f.flow.op? i ≠ some .store ∧
    f.flow.isTerminator i = false ∧
      ∃ home xs, f.insts home = .ok xs ∧ i ∈ xs ∧ f.Reachable home

/-- No branch that leads to one block either way tests a phi of that block. -/
def BranchesApart (f : Func) : Prop :=
  ∀ ⦃i op x b xs phi⦄, f.flow.inst? i = some (.branch op x b b) → f.insts b = .ok xs → phi ∈ xs →
    f.flow.isPhi phi = true → f.flow.result? phi ≠ some x

def takesComputed (f : Func) : Bool :=
  f.flow.insts.toList.all fun e => !e.2.inst.op.isPhi || e.2.inst.args.all f.flow.isComputed

theorem phisFed_of_takesComputed {f : Func} (hc : f.Coherent)
    (hreached : ∀ b ∈ f.blocks, f.Reachable b) (h : f.takesComputed = true) : f.PhisFed := by
  intro phi inst v p ty i hphi hop he _ ho
  obtain ⟨e, hget, rfl⟩ := DataFlow.inst?_eq_some.1 hphi
  have hargs := List.all_eq_true.1 h (phi, e) (Table.mem_toList.2 hget)
  rw [hop, Bool.not_true, Bool.false_or] at hargs
  obtain ⟨jnst, hj⟩ := DataFlow.hasInst_of_result (hc.flow.origin_result ho)
  obtain ⟨hstore, hterm⟩ :=
    DataFlow.isComputed_spec (List.all_eq_true.1 hargs v (Inst.arg_of_edge he)) ho hj
  obtain ⟨home, xs, hxs, hmem⟩ := hc.home hj
  refine ⟨?_, (DataFlow.isTerminator_of_inst hj).trans hterm, home, xs, hxs, hmem,
    hreached home (Layout.mem_blocks_iff.2 ⟨xs, hxs⟩)⟩
  unfold DataFlow.op?
  rw [hj]
  simpa using hstore

def testsApart (f : Func) : Bool :=
  f.flow.insts.toList.all fun e => match e.2.inst with
    | .branch _ x t u => t ≠ u || (f.insts t).toOption.all fun xs =>
        xs.all fun phi => !f.flow.isPhi phi || f.flow.result? phi ≠ some x
    | _ => true

theorem branchesApart_of_testsApart {f : Func} (h : f.testsApart = true) : f.BranchesApart := by
  intro i op x b xs phi hi hxs hmem hphi hv
  obtain ⟨e, hget, he⟩ := DataFlow.inst?_eq_some.1 hi
  have hhere := List.all_eq_true.1 h (i, e) (Table.mem_toList.2 hget)
  simp only [he, ne_eq, not_true, decide_false, Bool.false_or, hxs, Except.toOption,
    Option.all_some] at hhere
  have hfalse := List.all_eq_true.1 hhere phi hmem
  simp [hphi, hv] at hfalse

theorem Clean.lowerable {f : Func} {entry : BlockId} (h : f.Clean entry) (hdeclared : f.Declared)
    (hsource : f.predecessors entry = [])
    (hphis : ∀ i, f.flow.isPhi i = true → ∃ v, f.flow.result? i = some v) (hfed : f.PhisFed)
    (hapart : f.BranchesApart) : f.Lowerable entry where
  toRooted := by
    refine h.regular.rooted h.valid hsource fun c phis _ hp i hi => ?_
    obtain ⟨xs, -, he⟩ := bind_eq_ok.1 hp
    cases he
    exact hphis i (List.all_eq_true.1 List.all_takeWhile i hi)
  noCopies := h.regular.noCopies
  yields := hphis _
  apart := fun hi hxs hphi hisPhi => hapart hi hxs hphi hisPhi
  computed {b xs u inst v p} hxs hu hi hop he hp := by
    refine ⟨fun {ty} => h.noRegs v ty, hdeclared.listed, fun {ty i} ho => ?_⟩
    obtain ⟨hstore, hterm, home, ys, hhome, hmem, hreach⟩ :=
      hfed hi hop he ((reachable_iff h.starts).2 hp) ho
    exact ⟨hstore, hterm, home, ys, hhome, hmem, (reachable_iff h.starts).1 hreach⟩

end Func

namespace PhiLowering

variable {b : Builder} {entry : BlockId}

theorem run_lowers (h : b.func.Lowerable entry) : (run b).Yields fun r => r.2.func.Rooted entry ∧
    ∀ {args e}, b.func.params.length ≤ args.length → b.func.Returns args e →
      r.2.func.Returns args e := by
  refine (run_translates h.coherent h.shape (Func.isEmpty_of_entry h.starts) (fun i => h.yields)
    (P := fun g => g.Lowerable entry ∧ g.params = b.func.params ∧
      ∀ {args e}, b.func.Returns args e → g.Returns args e) ⟨h, rfl, id⟩ ?_).mono ?_
  · rintro g g' source target split j ⟨hg, hparams, hreturns⟩ hl hsplit
    exact ⟨hsplit.lowerable hg hl, hsplit.params.trans hparams,
      fun hr => hsplit.returns hg.regular hg.dominated hl (hreturns hr)⟩
  · rintro r ⟨c, es, via, regs, moves, ⟨hc, hparams, hreturns⟩, hroute, hes, htrans⟩
    refine ⟨htrans.rooted hc, fun {args e} hargs hr => ?_⟩
    refine htrans.returns hc ?_ (le_of_eq_of_le (congrArg List.length hparams) hargs) (hreturns hr)
    exact hroute.not_critical h.shape.closed fun u v hl hf hm => (hes u v).2 ⟨hl, hf, hm⟩

/-- Lowering preserves what functions return on an argument for each parameter, if their phis yield
values and take only what runs compute, and no branch to a single block tests a phi of it. -/
theorem run_preserves (hb : b.func.Clean entry) (hdeclared : b.func.Declared)
    (hsource : b.func.predecessors entry = [])
    (hphis : ∀ i, b.flow.isPhi i = true → ∃ v, b.flow.result? i = some v) (hfed : b.func.PhisFed)
    (hapart : b.func.BranchesApart) :
    ∃ modified b', (run b).outcome = .ok (modified, b') ∧ b'.func.errors = .ok [] ∧
      ∀ args e, args.length = b.func.params.length → b.func.Returns args e →
        b'.func.Returns args e := by
  obtain ⟨⟨modified, b'⟩, hrun, hrooted, hreturns⟩ :=
    (run_lowers (hb.lowerable hdeclared hsource hphis hfed hapart)).outcome
  exact ⟨modified, b', hrun, hrooted.verified, fun args e hargs => hreturns hargs.ge⟩

/-- Two values that are swapped on every turn of a loop, until the first one is 2. -/
def swapLoop : Checked Builder :=
  Func.build "swap" ⟨[], some (.int 32)⟩
    [.block (some "entry"), .block (some "loop"), .block (some "exit"), .const (.int32 1),
    .const (.int32 2),
      .goTo (.append ⟨0⟩), .insert (.jump .br ⟨1⟩) .void,
      .goTo (.append ⟨1⟩), .insert (.phi .phi [⟨0⟩] [⟨0⟩]) (.int 32),
      .insert (.phi .phi [⟨1⟩] [⟨0⟩]) (.int 32), .edge ⟨1⟩ ⟨3⟩ ⟨1⟩, .edge ⟨2⟩ ⟨2⟩ ⟨1⟩,
      .insert (.binary .eq ⟨2⟩ ⟨1⟩) (.int 1), .insert (.branch .brCond ⟨4⟩ ⟨2⟩ ⟨1⟩) .void,
      .goTo (.append ⟨2⟩), .insert (.unary .retValue ⟨3⟩) .void]

theorem swapLoop_preserved :
    ∃ b modified b', swapLoop = .ok b ∧ (run b).outcome = .ok (modified, b') ∧ b'.func.errors = .ok
      [] ∧ b'.func.Returns [] (.word (.int32 1)) := by
  obtain ⟨b, hb, h⟩ := exists_of_any (x := swapLoop) (p := fun b => b.func.isSelfContained &&
    (b.func.entry.toOption.any fun entry => (b.func.predecessors entry).isEmpty) &&
    b.func.phisYield && b.func.takesComputed && b.func.testsApart && b.func.params = [] &&
    b.func.result? [] 6 = some (.word (.int32 1))) (by decide +kernel)
  simp only [Bool.and_eq_true, decide_eq_true_eq] at h
  obtain ⟨⟨⟨⟨⟨⟨hself, hpreds⟩, hyield⟩, hfed⟩, hapart⟩, hparams⟩, hret⟩ := h
  have hc := Func.build_coherent (by decide) hb
  obtain ⟨entry, hclean, hreached, -, -⟩ := Func.clean_of_isSelfContained hc hself
  obtain ⟨entry', hentry, hpreds⟩ := exists_of_any hpreds
  cases hclean.starts.symm.trans hentry
  obtain ⟨modified, b', hrun, herrors, hkeep⟩ :=
    run_preserves hclean (Func.build_declared (by decide) hb) (List.isEmpty_iff.1 hpreds) (fun _ =>
      result_of_phi hc hyield) (Func.phisFed_of_takesComputed hc hreached hfed)
    (Func.branchesApart_of_testsApart hapart)
  exact ⟨b, modified, b', hb, hrun, herrors,
    hkeep [] _ (congrArg List.length hparams.symm) (Func.returns_of_result? hret)⟩

/-- A block that leads back to the head of a loop either way, and tests a phi of the head. -/
def testsHead : Checked Builder :=
  Func.build "f" ⟨[], some (.int 32)⟩
    [.block (some "entry"), .block (some "head"), .block (some "back"), .block (some "exit"),
    .const (.ofBool true),
      .const (.ofBool false), .undef (.int 1), .const (.int32 7),
      .goTo (.append ⟨0⟩), .insert (.jump .br ⟨1⟩) .void,
      .goTo (.append ⟨1⟩), .insert (.phi .phi [⟨0⟩] [⟨0⟩]) (.int 1),
      .insert (.phi .phi [⟨0⟩] [⟨0⟩]) (.int 1), .edge ⟨1⟩ ⟨2⟩ ⟨2⟩, .edge ⟨2⟩ ⟨1⟩ ⟨2⟩,
      .insert (.branch .brCond ⟨5⟩ ⟨2⟩ ⟨3⟩) .void, .goTo (.append ⟨2⟩),
      .insert (.branch .brCond ⟨4⟩ ⟨1⟩ ⟨1⟩) .void, .goTo (.append ⟨3⟩),
      .insert (.unary .retValue ⟨3⟩) .void]

/-- The function returns, but once its phis are lowered the block tests what it has just copied. -/
theorem testsHead_not_preserved : ∃ b entry modified b', testsHead = .ok b ∧ b.func.Clean entry ∧
    b.func.predecessors entry = [] ∧
    (∀ i op callee vs, b.flow.inst? i ≠ some (.call op callee vs)) ∧
    (∀ i, b.flow.isPhi i = true → ∃ v, b.flow.result? i = some v) ∧ b.func.PhisFed ∧ b.func.Returns
      [] (.word (.int32 7)) ∧ (run b).outcome = .ok (modified, b') ∧
      ∀ d, ¬ b'.func.Returns [] d := by
  obtain ⟨b, hb, h⟩ := exists_of_any (x := testsHead) (p := fun b => b.func.isSelfContained &&
    (b.func.entry.toOption.any fun entry => (b.func.predecessors entry).isEmpty) &&
    b.func.phisYield && b.func.takesComputed && b.func.result? [] 6 = some (.word (.int32 7)) &&
    (run b).outcome.toOption.any fun r => r.2.func.stuck? [] 8 =
    some (.undefinedUse ⟨4⟩)) (by decide +kernel)
  simp only [Bool.and_eq_true, decide_eq_true_eq] at h
  obtain ⟨⟨⟨⟨⟨hself, hpreds⟩, hyield⟩, hfed⟩, hret⟩, hrun⟩ := h
  have hc := Func.build_coherent (by decide) hb
  obtain ⟨entry, hclean, hreached, -, hcalls⟩ := Func.clean_of_isSelfContained hc hself
  obtain ⟨entry', hentry, hpreds⟩ := exists_of_any hpreds
  cases hclean.starts.symm.trans hentry
  obtain ⟨⟨modified, b'⟩, hrun, hstuck⟩ := exists_of_any hrun
  exact ⟨b, entry, modified, b', hb, hclean, List.isEmpty_iff.1 hpreds, hcalls,
    fun _ => result_of_phi hc hyield, Func.phisFed_of_takesComputed hc hreached hfed,
    Func.returns_of_result? hret, hrun, Func.not_returns_of_stuck? (of_decide_eq_true hstuck)⟩

end PhiLowering

end MiddleEnd
