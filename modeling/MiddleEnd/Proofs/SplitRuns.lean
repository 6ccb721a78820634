import MiddleEnd.Proofs.EdgeSplitting
import MiddleEnd.Proofs.Preheaders

/-!
# Running through split edges

A function one of whose edges is led through a block of its own is verified if the function was, and
it returns what that one returned: where control took the edge it now passes the new block, and the
phis at the end of the edge take from there what they took.
-/

namespace MiddleEnd

open DataFlow (reroute)

namespace Func

/-- A run has the value wherever it is there: it is no register, and a result only of an instruction
that computes one and that control may come to. -/
structure Computed (f : Func) (entry : BlockId) (v : ValueId) : Prop where
  plain : ∀ {ty}, f.flow.origin? v ≠ some (.reg ty)
  listed : ∀ {ty p}, f.flow.origin? v = some (.param ty p) → v ∈ f.flow.params
  result : ∀ {ty i}, f.flow.origin? v = some (.result ty i) → f.flow.op? i ≠ some .store ∧
    f.flow.isTerminator i = false ∧ ∃ home xs, f.insts home = .ok xs ∧ i ∈ xs ∧
    Connects f.Leads entry home

/-- What lowering of phis starts from: all phis yield values, what they take is computed, and a
branch that leads to one block only does not ask for a phi of that block. -/
structure Lowerable (f : Func) (entry : BlockId) : Prop extends f.Rooted entry where
  noCopies : ∀ {i x y}, f.flow.inst? i ≠ some (.binary .copy x y)
  yields : ∀ {i}, f.flow.isPhi i = true → ∃ r, f.flow.result? i = some r
  computed : ∀ {b xs u inst v p}, f.insts b = .ok xs → u ∈ xs → f.flow.inst? u = some inst →
    inst.op.isPhi = true →
    (v, p) ∈ inst.edges → Connects f.Leads entry p → f.Computed entry v
  apart : ∀ {i op x b xs phi}, f.flow.inst? i = some (.branch op x b b) →
    f.insts b = .ok xs → phi ∈ xs →
    f.flow.isPhi phi = true → f.flow.result? phi ≠ some x

theorem Lowerable.regular {f : Func} {entry : BlockId} (h : f.Lowerable entry) : f.Regular entry :=
  ⟨h.toFormed, h.noCopies⟩

namespace Split

variable {f f' : Func} {entry source target split a b : BlockId} {i j : InstId} {inst : Inst}
  {xs : List InstId} (h : f.Split f' source target split j)

omit h in
theorem splitInst_args : (f.splitInst source target split i inst).args = inst.args := by
  obtain ⟨σ, hσ, -⟩ := splitInst_eq f source target split i inst
  rw [hσ, Inst.args_mapBlocks]

omit h in
theorem splitInst_op : (f.splitInst source target split i inst).op = inst.op := by
  obtain ⟨σ, hσ, -⟩ := splitInst_eq f source target split i inst
  rw [hσ, Inst.op_mapBlocks]

omit h in
theorem splitInst_plain (hphi : inst.op.isPhi = false) (hterm : inst.op.isTerminator = false) :
    f.splitInst source target split i inst = inst := by
  unfold splitInst
  rw [if_neg (by simp [hterm]), if_neg (by simp [hphi])]

omit h in
theorem splitInst_terminator (hterm : inst.op.isTerminator = true)
    (hb : f.layout.blockOf? i = some b) :
    f.splitInst source target split i inst = if b = source then inst.mapBlocks
      (reroute target split) else inst := by
  have hphi := Opcode.not_phi_of_terminator hterm
  unfold splitInst
  rw [hb]
  by_cases hbs : b = source
  · rw [if_pos hbs, if_pos ⟨hterm, congrArg some hbs⟩]
  · rw [if_neg hbs, if_neg fun hn => hbs (Option.some.inj hn.2), if_neg (by simp [hphi])]

include h

theorem detour (hf : f.Formed entry) (hl : f.Leads source target) :
    Detour f.Leads f'.Leads entry (· = source) target split where
  edge_iff {a b} := by
    rw [h.leads_iff hf.coherent hf.shape hl]
    constructor
    · rintro (hold | hin | hout)
      · exact .inr (.inr hold)
      · exact .inr (.inl hin)
      · exact .inl hout
    · rintro (hout | hin | hold)
      · exact .inr (.inr hout)
      · exact .inr (.inl hin)
      · exact .inl hold
  enters := by
    rintro _ rfl
    exact hl
  source_ne hab := h.ne_split hab.mem_blocks
  target_ne hab := h.ne_split (hf.shape.closed _ hab.mem_blocks _ hab)
  root_ne := h.ne_split (Func.entry_mem hf.starts)
  header_ne := h.ne_split (hf.shape.closed _ hl.mem_blocks _ hl)

theorem insts_cases (hxs : f'.insts b = .ok xs) :
    (b = split ∧ xs = [j]) ∨ (b ≠ split ∧ f.insts b = .ok xs) := by
  by_cases hb : b = split
  · subst hb
    rw [h.here] at hxs
    cases hxs
    exact .inl ⟨rfl, rfl⟩
  · rw [h.others hb] at hxs
    exact .inr ⟨hb, hxs⟩

theorem op?_eq (hi : f.flow.inst? i = some inst) : f'.flow.op? i = f.flow.op? i := by
  unfold DataFlow.op?
  rw [hi, h.inst? hi, Option.map_some, Option.map_some, splitInst_op]

theorem not_phi_jump : f'.flow.isPhi j = false := DataFlow.isPhi_of_inst h.jump

theorem formed (hf : f.Formed entry) (hl : f.Leads source target) : f'.Formed entry where
  coherent := h.coherent
  starts := h.first hf.starts
  shape := h.wellShaped hf.coherent hf.shape hl
  forms {i inst'} hi := by
    rcases h.inst_cases hf.coherent hi with ⟨-, rfl⟩ | ⟨inst, hinst, rfl⟩
    · rfl
    · obtain ⟨σ, hσ, -⟩ := splitInst_eq f source target split i inst
      have hform := hf.forms hinst
      rw [hσ]
      cases inst <;> exact hform
  bare {xs} hxs i hi := by
    rcases h.insts_cases hxs with ⟨he, -⟩ | ⟨-, hxs⟩
    · exact absurd he (h.ne_split (Func.entry_mem hf.starts))
    · obtain ⟨inst, hinst⟩ := hf.coherent.inst_of_mem hxs hi
      rw [(h.kinds hinst).1]
      exact hf.bare hxs i hi

theorem yieldTy_eq (hc : f.Coherent) (hinst : f.flow.inst? i = some inst) :
    f'.yieldTy i = f.yieldTy i :=
  yieldTy_congr hc.flow (h.result? hinst) fun _ ho => h.origin? ho

theorem origin_arg (hc : f.Coherent) {v : ValueId} (hinst : f.flow.inst? i = some inst)
    (hv : v ∈ inst.args) :
    f'.flow.origin? v = f.flow.origin? v := by
  obtain ⟨o, ho⟩ := hc.flow.operand hinst hv
  rw [ho, h.origin? ho]

theorem typed (hc : f.Coherent) (ht : f.Typed) : f'.Typed := by
  intro i inst' hi
  rcases h.inst_cases hc hi with ⟨-, rfl⟩ | ⟨inst, hinst, rfl⟩
  · trivial
  · have hkept : f.Rule f.tyOf (f.yieldTy i) (f.splitInst source target split i inst) := by
      obtain ⟨σ, hσ, -⟩ := splitInst_eq f source target split i inst
      have hrule := ht hinst
      rw [hσ]
      cases inst <;> exact hrule
    rw [h.yieldTy_eq hc hinst]
    refine (Inst.Matches.of_args (R := Eq) fun _ _ => rfl).rule ?_ h.sig h.imports ?_ hkept
    · rintro v _ hv rfl
      rw [splitInst_args] at hv
      unfold tyOf
      rw [h.origin_arg hc hinst hv]
    · rintro - v _ hv rfl hreg
      rw [splitInst_args] at hv
      rwa [h.origin_arg hc hinst hv]

section Dominance

variable (hf : f.Formed entry) (hl : f.Leads source target)

include hf hl

theorem behind (hb : b ≠ split) {rest : List InstId} (hi : f.Behind f.Leads entry b rest i) :
    f'.Behind f'.Leads entry b rest i := by
  obtain ⟨home, zs, hzs, hmem, hg, hout⟩ := hi
  have hhome : home ≠ split := h.ne_split (Layout.mem_blocks_iff.2 ⟨zs, hzs⟩)
  exact ⟨home, zs, h.insts_eq hzs, hmem, ((h.detour hf hl).guards_iff hhome hb).2 hg, hout⟩

theorem stranded {v : ValueId} (hv : f.Stranded entry v) : f'.Stranded entry v := by
  obtain ⟨ty, i, home, zs, ho, hzs, hmem, hn⟩ := hv
  have hhome : home ≠ split := h.ne_split (Layout.mem_blocks_iff.2 ⟨zs, hzs⟩)
  exact ⟨ty, i, home, zs, h.origin? ho, h.insts_eq hzs, hmem,
    fun hc => hn (((h.detour hf hl).connects_iff hhome).1 hc)⟩

theorem avail (hb : b ≠ split) {rest : List InstId} {v : ValueId}
    (hinst : f.flow.inst? i = some inst) (hv : v ∈ inst.args)
    (ha : f.Avail f.Leads entry b rest v ∨ f.Stranded entry v) :
    f'.Avail f'.Leads entry b rest v ∨ f'.Stranded entry v := by
  refine ha.imp (fun ha ty k hres => ?_) (h.stranded hf hl)
  rw [h.origin_arg hf.coherent hinst hv] at hres
  exact h.behind hf hl hb (ha hres)

theorem avail_split {v : ValueId} (hp : Connects f'.Leads entry split)
    (hinst : f.flow.inst? i = some inst) (hv : v ∈ inst.args)
    (ha : f.Avail f.Leads entry source [] v ∨ f.Stranded entry v) :
    f'.Avail f'.Leads entry split [] v ∨ f'.Stranded entry v := by
  refine ha.imp (fun ha ty k hres => ?_) (h.stranded hf hl)
  rw [h.origin_arg hf.coherent hinst hv] at hres
  obtain ⟨home, zs, hzs, hmem, hg, -⟩ := ha hres
  have hhome : home ≠ split := h.ne_split (Layout.mem_blocks_iff.2 ⟨zs, hzs⟩)
  refine ⟨home, zs, h.insts_eq hzs, hmem, (h.detour hf hl).guards_new hhome hp ?_,
    fun _ => List.not_mem_nil⟩
  rintro _ rfl _
  exact hg

theorem dominated (hd : f.Dominated entry) : f'.Dominated entry := by
  constructor
  · intro b pre u post inst' v hcon hys hu hop hv
    rcases h.insts_cases hys with ⟨rfl, he⟩ | ⟨hb, hys⟩
    · have hmem : u ∈ [j] := he ▸ List.mem_append_right _ List.mem_cons_self
      rw [List.mem_singleton.1 hmem, h.jump] at hu
      cases hu
      cases hv
    · have hmem : u ∈ pre ++ u :: post := List.mem_append_right _ List.mem_cons_self
      obtain ⟨inst, hinst⟩ := hf.coherent.inst_of_mem hys hmem
      rw [h.inst? hinst] at hu
      cases hu
      rw [splitInst_op] at hop
      rw [splitInst_args] at hv
      exact h.avail hf hl hb hinst hv (hd.body (((h.detour hf hl).connects_iff hb).1 hcon)
        hys hinst hop hv)
  · intro b ys u inst' v p hcon hys hu hu' hop he hp
    rcases h.insts_cases hys with ⟨rfl, rfl⟩ | ⟨hb, hys⟩
    · rw [List.mem_singleton.1 hu, h.jump] at hu'
      cases hu'
      cases hop
    · obtain ⟨inst, hinst⟩ := hf.coherent.inst_of_mem hys hu
      rw [h.inst? hinst] at hu'
      cases hu'
      rw [splitInst_op] at hop
      have hcon := ((h.detour hf hl).connects_iff hb).1 hcon
      have hold : ∀ {q}, (v, q) ∈ inst.edges → Connects f.Leads entry q →
          f.Avail f.Leads entry q [] v ∨ f.Stranded entry v := hd.phis hcon hys hu hinst hop
      have hkept : ∀ {q}, (v, q) ∈ inst.edges → Connects f'.Leads entry q →
          f'.Avail f'.Leads entry q [] v ∨ f'.Stranded entry v := fun {q} hq hc => by
        have hqs : q ≠ split := h.ne_split (hf.shape.targets hinst q (Inst.block_of_edge hq))
        exact h.avail hf hl hqs hinst (Inst.arg_of_edge hq)
          (hold hq (((h.detour hf hl).connects_iff hqs).1 hc))
      rw [splitInst_phi hinst hop (hf.coherent.blockOf?_eq_some.2 ⟨ys, hys, hu⟩)] at he
      split at he
      · obtain ⟨q, hq, rfl⟩ := Inst.edges_mapBlocks he
        by_cases hqs : q = source
        · subst hqs
          rw [reroute, if_pos rfl] at hp ⊢
          obtain ⟨c, rfl, hc⟩ := (h.detour hf hl).of_connects_new hp
          exact h.avail_split hf hl hp hinst (Inst.arg_of_edge hq) (hold hq hc)
        · rw [DataFlow.reroute_of_ne hqs] at hp ⊢
          exact hkept hq hp
      · exact hkept he hp

theorem rooted (hr : f.Rooted entry) : f'.Rooted entry where
  toFormed := h.formed hf hl
  typed := h.typed hf.coherent hr.typed
  dominated := h.dominated hf hl hr.dominated
  source a ha := by
    rcases (h.leads_iff hf.coherent hf.shape hl).1 ha with ⟨hold, -⟩ | ⟨-, he⟩ | ⟨-, rfl⟩
    · exact hr.source a hold
    · exact h.ne_split (Func.entry_mem hf.starts) he
    · exact hr.source source hl
  phis {b ys i} hcon hys hi hphi := by
    rcases h.insts_cases hys with ⟨rfl, rfl⟩ | ⟨hb, hys⟩
    · rw [List.mem_singleton.1 hi, h.not_phi_jump] at hphi
      cases hphi
    · obtain ⟨inst, hinst⟩ := hf.coherent.inst_of_mem hys hi
      rw [h.result? hinst]
      exact hr.phis (((h.detour hf hl).connects_iff hb).1 hcon) hys hi
        ((h.kinds hinst).1.symm.trans hphi)

theorem computed {v : ValueId} (hinst : f.flow.inst? i = some inst) (hv : v ∈ inst.args)
    (hc : f.Computed entry v) :
    f'.Computed entry v := by
  have hsame := h.origin_arg hf.coherent hinst hv
  refine ⟨fun {ty} => ?_, fun {ty p} ho => ?_, fun {ty k} ho => ?_⟩
  · rw [hsame]
    exact hc.plain
  · rw [hsame] at ho
    rw [h.params]
    exact hc.listed ho
  · rw [hsame] at ho
    obtain ⟨hstore, hterm, home, zs, hzs, hk, hcon⟩ := hc.result ho
    obtain ⟨knst, hknst⟩ := hf.coherent.inst_of_mem hzs hk
    have hhome : home ≠ split := h.ne_split (Layout.mem_blocks_iff.2 ⟨zs, hzs⟩)
    refine ⟨?_, (h.kinds hknst).2.trans hterm, home, zs, h.insts_eq hzs, hk,
      ((h.detour hf hl).connects_iff hhome).2 hcon⟩
    rw [h.op?_eq hknst]
    exact hstore

end Dominance

theorem result?_mem (hc : f.Coherent) (hxs : f.insts b = .ok xs) (hi : i ∈ xs) :
    f'.flow.result? i = f.flow.result? i := by
  obtain ⟨inst, hinst⟩ := hc.inst_of_mem hxs hi
  exact h.result? hinst

theorem phis_eq (hc : f.Coherent) (hxs : f.insts b = .ok xs) :
    xs.takeWhile f'.flow.isPhi = xs.takeWhile f.flow.isPhi ∧
    xs.dropWhile f'.flow.isPhi = xs.dropWhile f.flow.isPhi := by
  have hsame : ∀ i ∈ xs, f'.flow.isPhi i = f.flow.isPhi i := fun i hi => by
    obtain ⟨inst, hinst⟩ := hc.inst_of_mem hxs hi
    exact (h.kinds hinst).1
  have htake := takeWhile_map_of (g := id) hsame
  have hdrop := dropWhile_map_of (g := id) hsame
  rw [List.map_id, List.map_id] at htake hdrop
  exact ⟨htake, hdrop⟩

theorem incoming (hf : f.Formed entry) (hl : f.Leads source target)
    (hxs : f.insts b = .ok xs) (hi : i ∈ xs) (hphi : f.flow.isPhi i = true) {p : BlockId}
    {v : ValueId} (hv : f.flow.incoming? i p = .ok (some v)) :
    f'.flow.incoming? i (if b = target then reroute source split p else p) = .ok (some v) := by
  obtain ⟨inst, hinst⟩ := hf.coherent.inst_of_mem hxs hi
  have hop : inst.op.isPhi = true := (DataFlow.isPhi_of_inst hinst).symm.trans hphi
  have hedge := DataFlow.edge_of_incoming? hinst hv
  refine DataFlow.incoming?_of_edge (h.inst? hinst)
    (h.phi_edges hf.coherent hf.shape hl hxs hi hphi (h.inst? hinst)).1 ?_
  rw [splitInst_phi hinst hop (hf.coherent.blockOf?_eq_some.2 ⟨xs, hxs, hi⟩)]
  split
  · exact Inst.mem_edges_mapBlocks _ hedge
  · exact hedge

theorem goes (hf : f.Formed entry) (hxs : f.insts b = .ok xs) (hi : i ∈ xs)
    (hinst : f.flow.inst? i = some inst) {s s' : Frame} {c : BlockId} (hholds : s.Holds f s')
    (hg : Frame.Goes f s inst c) :
    Frame.Goes f' s' (f.splitInst source target split i inst)
      (if b = source then reroute target split c else c) := by
  have hterm : inst.op.isTerminator = true :=
    (DataFlow.isTerminator_of_inst hinst).symm.trans (hf.goes_terminator hinst hg)
  have hg' := hholds.goes hf.coherent hinst (fun v hv => h.origin_arg hf.coherent hinst hv) hg
  rw [splitInst_terminator hterm (hf.coherent.blockOf?_eq_some.2 ⟨xs, hxs, hi⟩)]
  split
  · exact hg'.mapBlocks _
  · exact hg'

theorem enter (hf : f.Formed entry) (hl : f.Leads source target) {s s' t : Frame} {c : BlockId}
    (hholds : s.Holds f s')
    (hblock : s'.block = if c = target then reroute source split s.block else s.block)
    (hent : Frame.Entered f s t c xs) (i : InstId) :
    ∃ t', s'.enter f' i c = .ok t' ∧ t.Holds f t' ∧ t'.block = t.block ∧ t'.rest = t.rest := by
  obtain ⟨htake, hdrop⟩ := h.phis_eq hf.coherent hent.insts
  have hsub : ∀ {phi}, phi ∈ xs.takeWhile f.flow.isPhi → phi ∈ xs :=
    fun hm => (List.takeWhile_prefix _).subset hm
  obtain ⟨t', ht', hh, hb, hr⟩ :=
    hholds.enter hf.coherent h.coherent hent (h.insts_eq hent.insts) htake (fun phi hphi =>
      h.result?_mem hf.coherent hent.insts (hsub hphi))
    (fun phi hphi v hv => by
      obtain ⟨inst, hinst⟩ := hf.coherent.inst_of_mem hent.insts (hsub hphi)
      have hphi' := List.all_eq_true.1 List.all_takeWhile phi hphi
      rw [hblock]
      exact ⟨h.incoming hf hl hent.insts (hsub hphi) hphi' hv,
        h.origin_arg hf.coherent hinst (Inst.arg_of_edge (DataFlow.edge_of_incoming? hinst hv))⟩) i
  exact ⟨t', ht', hh, hb.trans hent.block.symm, hr.trans (hdrop.trans hent.rest.symm)⟩

theorem follows {E : BlockId → BlockId → Prop} (hf : f.Orderly E entry)
    (hl : f.Leads source target) :
    f.Follows f' E entry fun b rest b' rest' => b' = b ∧ rest' = rest where
  body := by
    rintro b pre i rest b' ys inst hcon hxs hne ⟨rfl, rfl⟩ hinst hop
    have hterm : inst.op.isTerminator = false := by
      refine Bool.eq_false_iff.2 fun hterm => hne ((hf.terminator_iff hxs).1 ?_)
      rwa [DataFlow.isTerminator_of_inst hinst]
    have hhere := h.inst? hinst
    rw [splitInst_plain hop hterm] at hhere
    exact ⟨rest, rfl, ⟨rfl, rfl⟩, hhere, h.result? hinst,
      Frame.resultWidth?_congr hf.coherent.flow (h.result? hinst) fun _ ho => h.origin? ho,
      fun v hv => h.origin_arg hf.coherent hinst hv⟩
  done := by
    rintro b pre i b' ys x hcon hxs ⟨rfl, rfl⟩ hinst
    refine ⟨i, [], rfl, ?_, h.origin_arg hf.coherent hinst List.mem_cons_self⟩
    have hmem : i ∈ pre ++ [i] := List.mem_append_right _ List.mem_cons_self
    rw [h.inst? hinst, splitInst_terminator rfl (hf.coherent.blockOf?_eq_some.2 ⟨_, hxs, hmem⟩)]
    split <;> rfl
  enter := by
    rintro s s' t i inst c zs hsits hrest hholds ⟨hblock, hrest'⟩ hinst hgoes hE hent
    obtain ⟨pre, hpre⟩ := hsits.suffix
    rw [hrest] at hpre
    have hgoes' := h.goes hf.toFormed hpre (List.mem_append_right _ List.mem_cons_self)
      hinst hholds hgoes
    have hidle : s.Holds f { s' with rest := [] } :=
      ⟨hholds.values, hholds.memory, hholds.activation⟩
    by_cases hway : s.block = source ∧ c = target
    · -- Two steps: to the new block and on to the target.
      obtain ⟨hs, rfl⟩ := hway
      rw [if_pos hs, reroute, if_pos rfl] at hgoes'
      have hphis : [j].takeWhile f'.flow.isPhi = [] :=
        List.takeWhile_cons_of_neg (by simp [h.not_phi_jump])
      have hbody : [j].dropWhile f'.flow.isPhi = [j] :=
        List.dropWhile_cons_of_neg (by simp [h.not_phi_jump])
      have hmid : ({ s' with rest := [] } : Frame).enter f' i split =
          .ok { s' with block := split, source? := some s'.block, rest := [j] } :=
        Frame.enter_eq_ok.2 ⟨[j], [], h.here, by rw [hphis]; rfl, by rw [hbody]; rfl⟩
      have hstay : s.Holds f { s' with block := split, source? := some s'.block, rest := [] } :=
        ⟨hholds.values, hholds.memory, hholds.activation⟩
      obtain ⟨t', ht', hh, hb, hr⟩ :=
        h.enter hf.toFormed hl hstay (by rw [if_pos rfl, hs, reroute, if_pos rfl]) hent j
      have hfirst : s'.step f' = .ok (.next _) :=
        Frame.step_next_iff.2 (.enters hrest' (h.inst? hinst) hgoes' hmid)
      have hsecond : ({ s' with block := split, source? := some s'.block, rest := [j] } :
          Frame).step f' = .ok (.next t') :=
        Frame.step_next_iff.2 (.enters rfl h.jump .jump ht')
      refine ⟨2, t', ?_, hh, hb, hr⟩
      simp only [Frame.run, hfirst, hsecond]
    · have hsame : (if s.block = source then reroute target split c else c) = c := by
        split
        · rename_i hs
          exact DataFlow.reroute_of_ne fun hc => hway ⟨hs, hc⟩
        · rfl
      have hback : s'.block = if c = target then reroute source split s.block else s.block := by
        split
        · rename_i hc
          rw [DataFlow.reroute_of_ne fun hs => hway ⟨hs, hc⟩, hblock]
        · exact hblock
      rw [hsame] at hgoes'
      obtain ⟨t', ht', hh, hb, hr⟩ := h.enter hf.toFormed hl hidle hback hent i
      have hmove : s'.step f' = .ok (.next t') :=
        Frame.step_next_iff.2 (.enters hrest' (h.inst? hinst) hgoes' ht')
      exact ⟨1, t', by rw [Frame.run, hmove]; rfl, hh, hb, hr⟩

theorem returns (hf : f.Regular entry) (hd : f.Dominated entry) (hl : f.Leads source target)
    {args : List Datum} {d : Datum} (hr : f.Returns args d) : f'.Returns args d := by
  obtain ⟨E, hs⟩ := hr.serves hf hd
  obtain ⟨ys, hys⟩ := Layout.mem_blocks_iff.1 (Func.entry_mem hf.starts)
  exact (h.follows hs.1 hl).returns hs h.params (h.first hf.starts) hys (h.insts_eq hys) ⟨rfl, rfl⟩

/-- Lowering may start from the function as it might have started from the one before. -/
theorem lowerable (hf : f.Lowerable entry) (hl : f.Leads source target) : f'.Lowerable entry where
  toRooted := h.rooted hf.toFormed hl hf.toRooted
  noCopies {i x y} hi := by
    rcases h.inst_cases hf.coherent hi with ⟨-, he⟩ | ⟨inst, hinst, he⟩
    · cases he
    · rw [splitInst_plain (i := i) (by rw [← splitInst_op (i := i), ← he]; rfl)
        (by rw [← splitInst_op (i := i), ← he]; rfl)] at he
      exact hf.noCopies (he ▸ hinst)
  yields {i} hphi := by
    obtain ⟨inst', hi⟩ := DataFlow.inst_of_isPhi hphi
    rcases h.inst_cases hf.coherent hi with ⟨rfl, -⟩ | ⟨inst, hinst, -⟩
    · rw [h.not_phi_jump] at hphi
      cases hphi
    · rw [h.result? hinst]
      exact hf.yields ((h.kinds hinst).1.symm.trans hphi)
  computed {b ys u inst' v p} hys hu hu' hop he hp := by
    rcases h.insts_cases hys with ⟨rfl, rfl⟩ | ⟨hb, hys⟩
    · rw [List.mem_singleton.1 hu, h.jump] at hu'
      cases hu'
      cases hop
    · obtain ⟨inst, hinst⟩ := hf.coherent.inst_of_mem hys hu
      rw [h.inst? hinst] at hu'
      cases hu'
      rw [splitInst_op] at hop
      have hD := h.detour hf.toFormed hl
      have hkept : ∀ {q}, (v, q) ∈ inst.edges → Connects f.Leads entry q →
          f'.Computed entry v := fun {q} hq hc =>
        h.computed hf.toFormed hl hinst (Inst.arg_of_edge hq) (hf.computed hys hu hinst hop hq hc)
      have hold : ∀ {q}, (v, q) ∈ inst.edges → q ≠ split := fun hq =>
        h.ne_split (hf.shape.targets hinst _ (Inst.block_of_edge hq))
      rw [splitInst_phi hinst hop (hf.coherent.blockOf?_eq_some.2 ⟨ys, hys, hu⟩)] at he
      split at he
      · obtain ⟨q, hq, rfl⟩ := Inst.edges_mapBlocks he
        by_cases hqs : q = source
        · subst hqs
          rw [reroute, if_pos rfl] at hp
          obtain ⟨c, rfl, hc⟩ := hD.of_connects_new hp
          exact hkept hq hc
        · rw [DataFlow.reroute_of_ne hqs] at hp
          exact hkept hq ((hD.connects_iff (hold hq)).1 hp)
      · exact hkept he ((hD.connects_iff (hold he)).1 hp)
  apart {i op x b ys phi} hi hys hphi hisPhi hr := by
    rcases h.insts_cases hys with ⟨rfl, rfl⟩ | ⟨hb, hys⟩
    · rw [List.mem_singleton.1 hphi, h.not_phi_jump] at hisPhi
      cases hisPhi
    · rcases h.inst_cases hf.coherent hi with ⟨-, he⟩ | ⟨inst, hinst, he⟩
      · cases he
      · obtain ⟨σ, hσ, hnew⟩ := splitInst_eq f source target split i inst
        rw [hσ] at he
        obtain ⟨pnst, hpnst⟩ := hf.coherent.inst_of_mem hys hphi
        rw [(h.kinds hpnst).1] at hisPhi
        rw [h.result? hpnst] at hr
        -- Both targets name the block, so neither of them was led elsewhere.
        have hsame : ∀ {c}, b = σ c → c = b := fun {c} hc => by
          rcases hnew c with hcc | hcs
          · exact hcc.symm.trans hc.symm
          · exact absurd (hc.trans hcs) hb
        cases inst with
        | branch op' x' t e =>
          injection he with hop hx ht he
          subst hx
          rw [hsame ht, hsame he] at hinst
          exact hf.apart hinst hys hphi hisPhi hr
        | _ => cases he

end Split

end Func

end MiddleEnd
