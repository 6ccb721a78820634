import MiddleEnd.Proofs.TrivialPhis

/-!
# Merging a block into its predecessor

A block that is only reached by the jump at the end of its only predecessor continues it. Merged,
the two are one block that runs the same instructions except for the jump. Whatever said where
control came from or stood by naming the block names the predecessor instead.
-/

namespace MiddleEnd

open DataFlow (reroute)

namespace Func

def splice (term : InstId) (ys rest : List InstId) : List InstId :=
  rest.flatMap fun i => if i = term then ys else [i]

section Splice

variable {term : InstId} {ys xs rest : List InstId} {i : InstId}

theorem splice_cons_of_ne (h : i ≠ term) :
    splice term ys (i :: rest) = i :: splice term ys rest := by
  rw [splice, List.flatMap_cons, if_neg h]
  rfl

theorem splice_singleton : splice term ys [term] = ys := by
  rw [splice, List.flatMap_singleton, if_pos rfl]

theorem splice_append : splice term ys (xs ++ rest) = splice term ys xs ++ splice term ys rest :=
  List.flatMap_append

theorem splice_of_not_mem (h : term ∉ rest) : splice term ys rest = rest := by
  induction rest with
  | nil => rfl
  | cons i rest ih =>
    rw [splice_cons_of_ne (List.ne_of_not_mem_cons h).symm, ih (List.not_mem_of_not_mem_cons h)]

theorem mem_splice (hne : i ∈ splice term ys rest) :
    (i ∈ rest ∧ i ≠ term) ∨ (i ∈ ys ∧ term ∈ rest) := by
  obtain ⟨j, hj, hi⟩ := List.mem_flatMap.1 hne
  split at hi
  · rename_i he
    exact .inr ⟨hi, he ▸ hj⟩
  · rename_i hne
    rw [List.mem_singleton.1 hi]
    exact .inl ⟨hj, hne⟩

theorem mem_splice_of_ne (hi : i ∈ rest) (hne : i ≠ term) : i ∈ splice term ys rest :=
  List.mem_flatMap.2 ⟨i, hi, by rw [if_neg hne]; exact List.mem_singleton_self i⟩

end Splice

/-- Only the jump `term` at the end of `pred` leads to `block`. -/
structure Continues (f : Func) (block pred : BlockId) (front : List InstId) (term : InstId) :
    Prop where
  ne : pred ≠ block
  here : f.insts pred = .ok (front ++ [term])
  jump : f.flow.inst? term = some (.jump .br block)
  sole : ∀ {p}, f.Leads p block → p = pred

/-- A block that continues its predecessor and has no phis. -/
structure Mergeable (f : Func) (entry block pred : BlockId) (front ys : List InstId)
    (term : InstId) : Prop extends f.Continues block pred front term where
  trim : f.Trim entry
  there : f.insts block = .ok ys
  bare : ∀ i ∈ ys, f.flow.isPhi i = false

/-- The second function is the first one with `block` merged into `pred`. -/
structure Merged (f f' : Func) (block pred : BlockId) (front ys : List InstId) (term : InstId) :
    Prop where
  coherent : f'.Coherent
  sig : f'.sig = f.sig
  params : f'.flow.params = f.flow.params
  imports : f'.flow.imports = f.flow.imports
  blocks : f'.blocks = f.blocks.filter (· ≠ block)
  here : f'.insts pred = .ok (front ++ ys)
  others : ∀ {d}, d ≠ pred → d ≠ block → f'.insts d = f.insts d
  inst? : ∀ {i}, i ≠ term →
    f'.flow.inst? i = (f.flow.inst? i).map (·.mapBlocks (reroute block pred))
  gone : f'.flow.inst? term = none
  result? : ∀ i, f'.flow.result? i = f.flow.result? i
  origin? : ∀ {v o}, f.flow.origin? v = some o → f'.flow.origin? v = some o
  added : ∀ {v o}, f'.flow.origin? v = some o → f.flow.origin? v = some o ∨ o.isConst = true ∨
    o.isUndef = true

variable {f f' : Func} {entry block pred : BlockId} {front ys : List InstId} {term : InstId}

theorem Continues.leads_pred (h : f.Continues block pred front term) {b : BlockId} :
    f.Leads pred b ↔ b = block := by
  rw [leads_last_iff h.here h.jump rfl]
  exact List.mem_singleton

theorem Continues.leads_block (h : f.Continues block pred front term) : f.Leads pred block :=
  h.leads_pred.2 rfl

namespace Mergeable

variable (h : f.Mergeable entry block pred front ys term)

include h

theorem entry_ne : entry ≠ block := by
  rintro rfl
  exact h.trim.source _ h.leads_block

theorem term_not_front : term ∉ front := fun hm =>
  (List.nodup_append.1 (h.trim.coherent.layout.insts_nodup h.here)).2.2 _ hm _
    List.mem_cons_self rfl

theorem term_mem {b : BlockId} {xs : List InstId} (hxs : f.insts b = .ok xs) (hm : term ∈ xs) :
    b = pred :=
  h.trim.coherent.layout.one_block hxs h.here hm (List.mem_append_right _ List.mem_cons_self)

theorem term_not_there : term ∉ ys := fun hm => h.ne (h.term_mem h.there hm).symm

theorem isTerminator_term : f.flow.isTerminator term = true := DataFlow.isTerminator_of_inst h.jump

theorem there_ne_nil : ys ≠ [] := by
  obtain ⟨front, t, rfl, -⟩ := h.trim.shape.ended h.there
  exact List.append_ne_nil_of_right_ne_nil _ (List.cons_ne_nil _ _)

theorem not_guards : ¬ Guards f.Leads entry block pred :=
  not_guards_of_sole h.entry_ne.symm fun hl => h.sole hl

theorem not_named {i : InstId} {inst : Inst} (hi : f.flow.inst? i = some inst)
    (hop : inst.op.isPhi = false) (hne : i ≠ term) : block ∉ inst.blocks := by
  intro hb
  obtain ⟨b, xs, hxs, hix⟩ := h.trim.coherent.home hi
  have hform := h.trim.forms hi
  cases hterm : inst.op.isTerminator with
  | false =>
    rw [blocks_eq_nil hform hop hterm] at hb
    cases hb
  | true =>
    have hbp := h.sole (h.trim.shape.leads hxs hix hi hterm hb)
    subst hbp
    rw [h.here] at hxs
    cases hxs
    obtain ⟨front', t, he, -, hplain⟩ := h.trim.shape.ended h.here
    obtain ⟨rfl, -⟩ := List.append_inj' he rfl
    rcases List.mem_append.1 hix with hix | hix
    · have := hplain i hix
      rw [DataFlow.isTerminator_of_inst hi, hterm] at this
      cases this
    · exact hne (List.mem_singleton.1 hix)

end Mergeable

namespace Merged

variable (h' : f.Merged f' block pred front ys term)
  (h : f.Mergeable entry block pred front ys term)

include h'

theorem isPhi {i : InstId} (hne : i ≠ term) : f'.flow.isPhi i = f.flow.isPhi i := by
  unfold DataFlow.isPhi DataFlow.op?
  rw [h'.inst? hne]
  cases f.flow.inst? i with
  | none => rfl
  | some inst => rw [Option.map_some, Option.map_some, Option.map_some, Inst.op_mapBlocks]

theorem isTerminator {i : InstId} (hne : i ≠ term) :
    f'.flow.isTerminator i = f.flow.isTerminator i := by
  unfold DataFlow.isTerminator DataFlow.op?
  rw [h'.inst? hne]
  cases f.flow.inst? i with
  | none => rfl
  | some inst => rw [Option.map_some, Option.map_some, Option.map_some, Inst.op_mapBlocks]

include h

theorem inst_of_plain {i : InstId} {inst : Inst} (hi : f.flow.inst? i = some inst)
    (hop : inst.op.isPhi = false) (hne : i ≠ term) : f'.flow.inst? i = some inst := by
  rw [h'.inst? hne, hi, Option.map_some, Inst.mapBlocks_eq_self]
  exact fun b hb => DataFlow.reroute_of_ne fun he => h.not_named hi hop hne (he ▸ hb)

theorem inst_of {i : InstId} {inst' : Inst} (hi : f'.flow.inst? i = some inst') :
    i ≠ term ∧ ∃ inst, f.flow.inst? i = some inst ∧ inst' = inst.mapBlocks
      (reroute block pred) := by
  have hne : i ≠ term := by
    rintro rfl
    rw [h'.gone] at hi
    cases hi
  rw [h'.inst? hne] at hi
  obtain ⟨inst, hinst, rfl⟩ := Option.map_eq_some_iff.1 hi
  exact ⟨hne, inst, hinst, rfl⟩

theorem insts_eq {b : BlockId} {xs : List InstId} (hb : b ≠ block) (hxs : f.insts b = .ok xs) :
    f'.insts b = .ok (splice term ys xs) := by
  by_cases hp : b = pred
  · subst hp
    rw [h.here] at hxs
    cases hxs
    rw [h'.here, splice_append, splice_singleton, splice_of_not_mem h.term_not_front]
  · rw [h'.others hp hb, hxs, splice_of_not_mem fun hm => hp (h.term_mem hxs hm)]

theorem insts_of {b : BlockId} {xs' : List InstId} (hxs' : f'.insts b = .ok xs') :
    b ≠ block ∧ ∃ xs, f.insts b = .ok xs ∧ xs' = splice term ys xs := by
  have hb : b ∈ f'.blocks := Layout.mem_blocks_iff.2 ⟨xs', hxs'⟩
  rw [h'.blocks, List.mem_filter, decide_eq_true_eq] at hb
  obtain ⟨xs, hxs⟩ := Layout.mem_blocks_iff.1 hb.1
  exact ⟨hb.2, xs, hxs, Except.ok.inj (hxs'.symm.trans (h'.insts_eq h hb.2 hxs))⟩

/-- The predecessor leads where the block led. -/
theorem leads_iff {a b : BlockId} :
    f'.Leads a b ↔ b ≠ block ∧ ∃ q, f.Leads q b ∧ reroute block pred q = a := by
  have hlast : (front ++ ys).getLast? = ys.getLast? := by
    rw [List.getLast?_append]
    cases hy : ys.getLast? with
    | none => exact absurd (List.getLast?_eq_none_iff.1 hy) h.there_ne_nil
    | some y => rfl
  have hback : ∀ {q t inst zs}, f.insts q = .ok zs → t ∈ zs → q ≠ pred →
      f.flow.inst? t = some inst →
      inst.op.isTerminator = true → f'.flow.inst? t = some inst := fun hzs ht hq hi hterm =>
    h'.inst_of_plain h hi (Opcode.not_phi_of_terminator hterm) fun he =>
      hq (h.term_mem hzs (he ▸ ht))
  constructor
  · intro hl
    obtain ⟨xs', t, inst', hxs', ht, hi', hterm, hb⟩ := Func.leads_iff.1 hl
    obtain ⟨hne, inst, hi, rfl⟩ := h'.inst_of h hi'
    rw [Inst.op_mapBlocks] at hterm
    have hplain := h'.inst_of_plain h hi (Opcode.not_phi_of_terminator hterm) hne
    rw [hplain] at hi'
    rw [← Option.some.inj hi'] at hb
    have hbn : b ≠ block :=
      fun he => h.not_named hi (Opcode.not_phi_of_terminator hterm) hne (he ▸ hb)
    refine ⟨hbn, ?_⟩
    by_cases ha : a = pred
    · subst ha
      rw [h'.here] at hxs'
      cases hxs'
      rw [hlast] at ht
      exact ⟨block, Func.leads_iff.2 ⟨ys, t, inst, h.there, ht, hi, hterm, hb⟩, if_pos rfl⟩
    · obtain ⟨hab, -⟩ := h'.insts_of h hxs'
      rw [h'.others ha hab] at hxs'
      exact ⟨a, Func.leads_iff.2 ⟨xs', t, inst, hxs', ht, hi, hterm, hb⟩,
        DataFlow.reroute_of_ne hab⟩
  · rintro ⟨hb, q, hl, rfl⟩
    have hq : q ≠ pred := fun he => hb (h.leads_pred.1 (he ▸ hl))
    obtain ⟨zs, t, inst, hzs, ht, hi, hterm, hmem⟩ := Func.leads_iff.1 hl
    have hi' := hback hzs (List.mem_of_getLast? ht) hq hi hterm
    by_cases hqb : q = block
    · subst hqb
      rw [h.there] at hzs
      cases hzs
      rw [reroute, if_pos rfl]
      exact Func.leads_iff.2 ⟨_, t, inst, h'.here, hlast.trans ht, hi', hterm, hmem⟩
    · rw [DataFlow.reroute_of_ne hqb]
      exact Func.leads_iff.2 ⟨zs, t, inst, (h'.others hq hqb).trans hzs, ht, hi', hterm, hmem⟩

theorem weight : f'.flow.weight ≤ f.flow.weight := by
  refine DataFlow.weight_mono fun {i op} hop => ?_
  obtain ⟨inst', hi', rfl⟩ := Option.map_eq_some_iff.1 hop
  obtain ⟨-, inst, hi, rfl⟩ := h'.inst_of h hi'
  rw [Inst.op_mapBlocks]
  exact DataFlow.op?_eq_some hi

theorem walk_back {a b : BlockId} {p : List BlockId} (hp : Walk f'.Leads a b p) (ha : a ≠ block) :
    ∃ q, Walk f.Leads a b q ∧ ∀ x ∈ q, reroute block pred x ∈ p := by
  induction hp with
  | single a =>
    refine ⟨[a], .single a, fun x hx => ?_⟩
    rw [List.mem_singleton.1 hx, DataFlow.reroute_of_ne ha]
    exact List.mem_cons_self
  | @cons a c b p hl _ ih =>
    obtain ⟨hc, q, hq, rfl⟩ := (h'.leads_iff h).1 hl
    obtain ⟨w, hw, hsub⟩ := ih hc
    have hthere : ∀ x ∈ q :: w, reroute block pred x ∈ reroute block pred q :: p := fun x hx => by
      rcases List.mem_cons.1 hx with rfl | hx
      · exact List.mem_cons_self
      · exact List.mem_cons_of_mem _ (hsub x hx)
    by_cases hqb : q = block
    · subst hqb
      rw [reroute, if_pos rfl] at hthere ⊢
      refine ⟨pred :: q :: w, .cons h.leads_block (.cons hq hw), fun x hx => ?_⟩
      rcases List.mem_cons.1 hx with rfl | hx
      · rw [DataFlow.reroute_of_ne h.ne]
        exact List.mem_cons_self
      · exact hthere x hx
    · rw [DataFlow.reroute_of_ne hqb] at hthere ⊢
      exact ⟨q :: w, .cons hq hw, hthere⟩

theorem connects {b : BlockId} (hb : Connects f.Leads entry b) :
    Connects f'.Leads entry (reroute block pred b) := by
  obtain ⟨p, hp⟩ := hb
  suffices ∀ {a b p}, Walk f.Leads a b p → Connects f'.Leads entry (reroute block pred a) →
      Connects f'.Leads entry (reroute block pred b) from
    this hp (by rw [DataFlow.reroute_of_ne h.entry_ne]; exact .refl _ _)
  intro a b p hp
  induction hp with
  | single a => exact id
  | @cons a c b p hl _ ih =>
    intro ha
    refine ih ?_
    by_cases hc : c = block
    · subst hc
      rw [h.sole hl, DataFlow.reroute_of_ne h.ne] at ha
      rwa [reroute, if_pos rfl]
    · rw [DataFlow.reroute_of_ne hc]
      exact ha.step ((h'.leads_iff h).2 ⟨hc, a, hl, rfl⟩)

theorem guards {d b : BlockId} (hg : Guards f.Leads entry d b) (hb : b ≠ block) :
    Guards f'.Leads entry (reroute block pred d) b := by
  refine ⟨?_, fun p hp => ?_⟩
  · have := h'.connects h hg.1
    rwa [DataFlow.reroute_of_ne hb] at this
  · obtain ⟨q, hq, hsub⟩ := h'.walk_back h hp h.entry_ne
    exact hsub d (hg.2 q hq)

theorem behind {b : BlockId} {rest : List InstId} {i : InstId} (hspot : f.Spot f.Leads entry b rest)
    (hi : i ≠ term) (hb : f.Behind f.Leads entry b rest i) :
    f'.Behind f'.Leads entry (reroute block pred b) (splice term ys rest) i := by
  have hlayout := h.trim.coherent.layout
  obtain ⟨home, xs, hxs, hix, hg, hout⟩ := hb
  obtain ⟨pre, hpre⟩ := hspot.suffix
  have hhome : ∃ xs', f'.insts (reroute block pred home) = .ok xs' ∧ i ∈ xs' := by
    by_cases hb : home = block
    · subst hb
      rw [h.there] at hxs
      cases hxs
      rw [reroute, if_pos rfl]
      exact ⟨_, h'.here, List.mem_append_right _ hix⟩
    · rw [DataFlow.reroute_of_ne hb]
      exact ⟨_, h'.insts_eq h hb hxs, mem_splice_of_ne hix hi⟩
  obtain ⟨xs', hxs', hix'⟩ := hhome
  refine ⟨_, xs', hxs', hix', ?_, fun _ hm => ?_⟩
  · by_cases hb : b = block
    · subst hb
      have hpred := h.trim.reached pred h.leads_block.mem_blocks
      rw [reroute, reroute, if_pos rfl]
      by_cases hh : home = b
      · subst hh
        rw [if_pos rfl]
        have := (h'.connects h hpred).guards_self
        rwa [DataFlow.reroute_of_ne h.ne] at this
      · rw [if_neg hh]
        have := h'.guards h (hg.of_step hh hpred h.leads_block) h.ne
        rwa [DataFlow.reroute_of_ne hh] at this
    · rw [DataFlow.reroute_of_ne hb]
      exact h'.guards h hg hb
  · rcases mem_splice hm with ⟨hir, -⟩ | ⟨hiy, htr⟩
    · exact hout (hlayout.one_block hxs hpre hix (List.mem_append_right _ hir)) hir
    · -- The block would come before its predecessor.
      rw [hlayout.one_block hxs h.there hix hiy,
        h.term_mem hpre (List.mem_append_right _ htr)] at hg
      exact h.not_guards hg

theorem avail {b : BlockId} {rest : List InstId} {v : ValueId} (hspot : f.Spot f.Leads entry b rest)
    (ha : f.Avail f.Leads entry b rest v) :
    f'.Avail f'.Leads entry (reroute block pred b) (splice term ys rest) v := by
  intro ty i ho
  have hr := (h'.result? i).symm.trans (h'.coherent.flow.origin_result ho)
  obtain ⟨ty', ho', -⟩ := h.trim.coherent.flow.result_origin hr
  refine h'.behind h hspot ?_ (ha ho')
  rintro rfl
  rw [h.trim.last h.isTerminator_term] at hr
  cases hr

theorem phi_edges {b : BlockId} {xs : List InstId} {i : InstId} {inst : Inst} (hb : b ≠ block)
    (hxs : f.insts b = .ok xs) (hi : i ∈ xs) (hphi : f.flow.isPhi i = true)
    (hinst : f.flow.inst? i = some inst) :
    (inst.mapBlocks (reroute block pred)).blocks.Nodup ∧
      ∀ p, p ∈ (inst.mapBlocks (reroute block pred)).blocks ↔ f'.Leads p b := by
  obtain ⟨hn, hpreds⟩ := h.trim.shape.phi_edges hxs hi hphi hinst
  have hpred : pred ∉ inst.blocks := fun hm => hb (h.leads_pred.1 ((hpreds pred).1 hm))
  rw [Inst.blocks_mapBlocks]
  refine ⟨hn.map_on fun p hp q hq he => ?_, fun p => ?_⟩
  · by_cases hpb : p = block <;> by_cases hqb : q = block
    · rw [hpb, hqb]
    · rw [reroute, if_pos hpb, DataFlow.reroute_of_ne hqb] at he
      exact absurd (he ▸ hq) hpred
    · rw [DataFlow.reroute_of_ne hpb, reroute, if_pos hqb] at he
      exact absurd (he ▸ hp) hpred
    · rwa [DataFlow.reroute_of_ne hpb, DataFlow.reroute_of_ne hqb] at he
  · rw [List.mem_map, h'.leads_iff h]
    constructor
    · rintro ⟨q, hq, rfl⟩
      exact ⟨hb, q, (hpreds q).1 hq, rfl⟩
    · rintro ⟨-, q, hq, rfl⟩
      exact ⟨q, (hpreds q).2 hq, rfl⟩

theorem wellShaped : f'.WellShaped := by
  have hf := h.trim.toFormed
  refine ⟨fun {b xs'} hxs' => ?_, fun {i inst'} hi' c' hc' => ?_⟩
  · obtain ⟨hb, xs, hxs, rfl⟩ := h'.insts_of h hxs'
    obtain ⟨phis, body, last, rfl, hs⟩ := hf.shape.shaped hxs
    have hlast : last ∈ phis ++ (body ++ [last]) :=
      List.mem_append_right _ (List.mem_append_right _ List.mem_cons_self)
    have hne : ∀ {i}, f.flow.isTerminator i = false → i ≠ term := by
      rintro i hi rfl
      rw [h.isTerminator_term] at hi
      cases hi
    -- The block continues the body if the predecessor ends here.
    have htail : ∃ body' last', splice term ys [last] = body' ++ [last'] ∧
        f'.flow.isTerminator last' = true ∧
        ∀ i ∈ body', f'.flow.isPhi i = false ∧ f'.flow.isTerminator i = false := by
      by_cases hl : last = term
      · subst hl
        obtain ⟨body', last', rfl, ht, hplain⟩ := hf.shape.ended h.there
        have hl' : last' ≠ last :=
          fun he => h.term_not_there (he ▸ List.mem_append_right _ List.mem_cons_self)
        refine ⟨body', last', splice_singleton, (h'.isTerminator hl').trans ht, fun i hi => ?_⟩
        have hi' := hne (hplain i hi)
        exact ⟨(h'.isPhi hi').trans (h.bare i (List.mem_append_left _ hi)),
          (h'.isTerminator hi').trans (hplain i hi)⟩
      · refine ⟨[], last, splice_cons_of_ne hl, (h'.isTerminator hl).trans hs.isTerminator,
          fun i hi => ?_⟩
        cases hi
    obtain ⟨body', last', htail, hlast', hplain'⟩ := htail
    have hphis : ∀ i ∈ phis, i ≠ term := fun i hi => hne (not_terminator_of_phi (hs.isPhi i hi))
    have hbody : ∀ i ∈ body, i ≠ term := fun i hi => hne (hs.plain i hi).2
    refine ⟨phis, body ++ body', last', ?_, ?_, ?_, hlast', ?_⟩
    · rw [splice_append, splice_append, htail, splice_of_not_mem fun hm => hphis _ hm rfl,
        splice_of_not_mem fun hm => hbody _ hm rfl, List.append_assoc]
    · exact fun i hi => (h'.isPhi (hphis i hi)).trans (hs.isPhi i hi)
    · intro i hi
      rcases List.mem_append.1 hi with hi | hi
      · rw [h'.isPhi (hbody i hi), h'.isTerminator (hbody i hi)]
        exact hs.plain i hi
      · exact hplain' i hi
    · intro i inst' hi hi'
      obtain ⟨-, inst, hinst, rfl⟩ := h'.inst_of h hi'
      exact h'.phi_edges h hb hxs (List.mem_append_left _ hi) (hs.isPhi i hi) hinst
  · obtain ⟨-, inst, hinst, rfl⟩ := h'.inst_of h hi'
    rw [Inst.blocks_mapBlocks] at hc'
    obtain ⟨c, hc, rfl⟩ := List.mem_map.1 hc'
    rw [h'.blocks, List.mem_filter, decide_eq_true_eq]
    by_cases hcb : c = block
    · rw [reroute, if_pos hcb]
      exact ⟨h.leads_block.mem_blocks, h.ne⟩
    · rw [DataFlow.reroute_of_ne hcb]
      exact ⟨hf.shape.targets hinst c hc, hcb⟩

theorem formed : f'.Formed entry := by
  have hf := h.trim.toFormed
  refine ⟨h'.coherent, ?_, h'.wellShaped h, fun {i inst'} hi' => ?_, fun {xs'} hxs' i hi => ?_⟩
  · obtain ⟨rest, hrest⟩ := List.head?_eq_some_iff.1 (entry_eq_ok.1 hf.starts)
    rw [entry_eq_ok, h'.blocks, hrest, List.filter_cons_of_pos (by simpa using h.entry_ne)]
    rfl
  · obtain ⟨-, inst, hinst, rfl⟩ := h'.inst_of h hi'
    have hform := hf.forms hinst
    cases inst <;> exact hform
  · obtain ⟨-, xs, hxs, rfl⟩ := h'.insts_of h hxs'
    rcases mem_splice hi with ⟨hi, hne⟩ | ⟨hi, -⟩
    · exact (h'.isPhi hne).trans (hf.bare hxs i hi)
    · exact (h'.isPhi fun he => h.term_not_there (he ▸ hi)).trans (h.bare i hi)

theorem noCopies (hn : ∀ {i x y}, f.flow.inst? i ≠ some (.binary .copy x y)) {i : InstId}
    {x y : ValueId} :
    f'.flow.inst? i ≠ some (.binary .copy x y) := by
  intro hi'
  obtain ⟨-, inst, hinst, he⟩ := h'.inst_of h hi'
  cases inst with
  | binary op a c =>
    cases he
    exact hn hinst
  | _ => cases he

omit h in
theorem tyOf_eq {v : ValueId} {o : ValueDef} (hv : f.flow.origin? v = some o) :
    f'.tyOf v = f.tyOf v := by
  rw [Func.tyOf_eq hv, Func.tyOf_eq (h'.origin? hv)]

theorem typed : f'.Typed := by
  intro i inst' hi'
  obtain ⟨-, inst, hinst, rfl⟩ := h'.inst_of h hi'
  have hyield : f'.yieldTy i = f.yieldTy i :=
    yieldTy_congr h.trim.coherent.flow (h'.result? i) fun _ ho => h'.origin? ho
  have hkept : f.Rule f.tyOf (f.yieldTy i) (inst.mapBlocks (reroute block pred)) := by
    have hrule := h.trim.typed hinst
    cases inst <;> exact hrule
  rw [hyield]
  refine (Inst.Matches.of_args (R := Eq) fun _ _ => rfl).rule ?_ h'.sig h'.imports ?_ hkept
  · rintro v _ hv rfl
    rw [Inst.args_mapBlocks] at hv
    obtain ⟨o, ho⟩ := h.trim.coherent.flow.operand hinst hv
    exact h'.tyOf_eq ho
  · rintro - v _ hv rfl hreg
    rw [Inst.args_mapBlocks] at hv
    obtain ⟨o, ho⟩ := h.trim.coherent.flow.operand hinst hv
    rwa [h'.origin? ho, ← ho]

theorem place_of {b : BlockId} {pre' post' : List InstId} {u : InstId}
    (hxs' : f'.insts b = .ok (pre' ++ u :: post')) (hu : u ≠ term) :
    ∃ a pre post, f.insts a = .ok (pre ++ u :: post) ∧ reroute block pred a = b ∧
      splice term ys (u :: post) = u :: post' := by
  obtain ⟨hb, xs, hxs, he⟩ := h'.insts_of h hxs'
  by_cases hm : term ∈ xs
  · have hbp := h.term_mem hxs hm
    subst hbp
    rw [h.here] at hxs
    cases hxs
    rw [splice_append, splice_singleton, splice_of_not_mem h.term_not_front] at he
    have hthere : ∀ {c}, ys = c ++ u :: post' → ∃ a pre post, f.insts a = .ok (pre ++ u :: post) ∧
        reroute block b a = b ∧ splice term ys (u :: post) = u :: post' := fun {c} hy =>
      ⟨block, c, post', hy ▸ h.there, if_pos rfl, splice_of_not_mem fun hm' =>
        h.term_not_there (hy ▸ List.mem_append_right _ hm')⟩
    rcases List.append_eq_append_iff.1 he with ⟨c, hfront, hc⟩ | ⟨c, -, hc⟩
    · cases c with
      | nil => exact hthere (c := []) hc.symm
      | cons w c =>
        obtain ⟨rfl, hpost⟩ := List.cons.inj hc
        refine ⟨b, pre', c ++ [term], ?_, DataFlow.reroute_of_ne hb, ?_⟩
        · rw [h.here, hfront, List.append_assoc]
          rfl
        · have hcf : term ∉ c :=
            fun hm' =>
              h.term_not_front (hfront ▸ List.mem_append_right _ (List.mem_cons_of_mem _ hm'))
          rw [splice_cons_of_ne hu, splice_append, splice_singleton, splice_of_not_mem hcf, hpost]
          rfl
    · exact hthere hc
  · rw [splice_of_not_mem hm] at he
    subst he
    exact ⟨b, pre', post', hxs, DataFlow.reroute_of_ne hb, splice_of_not_mem fun hm' =>
      hm (List.mem_append_right _ hm')⟩

theorem dominated : f'.Dominated entry := by
  have hf := h.trim.toFormed
  constructor
  · intro b pre' u post' inst' v hcon hxs' hu' hop hv
    obtain ⟨hne, inst, hinst, rfl⟩ := h'.inst_of h hu'
    rw [Inst.op_mapBlocks] at hop
    rw [Inst.args_mapBlocks] at hv
    have hplace : ∃ a pre post, f.insts a = .ok (pre ++ u :: post) ∧ reroute block pred a = b ∧
        splice term ys (u :: post) = u :: post' := h'.place_of h hxs' hne
    obtain ⟨a, pre, post, ha, rfl, hpost⟩ := hplace
    have hspot : f.Spot f.Leads entry a (u :: post) :=
      ⟨h.trim.reached a (Layout.mem_blocks_iff.2 ⟨_, ha⟩), pre, ha⟩
    rw [← hpost]
    exact .inl (h'.avail h hspot (h.trim.arg_avail ha hinst hop hv))
  · intro b xs' u inst' v p' hcon hxs' hu hu' hop hv hp'
    obtain ⟨hne, inst, hinst, rfl⟩ := h'.inst_of h hu'
    obtain ⟨hb, xs, hxs, rfl⟩ := h'.insts_of h hxs'
    rw [Inst.op_mapBlocks] at hop
    obtain ⟨p, hp, rfl⟩ := Inst.edges_mapBlocks hv
    have hphi : f.flow.isPhi u = true := (DataFlow.isPhi_of_inst hinst).trans hop
    have hux : u ∈ xs := by
      rcases mem_splice hu with ⟨hu, -⟩ | ⟨hu, -⟩
      · exact hu
      · rw [h.bare u hu] at hphi
        cases hphi
    have hlead : f.Leads p b :=
      ((hf.shape.phi_edges hxs hux hphi hinst).2 p).1 (Inst.block_of_edge hp)
    obtain ⟨zs, hzs⟩ := Layout.mem_blocks_iff.1 hlead.mem_blocks
    have hspot : f.Spot f.Leads entry p [] :=
      ⟨h.trim.reached p hlead.mem_blocks, zs, by rw [List.append_nil]; exact hzs⟩
    exact .inl (h'.avail h hspot (h.trim.edge_avail hxs hux hinst hop hp))

theorem trim : f'.Trim entry where
  toFormed := h'.formed h
  typed := h'.typed h
  dominated := h'.dominated h
  source a hl := by
    obtain ⟨-, q, hq, -⟩ := (h'.leads_iff h).1 hl
    exact h.trim.source q hq
  phis {b xs' i} _ hxs' hi hphi := by
    obtain ⟨-, xs, hxs, rfl⟩ := h'.insts_of h hxs'
    rw [h'.result?]
    rcases mem_splice hi with ⟨hi, hne⟩ | ⟨hi, -⟩
    · exact h.trim.phi_yields hxs hi ((h'.isPhi hne).symm.trans hphi)
    · rw [h'.isPhi fun he => h.term_not_there (he ▸ hi), h.bare i hi] at hphi
      cases hphi
  last {i} hterm := by
    obtain ⟨inst', hinst'⟩ := DataFlow.inst_of_isTerminator hterm
    have hne := (h'.inst_of h hinst').1
    rw [h'.result?]
    exact h.trim.last ((h'.isTerminator hne).symm.trans hterm)
  reached b hb := by
    rw [h'.blocks, List.mem_filter, decide_eq_true_eq] at hb
    have := h'.connects h (h.trim.reached b hb.1)
    rwa [DataFlow.reroute_of_ne hb.2] at this

theorem tidy (ht : f.Tidy entry) : f'.Tidy entry := ⟨(h'.trim h).toNeat, h'.noCopies h ht.noCopies⟩

theorem split_phis {b : BlockId} {xs : List InstId} (hxs : f.insts b = .ok xs) :
    (splice term ys xs).takeWhile f'.flow.isPhi = xs.takeWhile f.flow.isPhi ∧
      (splice term ys xs).dropWhile f'.flow.isPhi = splice term ys (xs.dropWhile f.flow.isPhi) := by
  obtain ⟨-, hplain, hsplit⟩ := h.trim.body_of_block hxs
  have hne : ∀ {i}, f.flow.isPhi i = true → i ≠ term := by
    rintro i hi rfl
    rw [not_phi_of_terminator h.isTerminator_term] at hi
    cases hi
  have hphis := List.all_eq_true.1 (List.all_takeWhile (p := f.flow.isPhi) (l := xs))
  have hhead : ∀ i ∈ xs.takeWhile f.flow.isPhi, f'.flow.isPhi i = true := fun i hi =>
    (h'.isPhi (hne (hphis i hi))).trans (hphis i hi)
  have htail : ∀ i ∈ splice term ys (xs.dropWhile f.flow.isPhi), ¬ f'.flow.isPhi i = true := by
    intro i hi
    rcases mem_splice hi with ⟨hi, hi'⟩ | ⟨hi, -⟩
    · rw [h'.isPhi hi', hplain i hi]
      exact Bool.false_ne_true
    · rw [h'.isPhi fun he => h.term_not_there (he ▸ hi), h.bare i hi]
      exact Bool.false_ne_true
  have heq : splice term ys xs = xs.takeWhile f.flow.isPhi ++
      splice term ys (xs.dropWhile f.flow.isPhi) := by
    conv => lhs; rw [hsplit]
    rw [splice_append, splice_of_not_mem fun hm => hne (hphis _ hm) rfl]
  rw [heq]
  exact ⟨takeWhile_split hhead htail, dropWhile_split hhead htail⟩

theorem incoming?_eq {b p : BlockId} {xs : List InstId} {phi : InstId} {v : ValueId}
    (hb : b ≠ block) (hxs : f.insts b = .ok xs) (hphi : phi ∈ xs) (hisPhi : f.flow.isPhi phi = true)
    (hv : f.flow.incoming? phi p = .ok (some v)) :
    f'.flow.incoming? phi (reroute block pred p) = .ok (some v) := by
  obtain ⟨inst, hinst⟩ := h.trim.coherent.inst_of_mem hxs hphi
  have hne : phi ≠ term := by
    rintro rfl
    rw [not_phi_of_terminator h.isTerminator_term] at hisPhi
    cases hisPhi
  have hinst' : f'.flow.inst? phi = some (inst.mapBlocks (reroute block pred)) := by
    rw [h'.inst? hne, hinst, Option.map_some]
  exact DataFlow.incoming?_of_edge hinst' (h'.phi_edges h hb hxs hphi hisPhi hinst).1
    (Inst.mem_edges_mapBlocks _ (DataFlow.edge_of_incoming? hinst hv))

theorem origin?_eq {i : InstId} {inst : Inst} (hi : f.flow.inst? i = some inst) :
    ∀ v ∈ inst.args, f'.flow.origin? v = f.flow.origin? v := by
  intro v hv
  obtain ⟨o, ho⟩ := h.trim.coherent.flow.operand hi hv
  rw [ho, h'.origin? ho]

theorem resultWidth?_eq (i : InstId) : Frame.resultWidth? f' i = Frame.resultWidth? f i :=
  Frame.resultWidth?_congr h.trim.coherent.flow (h'.result? i) fun _ ho => h'.origin? ho

theorem follows {E : BlockId → BlockId → Prop} (hf : f.Orderly E entry) :
    f.Follows f' E entry fun b rest b' rest' => b' = reroute block pred b ∧
    rest' = splice term ys rest := by
  have hterm : ∀ {b pre i rest}, f.insts b = .ok (pre ++ i :: rest) → rest ≠ [] → i ≠ term := by
    rintro b pre i rest hxs hne rfl
    exact hne ((hf.terminator_iff hxs).1 h.isTerminator_term)
  refine ⟨?_, ?_, ?_⟩
  · rintro b pre i rest b' ys' inst hcon hxs hne ⟨rfl, rfl⟩ hinst hop
    have hi := hterm hxs hne
    exact ⟨splice term ys rest, splice_cons_of_ne hi, ⟨rfl, rfl⟩,
      h'.inst_of_plain h hinst hop hi, h'.result? i, h'.resultWidth?_eq h i, h'.origin?_eq h hinst⟩
  · rintro b pre i b' ys' x hcon hxs ⟨rfl, rfl⟩ hinst
    have hi : i ≠ term := by
      rintro rfl
      rw [h.jump] at hinst
      cases hinst
    exact ⟨i, [], splice_cons_of_ne hi, h'.inst_of_plain h hinst rfl hi,
      h'.origin?_eq h hinst x List.mem_cons_self⟩
  · rintro s s' t i inst c xs hsits hrest hholds ⟨hblock, hrest'⟩ hinst hgoes hE hent
    obtain ⟨pre, hpre⟩ := hsits.suffix
    rw [hrest] at hpre
    have hi' : i ∈ pre ++ [i] := List.mem_append_right _ List.mem_cons_self
    by_cases hi : i = term
    · -- The jump is gone, and the second function is there already.
      subst hi
      rw [h.jump] at hinst
      cases hinst
      cases hgoes
      have hxs := hent.insts
      rw [h.there] at hxs
      cases hxs
      have hbp := h.term_mem hpre hi'
      have hnone : ys.takeWhile f.flow.isPhi = [] ∧ ys.dropWhile f.flow.isPhi = ys := by
        have hbare : ∀ j ∈ ys, ¬ f.flow.isPhi j = true :=
          fun j hj => Bool.eq_false_iff.1 (h.bare j hj)
        have hnil : ∀ j ∈ ([] : List InstId), f.flow.isPhi j = true := nofun
        exact ⟨takeWhile_split hnil hbare, dropWhile_split hnil hbare⟩
      refine ⟨0, s', rfl, ⟨fun {w o} ho => ?_, hholds.memory.trans hent.memory.symm,
        hholds.activation.trans hent.activation.symm⟩, ?_, ?_⟩
      · rw [hholds.values ho, hent.kept w fun phi hphi => ?_]
        rw [hnone.1] at hphi
        cases hphi
      · rw [hblock, hent.block, hbp, DataFlow.reroute_of_ne h.ne, reroute, if_pos rfl]
      · rw [hrest', hent.rest, hnone.2, splice_singleton, splice_of_not_mem h.term_not_there]
    · have hterm := hf.goes_terminator hinst hgoes
      have hop : inst.op.isPhi = false :=
        Opcode.not_phi_of_terminator ((DataFlow.isTerminator_of_inst hinst).symm.trans hterm)
      have hinst' := h'.inst_of_plain h hinst hop hi
      have hc : c ≠ block := fun he => h.not_named hinst hop hi (he ▸ hgoes.reads.2)
      obtain ⟨htake, hdrop⟩ := h'.split_phis h hent.insts
      have hphis : ∀ phi ∈ xs.takeWhile f.flow.isPhi, f.flow.isPhi phi = true :=
        List.all_eq_true.1 List.all_takeWhile
      obtain ⟨t', hent', hh, hbl, hr⟩ :=
        (show s.Holds f { s' with rest := [] } from ⟨hholds.1, hholds.2, hholds.3⟩).enter
          hf.coherent h'.coherent hent (h'.insts_eq h hc hent.insts) htake (fun phi _ =>
          h'.result? phi)
        (fun phi hphi v hv => by
          have hx := (List.takeWhile_prefix _).subset hphi
          refine ⟨?_, ?_⟩
          · show f'.flow.incoming? phi s'.block = _
            rw [hblock]
            exact h'.incoming?_eq h hc hent.insts hx (hphis phi hphi) hv
          · obtain ⟨p, hp⟩ := h.trim.coherent.inst_of_mem hent.insts hx
            exact h'.origin?_eq h hp v (Inst.arg_of_edge (DataFlow.edge_of_incoming? hp hv))) i
      have hmove : s'.step f' = .ok (.next t') :=
        Frame.step_next_iff.2 (.enters (hrest'.trans (splice_cons_of_ne hi)) hinst'
          (hholds.goes hf.coherent hinst (h'.origin?_eq h hinst) hgoes) hent')
      refine ⟨1, t', by rw [Frame.run, hmove]; rfl, hh, ?_, ?_⟩
      · rw [hbl, hent.block, DataFlow.reroute_of_ne hc]
      · rw [hr, hent.rest, hdrop]

theorem returns (ht : f.Tidy entry) {args : List Datum} {d : Datum} (hd : f.Returns args d) :
    f'.Returns args d := by
  obtain ⟨E, hs⟩ := hd.serves ht.regular ht.dominated
  obtain ⟨xs, hxs⟩ := Layout.mem_blocks_iff.1 (Func.entry_mem h.trim.starts)
  exact (h'.follows h hs.1).returns hs h'.params (h'.formed h).starts hxs
    (h'.insts_eq h h.entry_ne hxs) ⟨(DataFlow.reroute_of_ne h.entry_ne).symm, rfl⟩

end Merged

end Func

namespace Func

variable {f : Func} {entry block pred : BlockId} {front xs : List InstId} {term : InstId}

theorem Continues.phi (h : f.Continues block pred front term) (ht : f.Trim entry) {phi : InstId}
    (hxs : f.insts block = .ok xs) (hphi : phi ∈ xs) (hisPhi : f.flow.isPhi phi = true) :
    ∃ inst r v, f.flow.inst? phi = some inst ∧ inst.op.isPhi = true ∧ f.flow.result? phi = some r ∧
      f.flow.incoming? phi pred = .ok (some v) ∧ v ∈ inst.args ∧ v ≠ r ∧
      ∀ x ∈ inst.args, x = v := by
  have hf := ht.toFormed
  obtain ⟨inst, hinst⟩ := hf.coherent.inst_of_mem hxs hphi
  have hop : inst.op.isPhi = true := (DataFlow.isPhi_of_inst hinst).symm.trans hisPhi
  obtain ⟨r, hr⟩ := ht.phi_yields hxs hphi hisPhi
  obtain ⟨hn, hpreds⟩ := hf.shape.phi_edges hxs hphi hisPhi hinst
  have hform : ∃ op args preds, inst = .phi op args preds := by
    obtain ⟨args, preds, he⟩ := Verify.phi_of_form (hf.forms hinst) hop
    exact ⟨_, args, preds, he⟩
  have heven := hf.coherent.flow.even hinst
  have hin : ∀ x ∈ inst.args, f.flow.incoming? phi pred = .ok (some x) := by
    intro x hx
    rw [← heven.args hform, List.mem_map] at hx
    obtain ⟨⟨_, p⟩, he, rfl⟩ := hx
    have hp := h.sole ((hpreds p).1 (Inst.block_of_edge he))
    subst hp
    exact DataFlow.incoming?_of_edge hinst hn he
  obtain ⟨v, hv, hne⟩ := ht.phi_merges hxs hphi hinst hop hr
  refine ⟨inst, r, v, hinst, hop, hr, hin v hv, hv, hne, fun x hx => ?_⟩
  have := (hin x hx).symm.trans (hin v hv)
  exact Option.some.inj (Except.ok.inj this)

end Func

namespace Builder

variable {b c : Builder} {entry block pred : BlockId} {front rest : List InstId} {term : InstId}

/-- What resolving the first phis of a block leaves. -/
structure Resolved (b : Builder) (entry block pred : BlockId) (front rest : List InstId)
    (term : InstId) (c : Builder) :
    Prop where
  trim : c.func.Trim entry
  continues : c.func.Continues block pred front term
  there : c.func.insts block = .ok rest
  isPhi : ∀ i ∈ rest, c.flow.isPhi i = b.flow.isPhi i
  tidy : b.func.Tidy entry → c.func.Tidy entry
  returns : b.func.Tidy entry → ∀ {args d}, b.func.Returns args d → c.func.Returns args d
  blocks : c.func.blocks = b.func.blocks
  weight : c.flow.weight ≤ b.flow.weight

theorem Resolved.step {phi : InstId} (h : b.Resolved entry block pred front (phi :: rest) term c)
    (hphi : b.flow.isPhi phi = true) :
    ∃ d, FlowSimplification.resolvePhi pred c phi = .ok d ∧
      b.Resolved entry block pred front rest term d := by
  have hcoh := h.trim.coherent
  have hisPhi := (h.isPhi phi List.mem_cons_self).trans hphi
  obtain ⟨inst, r, v, hinst, hop, hr, hin, hv, hne, hall⟩ :=
    h.continues.phi h.trim h.there List.mem_cons_self hisPhi
  obtain ⟨c', d, hc', hd, hgone⟩ :=
    replacePhi_ok h.trim h.there List.mem_cons_self hinst hop hr hv hne fun x hx => .inl (hall x hx)
  have hterm : term ≠ phi := by
    rintro rfl
    exact Bool.false_ne_true ((DataFlow.isPhi_of_inst h.continues.jump).symm.trans hisPhi)
  have hnd := hcoh.layout.insts_nodup h.there
  refine ⟨d, ?_, hgone.trim,
    ⟨h.continues.ne, ?_, ?_, fun hl => h.continues.sole (hgone.leads ▸ hl)⟩, ?_,
    fun i hi => ?_, fun ht => hgone.tidy (h.tidy ht),
    fun ht _ _ hd => hgone.returns (h.tidy ht) (h.returns ht hd), hgone.blocks.trans h.blocks, ?_⟩
  · have hresult : c.flow.result phi = .ok r := DataFlow.result_eq_ok.2 hr
    unfold FlowSimplification.resolvePhi
    rw [hresult, ok_bind, show c.flow.incoming? phi pred = _ from hin, ok_bind]
    simp only [if_neg hne, hc', ok_bind, hd]
  · rw [hgone.insts, h.continues.here, map_ok, List.filter_eq_self.2]
    rintro i hi
    refine decide_eq_true fun he => h.continues.ne ?_
    exact hcoh.layout.one_block h.continues.here h.there hi (he ▸ List.mem_cons_self)
  · rw [show d.func.flow.inst? term = _ from hgone.inst? term, if_neg hterm,
      show c.flow.inst? term = _ from h.continues.jump]
    rfl
  · rw [hgone.insts, h.there, map_ok, List.filter_cons_of_neg (by simp), List.filter_eq_self.2]
    exact fun i hi => decide_eq_true fun he => (List.nodup_cons.1 hnd).1 (he ▸ hi)
  · have hip : i ≠ phi := fun he => (List.nodup_cons.1 hnd).1 (he ▸ hi)
    rw [← h.isPhi i (List.mem_cons_of_mem _ hi)]
    unfold DataFlow.isPhi DataFlow.op?
    rw [hgone.inst?, if_neg hip, Option.map_map]
    congr 2
    funext inst
    exact Inst.op_mapArgs _ _
  · have hw := hgone.weight
    have hw' := h.weight
    omega

theorem resolvePhis_ok (ht : b.func.Trim entry) (hc : b.func.Continues block pred front term)
    {phis : List InstId} (hxs : b.func.insts block = .ok (phis ++ rest))
    (hphis : ∀ i ∈ phis, b.flow.isPhi i = true) :
    ∃ c, phis.foldlM (FlowSimplification.resolvePhi pred) b = .ok c ∧
      b.Resolved entry block pred front rest term c := by
  have hfold := foldlM_yields (f := FlowSimplification.resolvePhi pred) (l := phis) (b := b)
    (fun done c => ∃ left, phis = done ++ left ∧
    b.Resolved entry block pred front (left ++ rest) term c) ?_ ?_
  · obtain ⟨c, hc', left, hleft, hres⟩ := hfold
    obtain rfl : left = [] := List.self_eq_append_right.1 hleft
    exact ⟨c, hc', hres⟩
  · exact ⟨phis, rfl, ht, hc, hxs, fun _ _ => rfl, id, fun _ _ _ => id, rfl, Nat.le_refl _⟩
  · rintro done phi post c hsplit ⟨left, hleft, hres⟩
    obtain rfl : left = phi :: post := List.append_cancel_left (hleft.symm.trans hsplit)
    obtain ⟨d, hd, hres'⟩ :=
      hres.step (hphis phi (hsplit ▸ List.mem_append_right _ List.mem_cons_self))
    exact ⟨d, hd, post, by rw [hsplit, List.append_assoc]; rfl, hres'⟩

/-- The instructions `moved` of `block` have gone to the end of `pred`. -/
structure Moved (b : Builder) (block pred : BlockId) (front moved left : List InstId)
    (c : Builder) : Prop where
  coherent : c.func.Coherent
  flow : c.flow = b.flow
  alike : Func.Alike b.func c.func
  here : c.func.insts pred = .ok (front ++ moved)
  there : c.func.insts block = .ok left
  others : ∀ {d}, d ≠ pred → d ≠ block → c.func.insts d = b.func.insts d

theorem moveAll_yields (hb : b.func.Coherent) (hne : pred ≠ block)
    (hhere : b.func.insts pred = .ok front) {ys : List InstId}
    (hthere : b.func.insts block = .ok ys) :
    (ys.foldlM (fun (b : Builder) i => b.moveToEnd i pred) b : Run Builder).Yields
      (b.Moved block pred front ys []) := by
  refine (Run.yields_foldlM (fun moved c => ∃ left, ys = moved ++ left ∧
    b.Moved block pred front moved left c) ?_ ?_).mono ?_
  · exact ⟨ys, rfl, hb, rfl, .refl _, by rw [List.append_nil]; exact hhere, hthere, fun _ _ => rfl⟩
  · rintro moved i post c hsplit ⟨left, hleft, hm⟩
    obtain rfl : left = i :: post := List.append_cancel_left (hleft.symm.trans hsplit)
    obtain ⟨d, hd, hcoh, hflow, halike, hblock, hpred, hothers⟩ :=
      moveToEnd_ok hm.coherent hm.there hm.here hne.symm
    refine Run.yields_lift ⟨d, hd, post, by rw [hsplit, List.append_assoc]; rfl, hcoh,
      hflow.trans hm.flow, hm.alike.trans halike, by rw [hpred, List.append_assoc], hblock,
      fun h₁ h₂ => ?_⟩
    exact (hothers h₂ h₁).trans (hm.others h₁ h₂)
  · rintro c ⟨left, hleft, hm⟩
    obtain rfl : left = [] := List.self_eq_append_right.1 hleft
    exact hm

end Builder

namespace Func

variable {f : Func} {entry block pred : BlockId} {front ys : List InstId} {term : InstId}
  {b₁ b₂ : Builder} {g : DataFlow}

section Rewired

variable (h : f.Mergeable entry block pred front ys term) (hs : DataFlow.Shrunk f.flow b₁.flow term)
  (hm : b₁.Moved block pred front ys [] b₂)

include h

theorem Mergeable.insts_of_shrunk
    (hi : ∀ c, b₁.func.insts c = (f.insts c).map (·.filter (· ≠ term))) :
    b₁.func.insts pred = .ok front ∧ ∀ {d}, d ≠ pred → b₁.func.insts d = f.insts d := by
  refine ⟨?_, fun {d} hd => ?_⟩
  · rw [hi, h.here, map_ok, List.filter_append, List.filter_cons_of_neg (by simp), List.filter_nil,
      List.append_nil, List.filter_eq_self.2]
    exact fun i hi => decide_eq_true fun he => h.term_not_front (he ▸ hi)
  · rw [hi]
    cases hxs : f.insts d with
    | error e => rfl
    | ok xs =>
      rw [map_ok, List.filter_eq_self.2]
      exact fun i hi => decide_eq_true fun he => hd (h.term_mem hxs (he ▸ hi))

theorem Mergeable.unnamed {g' : DataFlow}
    (hR : DataFlow.Rewired g g' fun _ inst => inst.mapBlocks (reroute block pred)) {i : InstId}
    {inst : Inst} (hi : g'.inst? i = some inst) : block ∉ inst.blocks := by
  obtain ⟨inst', -, rfl⟩ := hR.exists_inst hi
  rw [Inst.blocks_mapBlocks]
  intro hb
  obtain ⟨c, -, hc⟩ := List.mem_map.1 hb
  unfold reroute at hc
  split at hc
  · exact h.ne hc
  · exact ‹¬ c = block› hc

include hs hm

theorem Mergeable.named {i : InstId} {inst : Inst} (hi : b₂.flow.inst? i = some inst)
    (hb : block ∈ inst.blocks) :
    inst.op.isTerminator = false := by
  rw [hm.flow, hs.inst?] at hi
  split at hi
  · cases hi
  · rename_i hne
    cases hterm : inst.op.isTerminator with
    | false => rfl
    | true => exact absurd hb (h.not_named hi (Opcode.not_phi_of_terminator hterm) hne)

/-- Taking the jump out, moving the instructions, rewiring phis and removing the block merges it. -/
theorem Mergeable.merged
    (hR : DataFlow.Rewired b₂.flow g fun _ inst => inst.mapBlocks (reroute block pred))
    (hE : g.Exact) (ha : Alike f b₁.func)
    (hothers : ∀ {d}, d ≠ pred → b₁.func.insts d = f.insts d) {f' : Func} {τ : ValueId → ValueId}
    (hS : (b₂.withFlow g).func.Stripped f' [block] τ) :
    f.Merged f' block pred front ys term := by
  have hmute : f.flow.result? term = none := h.trim.last h.isTerminator_term
  -- The block is empty by now, so that no value goes with it.
  have hnone : ∀ i, ¬ (b₂.withFlow g).func.Within [block] i := by
    rintro i ⟨c, xs, hc, hxs, hi⟩
    obtain rfl := List.mem_singleton.1 hc
    rw [show (b₂.withFlow g).func.insts c = .ok [] from hm.there] at hxs
    cases hxs
    cases hi
  have hkept : ∀ {v o}, g.origin? v = some o → τ v = v ∧ f'.flow.origin? v = some o := fun ho =>
    hS.kept ho fun i hi => absurd hi (hnone i)
  have horigin : ∀ v, b₂.flow.origin? v = f.flow.origin? v := fun v => by
    rw [hm.flow, hs.origin?, hmute, if_neg nofun]
  have hinst : ∀ i, f'.flow.inst? i = g.inst? i := by
    intro i
    refine Option.ext fun inst' => ?_
    rw [hS.inst_iff]
    have hargs : ∀ {inst}, g.inst? i = some inst → inst.mapArgs τ = inst := fun hi =>
      Inst.mapArgs_eq_self fun v hv => by
        obtain ⟨o, ho⟩ := hE.operand hi hv
        exact (hkept ho).1
    constructor
    · rintro ⟨-, inst, hi, rfl⟩
      rw [hargs hi]
      exact hi
    · exact fun hi => ⟨hnone i, inst', hi, (hargs hi).symm⟩
  have hinsts : ∀ {c}, c ≠ block → f'.insts c = b₂.func.insts c := fun hc =>
    hS.insts (fun hm => hc (List.mem_singleton.1 hm))
  refine ⟨hS.coherent, hS.sig.trans (hm.alike.sig.trans ha.sig), ?_, ?_, ?_,
    (hinsts h.ne).trans hm.here,
    fun hd hb => (hinsts hb).trans ((hm.others hd hb).trans (hothers hd)), fun {i} hi => ?_,
    ?_, fun i => ?_,
    fun {v o} ho => (hkept (hR.origin? ((horigin v).trans ho))).2, fun {v o} ho => ?_⟩
  · exact hS.params.trans (hR.params.trans (hm.flow ▸ hs.params))
  · exact hS.imports.trans (hR.imports.trans (hm.flow ▸ hs.imports))
  · rw [hS.blocks, show (b₂.withFlow g).func.blocks = f.blocks from hm.alike.blocks.trans ha.blocks]
    simp only [List.mem_singleton]
  · rw [hinst, hR.inst?, hm.flow, hs.inst?, if_neg hi]
  · rw [hinst, hR.inst?, hm.flow, hs.inst?, if_pos rfl]
    rfl
  · rw [hS.result? (hnone i), show (b₂.withFlow g).func.flow.result? i = _ from hR.result? i,
      hm.flow, hs.result?]
    split
    · rename_i he
      rw [he, hmute]
    · rfl
  · rcases hS.added ho with ho | ho
    · rw [← horigin]
      exact hR.added ho
    · exact .inr ho

end Rewired

end Func

namespace FlowSimplification

variable {b : Builder} {entry block pred : BlockId} {front rest : List InstId} {term : InstId}

theorem splice_yields {ys : List InstId} (h : b.func.Mergeable entry block pred front ys term) :
    (do
      let b ← b.removeInst term
      let b ← (← b.func.insts block).foldlM (·.moveToEnd · pred) b
      let (_, flow) ← b.flow.replaceBlockUse block pred
      (b.withFlow flow).removeBlock block : Run Builder).Yields fun c =>
        b.func.Merged c.func block pred front ys term := by
  have hmute : b.flow.result? term = none := h.trim.last h.isTerminator_term
  obtain ⟨b₁, hb₁, hc₁, hs, ha, hi₁⟩ := Builder.removeInst_ok h.trim.coherent h.jump fun v hv => by
    rw [hmute] at hv
    cases hv
  obtain ⟨hhere, hothers⟩ := h.insts_of_shrunk hi₁
  refine (Run.yields_lift ⟨b₁, hb₁, rfl⟩).bind ?_
  rintro _ rfl
  have hthere := (hothers h.ne.symm).trans h.there
  refine (Run.yields_lift ⟨ys, hthere, rfl⟩).bind ?_
  rintro _ rfl
  refine (Builder.moveAll_yields hc₁ h.ne hhere hthere).bind fun b₂ hm => ?_
  obtain ⟨n, g, hg, hE, hR⟩ := DataFlow.replaceBlockUse_ok hm.coherent.flow h.ne.symm fun hi hb =>
    h.named hs hm hi hb
  refine (Run.yields_lift ⟨(n, g), hg, rfl⟩).bind ?_
  rintro _ rfl
  obtain ⟨c, τ, hc, hS⟩ := Builder.removeBlock_ok (b := b₂.withFlow g) (hm.coherent.rewire hE hR)
    (Layout.mem_blocks_iff.2 ⟨[], hm.there⟩) fun hi => h.unnamed hR hi
  exact Run.yields_lift ⟨c, hc, h.merged hs hm hR hE ha hothers hS⟩

theorem mergeInto_yields (ht : b.func.Trim entry) (hc : b.func.Continues block pred front term) :
    (mergeInto b block pred term).Yields fun c =>
      b.Eased c entry true ∧ c.func.Trim entry ∧ c.func.blocks = b.func.blocks.filter
        (· ≠ block) := by
  obtain ⟨xs, hxs⟩ := Layout.mem_blocks_iff.1 (ht.shape.targets hc.jump block List.mem_cons_self)
  obtain ⟨-, hplain, hsplit⟩ := ht.body_of_block hxs
  unfold mergeInto
  refine (Run.yields_log (P := fun _ => True) trivial).bind fun _ _ => ?_
  have hphis : b.func.phis block = .ok (xs.takeWhile b.func.flow.isPhi) := by
    unfold Func.phis
    rw [show b.func.insts block = .ok xs from hxs, ok_bind]
  refine (Run.yields_lift ⟨_, hphis, rfl⟩).bind ?_
  rintro _ rfl
  rw [hsplit] at hxs
  obtain ⟨c, hc', hres⟩ := Builder.resolvePhis_ok ht hc hxs (List.all_eq_true.1 List.all_takeWhile)
  refine (Run.yields_lift ⟨c, hc', rfl⟩).bind ?_
  rintro _ rfl
  have hmerge : c.func.Mergeable entry block pred front _ term :=
    ⟨hres.continues, hres.trim, hres.there, fun i hi =>
      (hres.isPhi i hi).trans (hplain i hi)⟩
  refine (splice_yields hmerge).mono fun d hmerged => ?_
  have htrim := hmerged.trim hmerge
  have hblocks : d.func.blocks = b.func.blocks.filter (· ≠ block) := by
    rw [hmerged.blocks, hres.blocks]
  refine ⟨⟨htrim.toNeat, fun htidy => hmerged.tidy hmerge (hres.tidy htidy), fun htidy _ _ hd =>
    hmerged.returns hmerge (hres.tidy htidy) (hres.returns htidy hd), ?_, nofun⟩, htrim, hblocks⟩
  have hlen : d.func.blocks.length < b.func.blocks.length := by
    rw [hblocks]
    exact List.length_filter_lt_length_iff_exists.2 ⟨block,
      Layout.mem_blocks_iff.2 ⟨_, hxs⟩, by simp⟩
  have hweight : d.func.flow.weight ≤ b.func.flow.weight :=
    (hmerged.weight hmerge).trans hres.weight
  simp only [Func.extent, Bool.toNat_true]
  omega

theorem mergeTarget?_ok {f : Func} (hf : f.Formed entry) (hb : block ∈ f.blocks) :
    ∃ r, mergeTarget? f block = .ok r ∧
      ∀ pred term, r = some (pred, term) → ∃ front, f.Continues block pred front term := by
  obtain ⟨e, he, hsnap⟩ := Edges.ofFunc_ok f
  obtain ⟨ps, hps, hmem⟩ := hsnap.preds block hb
  unfold mergeTarget?
  rw [he, ok_bind, hps, ok_bind]
  match ps with
  | [] => exact ⟨none, rfl, nofun⟩
  | p :: q :: ps => exact ⟨none, rfl, nofun⟩
  | [pred] =>
    have hl : f.Leads pred block := (hmem pred).1 List.mem_cons_self
    obtain ⟨xs, hxs⟩ := Layout.mem_blocks_iff.1 hl.mem_blocks
    obtain ⟨front, t, rfl, hterm, -⟩ := hf.shape.ended hxs
    obtain ⟨inst, hinst⟩ := DataFlow.inst_of_isTerminator hterm
    have hterm' : inst.op.isTerminator = true :=
      (DataFlow.isTerminator_of_inst hinst).symm.trans hterm
    have hsucc : e.isSoleSucc block pred = .ok (inst.blocks.eraseDups.all (· = block)) := by
      unfold Edges.isSoleSucc
      rw [hsnap.succs pred hl.mem_blocks, Func.successors_last hxs hinst hterm', ok_bind]
    dsimp only
    rw [hsucc, Func.terminator?_last hxs hterm]
    split
    · exact ⟨none, rfl, nofun⟩
    · rename_i hne
      cases hall : inst.blocks.eraseDups.all (· = block) with
      | false => exact ⟨none, rfl, nofun⟩
      | true =>
        refine ⟨_, rfl, fun pred' term he => ?_⟩
        split at he
        · rename_i hop
          cases he
          have hop : inst.op = .br := Option.some.inj ((DataFlow.op?_eq_some hinst).symm.trans hop)
          obtain ⟨c, rfl⟩ := Verify.jump_of_form (hf.forms hinst) hop
          have hc := (Func.leads_last_iff hxs hinst hterm').1 hl
          rw [← List.mem_singleton.1 hc] at hinst
          exact ⟨front, hne, hxs, hinst, fun hp => List.mem_singleton.1 ((hmem _).2 hp)⟩
        · cases he

theorem mergeBlocks_yields (ht : b.func.Trim entry) :
    (mergeBlocks b).Yields fun r => b.Eased r.2 entry r.1 := by
  unfold mergeBlocks
  refine (Run.yields_lift ⟨entry, ht.starts, rfl⟩).bind ?_
  rintro _ rfl
  refine (Run.yields_foldlM (fun done (r : Bool × Builder) => b.Eased r.2 entry r.1 ∧
    r.2.func.Trim entry ∧
    ∀ c ∈ b.func.blocks, c ∉ done → c ∈ r.2.func.blocks) ⟨.refl ht.toNeat, ht,
    fun c hc _ => hc⟩ ?_).mono fun _ h => h.1
  rintro done block post ⟨modified, c⟩ he ⟨hc, htrim, hleft⟩
  have hsplit : block ∈ b.func.blocks ∧ block ∉ done := by
    have hnd := (ht.coherent.layout.blocks_nodup).filter (· ≠ entry)
    rw [show b.func.layout.blocks.filter (· ≠ entry) = _ from he] at hnd
    refine ⟨(List.mem_filter.1 (he ▸ List.mem_append_right _ List.mem_cons_self)).1, fun hd => ?_⟩
    exact (List.nodup_append.1 hnd).2.2 _ hd _ List.mem_cons_self rfl
  obtain ⟨r, hr, hcont⟩ := mergeTarget?_ok htrim.toFormed (hleft block hsplit.1 hsplit.2)
  refine (Run.yields_lift ⟨r, hr, rfl⟩).bind ?_
  rintro _ rfl
  match r, hcont with
  | none, _ =>
    exact Run.yields_pure ⟨hc, htrim, fun d hd hn => hleft d hd fun hm =>
      hn (List.mem_append_left _ hm)⟩
  | some (pred, term), hcont =>
    obtain ⟨front, hcont⟩ := hcont _ _ rfl
    refine (mergeInto_yields htrim hcont).bind fun c' hc' => ?_
    obtain ⟨heased, htrim', hblocks⟩ := hc'
    refine Run.yields_pure ⟨hc.step heased, htrim', fun d hd hn => ?_⟩
    rw [hblocks, List.mem_filter, decide_eq_true_eq]
    exact ⟨hleft d hd fun hm => hn (List.mem_append_left _ hm), fun he =>
      hn (List.mem_append_right _ (List.mem_singleton.2 he))⟩

end FlowSimplification

end MiddleEnd
