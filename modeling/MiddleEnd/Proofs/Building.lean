import MiddleEnd.Execution.Basic
import MiddleEnd.Proofs.Coherence

/-!
# Building functions

Whatever is added to a coherent function leaves it coherent, and a function without blocks is
coherent, so every function that is built step by step is.
-/

namespace MiddleEnd

/-- An instruction that was placed stands in one block, with the others around it. -/
theorem InsertPos.place_of_ok {pos pos' : InsertPos} {i : InstId} {l l' : Layout} (hl : l.Proper)
    (h : pos.place i l = .ok (pos', l')) :
    i ∉ l.allInsts ∧ ∃ c F pre post, l' = l.editRow c F ∧ l.insts c = .ok (pre ++ post) ∧
      F (pre ++ post) = pre ++ i :: post := by
  have hfresh : ∀ {c}, l.checkFresh i c = .ok () → i ∉ l.allInsts := by
    intro c hc
    unfold Layout.checkFresh at hc
    cases hb : l.blockOf? i with
    | none => exact hl.blockOf?_eq_none.1 hb
    | some b =>
      rw [hb] at hc
      cases hc
  have hrow : ∀ {c r}, l.row c = .ok r → l.insts c = .ok r.insts := by
    intro c r hr
    unfold Layout.insts
    rw [hr, ok_bind]
  have hhome : ∀ {j c}, l.blockOf j = .ok c →
      ∃ pre post, l.insts c = .ok (pre ++ j :: post) ∧ j ∉ pre := by
    intro j c hj
    obtain ⟨xs, hxs, hjx⟩ := hl.blockOf?_eq_some.1 (ofOption_eq_ok.1 hj)
    obtain ⟨pre, post, rfl, hpre⟩ := split_first hjx
    exact ⟨pre, post, hxs, hpre⟩
  unfold InsertPos.place at h
  cases pos with
  | none => cases h
  | append c =>
    obtain ⟨l₁, hl₁, h⟩ := bind_eq_ok.1 h
    cases h
    obtain ⟨⟨⟩, hc, hl₁⟩ := bind_eq_ok.1 hl₁
    obtain ⟨r, hr, hl₁⟩ := bind_eq_ok.1 hl₁
    cases hl₁
    exact ⟨hfresh hc, c, _, r.insts, [], rfl, by rw [List.append_nil]; exact hrow hr, by simp⟩
  | prepend c =>
    obtain ⟨l₁, hl₁, h⟩ := bind_eq_ok.1 h
    cases h
    obtain ⟨⟨⟩, hc, hl₁⟩ := bind_eq_ok.1 hl₁
    obtain ⟨r, hr, hl₁⟩ := bind_eq_ok.1 hl₁
    cases hl₁
    exact ⟨hfresh hc, c, _, [], r.insts, rfl, hrow hr, rfl⟩
  | after j =>
    obtain ⟨l₁, hl₁, h⟩ := bind_eq_ok.1 h
    cases h
    obtain ⟨c, hj, hl₁⟩ := bind_eq_ok.1 hl₁
    obtain ⟨⟨⟩, hc, hl₁⟩ := bind_eq_ok.1 hl₁
    cases hl₁
    obtain ⟨pre, post, hins, hpre⟩ := hhome hj
    refine ⟨hfresh hc, c, _, pre ++ [j], post, rfl, by rw [List.append_assoc]; exact hins, ?_⟩
    rw [List.append_assoc, List.append_assoc]
    exact placeAfter_of_split hpre
  | before j =>
    obtain ⟨l₁, hl₁, h⟩ := bind_eq_ok.1 h
    cases h
    obtain ⟨c, hj, hl₁⟩ := bind_eq_ok.1 hl₁
    obtain ⟨⟨⟩, hc, hl₁⟩ := bind_eq_ok.1 hl₁
    cases hl₁
    obtain ⟨pre, post, hins, hpre⟩ := hhome hj
    exact ⟨hfresh hc, c, _, pre, j :: post, rfl, hins, placeBefore_of_split hpre⟩

theorem DataFlow.args_of_addInst {g g' : DataFlow} {inst : Inst} {ty : Ty} {i : InstId}
    (h : g.addInst inst ty = .ok (i, g')) : ∀ v ∈ inst.args, ∃ o, g.origin? v = some o := by
  unfold DataFlow.addInst at h
  obtain ⟨g₂, hg₂, -⟩ := bind_eq_ok.1 h
  have hlink : ∀ {xs : List ValueId} {a b : DataFlow} {fault : ValueId → Fault} {j : InstId},
      xs.foldlM (fun g v => g.linkUse (fault v) v j) a = .ok b →
      ∀ v ∈ xs, ∃ o, a.origin? v = some o := by
    intro xs
    induction xs with
    | nil => intro a b fault j _ v hv; cases hv
    | cons x xs ih =>
      intro a b fault j hb v hv
      rw [List.foldlM_cons] at hb
      obtain ⟨c, hc, hb⟩ := bind_eq_ok.1 hb
      obtain ⟨o, ho⟩ := DataFlow.linkUse_of_ok hc
      rcases List.mem_cons.1 hv with rfl | hv
      · exact ⟨o, ho⟩
      · obtain ⟨c', hc', hsame, -⟩ := DataFlow.linkUse_ok ho (fault x) j
        rw [hc] at hc'
        cases hc'
        rw [← hsame.origins]
        exact ih hb v hv
  have hsame : ∀ (c : DataFlow) v, (if inst.op.isTerminator then c.touch else c).origin? v =
      c.origin? v := by
    intro c v
    split <;> rfl
  intro v hv
  rw [← hsame g]
  exact hlink hg₂ v hv

/-- The second function is the first one with one more instruction. -/
structure Func.Inserted (f f' : Func) (i : InstId) (inst : Inst) (ty : Ty)
    (v? : Option ValueId) (c : BlockId) (pre post : List InstId) : Prop where
  grown : DataFlow.Grown f.flow f'.flow i inst ty v?
  alike : Func.Alike f f'
  before : f.insts c = .ok (pre ++ post)
  here : f'.insts c = .ok (pre ++ i :: post)
  others : ∀ {d}, d ≠ c → f'.insts d = f.insts d

/-- An instruction placed where it was not keeps a function coherent. -/
theorem Func.Coherent.inserted {f : Func} (h : f.Coherent) {i : InstId} {inst : Inst} {ty : Ty}
    {v? : Option ValueId} {g : DataFlow} (hg : g.Exact)
    (hgrown : DataFlow.Grown f.flow g i inst ty v?) {c : BlockId} {F : List InstId → List InstId}
    {pre post : List InstId} (hfresh : i ∉ f.layout.allInsts) (hc : f.insts c = .ok (pre ++ post))
    (hF : F (pre ++ post) = pre ++ i :: post) :
    ({ f with flow := g, layout := f.layout.editRow c F } : Func).Coherent ∧
      f.Inserted { f with flow := g, layout := f.layout.editRow c F } i inst ty v? c pre post := by
  have hnot : i ∉ pre ++ post :=
    fun hi => hfresh ((Layout.mem_allInsts_iff h.layout.blocks_nodup).2 ⟨c, _, hc, hi⟩)
  have hmem : ∀ {j}, j ∈ pre ++ i :: post ↔ j = i ∨ j ∈ pre ++ post := by
    intro j
    simp only [List.mem_append, List.mem_cons]
    exact or_left_comm
  have hn : (pre ++ i :: post).Nodup := by
    obtain ⟨hpre, hpost, hpp⟩ := List.nodup_append.1 (h.layout.insts_nodup hc)
    rw [List.mem_append, not_or] at hnot
    refine List.nodup_append.2 ⟨hpre, List.nodup_cons.2 ⟨hnot.2, hpost⟩, fun a ha d hd => ?_⟩
    rcases List.mem_cons.1 hd with rfl | hd
    · exact fun he => hnot.1 (he ▸ ha)
    · exact hpp a ha d hd
  have hproper : (f.layout.editRow c F).Proper := by
    refine h.layout.editRow hc (by rw [hF]; exact hn) fun j hj => ?_
    rw [hF, hmem] at hj
    rcases hj with rfl | hj
    · exact .inr hfresh
    · exact .inl hj
  refine ⟨⟨hg, hproper, fun j => ?_, fun d => ?_⟩, hgrown,
    ⟨rfl, rfl, rfl, Layout.blocks_editRow _ _ _⟩, hc, ?_, fun hd => Layout.insts_editRow_ne _ hd⟩
  · show j ∈ (f.layout.editRow c F).allInsts ↔ ∃ jnst, g.inst? j = some jnst
    rw [Layout.mem_allInsts_editRow h.layout hc, hF, hmem, hgrown.inst?]
    by_cases hj : j = i
    · subst hj
      simp
    · rw [if_neg hj, ← h.placed j]
      constructor
      · rintro ((hj' | hj') | ⟨hj', -⟩)
        · exact absurd hj' hj
        · exact (Layout.mem_allInsts_iff h.layout.blocks_nodup).2 ⟨c, _, hc, hj'⟩
        · exact hj'
      · intro hj'
        by_cases hjx : j ∈ pre ++ post
        · exact .inl (.inr hjx)
        · exact .inr ⟨hj', hjx⟩
  · show d ∈ (f.layout.editRow c F).blocks ↔ _
    rw [Layout.blocks_editRow]
    exact h.known d
  · show (f.layout.editRow c F).insts c = _
    rw [Layout.insts_editRow_self _ hc, hF]

theorem Builder.insert_of_ok {b b' : Builder} (hb : b.func.Coherent) {inst : Inst}
    {ty : Ty} {i : InstId}
    (hphi : ∀ op args preds, inst = .phi op args preds → args.length = preds.length)
    (h : b.insert inst ty = .ok (i, b')) :
    b'.func.Coherent ∧ ∃ v? c pre post, b.func.Inserted b'.func i inst ty v? c pre post := by
  unfold Builder.insert at h
  obtain ⟨⟨i', g⟩, hadd, h⟩ := bind_eq_ok.1 h
  obtain ⟨⟨pos, l⟩, hplace, h⟩ := bind_eq_ok.1 h
  cases h
  obtain ⟨j, g', v?, hadd', hg', hgrown⟩ :=
    DataFlow.addInst_ok hb.flow ty (DataFlow.args_of_addInst hadd) hphi
  have hsame : DataFlow.addInst b.func.flow inst ty = .ok (i, g) := hadd
  rw [hsame] at hadd'
  cases hadd'
  obtain ⟨hfresh, c, F, pre, post, rfl, hc, hF⟩ := InsertPos.place_of_ok hb.layout hplace
  obtain ⟨hcoh, hins⟩ := hb.inserted hg' hgrown hfresh hc hF
  exact ⟨hcoh, v?, c, pre, post, hins⟩

/-- The gap between two instructions that a place stands for. -/
inductive InsertPos.Gap : InsertPos → BlockId → List InstId → List InstId → Prop where
  | append (c : BlockId) (pre : List InstId) : Gap (.append c) c pre []
  | prepend (c : BlockId) (post : List InstId) : Gap (.prepend c) c [] post
  | after (j : InstId) (c : BlockId) (pre post : List InstId) : Gap (.after j) c (pre ++ [j]) post
  | before (j : InstId) (c : BlockId) (pre post : List InstId) : Gap (.before j) c pre (j :: post)

theorem InsertPos.Gap.place_ok {pos : InsertPos} {c : BlockId} {pre post : List InstId}
    (h : pos.Gap c pre post) {l : Layout} (hl : l.Proper) (hc : l.insts c = .ok (pre ++ post))
    {i : InstId} (hi : i ∉ l.allInsts) :
    ∃ pos' F, pos.place i l = .ok (pos', l.editRow c F) ∧ F (pre ++ post) = pre ++ i :: post ∧
      pos'.Gap c (pre ++ [i]) post := by
  have hn := hl.insts_nodup hc
  cases h with
  | append =>
    refine ⟨_, _, by rw [InsertPos.place, Layout.appendInst_ok hl hi hc, ok_bind],
      by simp, .append c _⟩
  | prepend =>
    refine ⟨_, _, by rw [InsertPos.place, Layout.prependInst_ok hl hi hc, ok_bind], rfl,
      .after i c [] post⟩
  | after j _ pre =>
    have hpre : j ∉ pre := fun hm =>
      (List.nodup_append.1 (List.nodup_append.1 hn).1).2.2 j hm j List.mem_cons_self rfl
    refine ⟨_, placeAfter j i, ?_, ?_, .after i c _ post⟩
    · rw [InsertPos.place, Layout.insertAfter_ok hl hi hc (by simp), ok_bind]
    · rw [List.append_assoc, List.append_assoc]
      exact placeAfter_of_split hpre
  | before j _ _ post =>
    have hpre : j ∉ pre := fun hm => (List.nodup_append.1 hn).2.2 j hm j List.mem_cons_self rfl
    refine ⟨_, _, ?_, placeBefore_of_split hpre, .before j c _ post⟩
    rw [InsertPos.place, Layout.insertBefore_ok hl hi hc (by simp), ok_bind]

theorem Builder.insert_ok {b : Builder} (hb : b.func.Coherent) {inst : Inst} (ty : Ty)
    (hargs : ∀ v ∈ inst.args, ∃ o, b.flow.origin? v = some o)
    (hphi : ∀ op args preds, inst = .phi op args preds → args.length = preds.length) {c : BlockId}
    {pre post : List InstId} (hc : b.func.insts c = .ok (pre ++ post))
    (hgap : b.pos.Gap c pre post) :
    ∃ i b' v?, b.insert inst ty = .ok (i, b') ∧ b'.func.Coherent ∧
      b.func.Inserted b'.func i inst ty v? c pre post ∧ b'.pos.Gap c (pre ++ [i]) post := by
  obtain ⟨i, g, v?, hadd, hg, hgrown⟩ := DataFlow.addInst_ok hb.flow ty hargs hphi
  have hfresh : i ∉ b.func.layout.allInsts := by
    rw [hb.placed, hgrown.fresh]
    rintro ⟨inst, hi⟩
    cases hi
  obtain ⟨pos, F, hplace, hF, hgap'⟩ := hgap.place_ok hb.layout hc hfresh
  obtain ⟨hcoh, hins⟩ := hb.inserted hg hgrown hfresh hc hF
  refine ⟨i, ⟨_, pos⟩, v?, ?_, hcoh, hins, hgap'⟩
  unfold Builder.insert Builder.flow
  rw [hadd, ok_bind]
  dsimp only
  rw [hplace, ok_bind]

/-- The second layout is the first one with an empty row for another block, which does not come
first. -/
structure Layout.Widened (l l' : Layout) (c : BlockId) : Prop where
  fresh : c ∉ l.blocks
  blocks : ∀ {d}, d ∈ l'.blocks ↔ d ∈ l.blocks ∨ d = c
  nodup : l.blocks.Nodup → l'.blocks.Nodup
  first : ∀ {d}, l.firstBlock? = some d → l'.firstBlock? = some d
  insts : ∀ d, l'.insts d = if d = c then .ok [] else l.insts d

theorem Layout.row?_eq_none {l : Layout} {c : BlockId} (h : c ∉ l.blocks) : l.row? c = none := by
  cases hr : l.row? c with
  | none => rfl
  | some r => exact absurd (List.mem_map.2 ⟨r, row?_mem hr, row?_block hr⟩) h

theorem Layout.insts_of_row? {l l' : Layout} {c : BlockId}
    (h : ∀ d, l'.row? d = if d = c then some ⟨c, []⟩ else l.row? d) (d : BlockId) :
    l'.insts d = if d = c then .ok [] else l.insts d := by
  unfold insts row
  rw [h]
  by_cases hd : d = c
  · rw [if_pos hd, if_pos hd]
    rfl
  · rw [if_neg hd, if_neg hd]

theorem Layout.appendBlock_widened {l l' : Layout} {c : BlockId} (h : l.appendBlock c = .ok l') :
    l.Widened l' c := by
  unfold appendBlock at h
  by_cases hc : l.hasBlock c = true
  · rw [if_pos hc] at h
    cases h
  · rw [if_neg hc] at h
    cases h
    rw [hasBlock_iff] at hc
    have hnone := row?_eq_none hc
    have hblocks : (⟨l.rows ++ [⟨c, []⟩]⟩ : Layout).blocks = l.blocks ++ [c] := by simp [blocks]
    refine ⟨hc, by simp [hblocks], fun hn => ?_, fun {d} hd => ?_, insts_of_row? fun d => ?_⟩
    · rw [hblocks]
      refine List.nodup_append.2 ⟨hn, by simp, fun a ha d hd he => hc ?_⟩
      rw [List.mem_singleton.1 hd] at he
      exact he ▸ ha
    · unfold firstBlock? at hd ⊢
      rw [hblocks, List.head?_append, hd, Option.some_or]
    · unfold row? at hnone ⊢
      rw [List.find?_append]
      by_cases hd : d = c
      · subst hd
        rw [hnone, if_pos rfl]
        simp
      · have hdc : ¬ c = d := fun he => hd he.symm
        simp [hd, hdc]

theorem Layout.insertBlockAfter_widened {l l' : Layout} {c after : BlockId}
    (h : l.insertBlockAfter c after = .ok l') :
    l.Widened l' c := by
  unfold insertBlockAfter at h
  obtain ⟨r, hr, h⟩ := bind_eq_ok.1 h
  by_cases hc : l.hasBlock c = true
  · rw [if_pos hc] at h
    cases h
  rw [if_neg hc] at h
  cases h
  rw [hasBlock_iff] at hc
  have hr := ofOption_eq_ok.1 hr
  have hne : c ≠ after := fun he => hc (he ▸ List.mem_map.2 ⟨r, row?_mem hr, row?_block hr⟩)
  -- the rows split at the row of the other block
  obtain ⟨pre, post, hrows, hpre⟩ : ∃ pre post, l.rows = pre ++ r :: post ∧
      ∀ r' ∈ pre, r'.block ≠ after := by
    obtain ⟨-, pre, post, hrows, hpre⟩ := List.find?_eq_some_iff_append.1 hr
    exact ⟨pre, post, hrows, fun r' hr' => by simpa using hpre r' hr'⟩
  have hplace : rowsAfter c after l.rows = pre ++ r :: ⟨c, []⟩ :: post := by
    rw [hrows]
    clear hrows
    induction pre with
    | nil => simp [rowsAfter, row?_block hr]
    | cons r' pre ih =>
      rw [List.cons_append, rowsAfter, if_neg (hpre r' List.mem_cons_self),
        ih fun r'' hr'' => hpre r'' (List.mem_cons_of_mem _ hr''), List.cons_append]
  have hold : l.blocks = pre.map Row.block ++ r.block :: post.map Row.block := by
    simp [blocks, hrows]
  have hblocks : (⟨rowsAfter c after l.rows⟩ : Layout).blocks =
      pre.map Row.block ++ r.block :: c :: post.map Row.block := by simp [blocks, hplace]
  refine ⟨hc, fun {d} => ?_, fun hn => ?_, fun {d} hd => ?_, insts_of_row? fun d => ?_⟩
  · rw [hblocks, hold]
    simp only [List.mem_append, List.mem_cons]
    grind
  · rw [hold] at hn hc
    rw [hblocks]
    simp only [List.nodup_append, List.nodup_cons, List.mem_append, List.mem_cons] at hn hc ⊢
    grind
  · unfold firstBlock? at hd ⊢
    rw [hold] at hd
    rw [hblocks]
    cases pre with
    | nil => exact hd
    | cons r' pre => exact hd
  · have hnone := row?_eq_none hc
    unfold row? at hnone ⊢
    rw [hrows, List.find?_append, List.find?_cons] at hnone
    rw [hplace, hrows, List.find?_append, List.find?_append, List.find?_cons, List.find?_cons,
      List.find?_cons]
    by_cases hd : d = c
    · subst hd
      grind
    · have hdc : ¬ c = d := fun he => hd he.symm
      grind

/-- A block without instructions comes under a fresh number. -/
theorem Func.Arranged.widen {f : Func} (h : f.Arranged) (info : BlockInfo) {l : Layout}
    (hl : f.layout.Widened l (f.blockTable.add info).1) :
    ({ f with layout := l, blockTable := (f.blockTable.add info).2 } : Func).Arranged := by
  have hold : ∀ {d xs i}, l.insts d = .ok xs → i ∈ xs → f.layout.insts d = .ok xs := by
    intro d xs i hd hi
    rw [hl.insts] at hd
    split at hd
    · cases hd
      cases hi
    · exact hd
  have hnew : ∀ {d xs}, f.layout.insts d = .ok xs → l.insts d = .ok xs := by
    intro d xs hd
    rw [hl.insts, if_neg]
    · exact hd
    · rintro rfl
      exact hl.fresh (Layout.mem_blocks_iff.2 ⟨xs, hd⟩)
  have hnodup := hl.nodup h.layout.blocks_nodup
  refine ⟨⟨hnodup, fun {d xs} hd => ?_, fun {d d' xs xs' i} hd hd' hi hi' => ?_⟩,
    fun i => ?_, fun d => ?_⟩
  · rw [hl.insts] at hd
    split at hd
    · cases hd
      exact List.nodup_nil
    · exact h.layout.insts_nodup hd
  · exact h.layout.one_block (hold hd hi) (hold hd' hi') hi hi'
  · show i ∈ l.allInsts ↔ _
    rw [← h.placed i, Layout.mem_allInsts_iff hnodup, Layout.mem_allInsts_iff h.layout.blocks_nodup]
    constructor
    · rintro ⟨d, xs, hd, hi⟩
      exact ⟨d, xs, hold hd hi, hi⟩
    · rintro ⟨d, xs, hd, hi⟩
      exact ⟨d, xs, hnew hd, hi⟩
  · show d ∈ l.blocks ↔ (f.blockTable.add info).2.contains d = true
    have hknown : d ∈ f.layout.blocks ↔ f.blockTable.contains d = true := h.known d
    rw [hl.blocks, hknown, Table.contains_iff, Table.contains_iff, Table.get?_add]
    constructor
    · rintro (⟨a, ha⟩ | rfl)
      · exact ⟨a, by rw [if_neg (Nat.ne_of_lt (Table.get?_lt_bound ha))]; exact ha⟩
      · exact ⟨_, if_pos (Key.index_ofIndex _)⟩
    · rintro ⟨a, ha⟩
      split at ha
      · rename_i hd
        exact .inr (Key.index_inj (hd.trans (Key.index_ofIndex _).symm))
      · exact .inl ⟨a, ha⟩

theorem Func.Coherent.widen {f : Func} (h : f.Coherent) (info : BlockInfo) {l : Layout}
    (hl : f.layout.Widened l (f.blockTable.add info).1) :
    ({ f with layout := l, blockTable := (f.blockTable.add info).2 } : Func).Coherent :=
  have harranged := h.arranged.widen info hl
  ⟨h.flow, harranged.layout, harranged.placed, harranged.known⟩

theorem Builder.addBlock_of_ok {b b' : Builder} (hb : b.func.Coherent)
    {name? : Option String} {c : BlockId} (h : b.addBlock name? = .ok (c, b')) :
    b'.func.Coherent ∧ b.func.layout.Widened b'.func.layout c ∧ b'.flow = b.flow ∧
    b'.pos = b.pos := by
  unfold Builder.addBlock at h
  obtain ⟨l, hl, h⟩ := bind_eq_ok.1 h
  cases h
  have hwide := Layout.appendBlock_widened hl
  exact ⟨hb.widen _ hwide, hwide, rfl, rfl⟩

theorem Builder.addBlockAfter_of_ok {b b' : Builder} (hb : b.func.Coherent) {name : String}
    {after c : BlockId} (h : b.addBlockAfter name after = .ok (c, b')) :
    b'.func.Coherent ∧ b.func.layout.Widened b'.func.layout c ∧ b'.flow = b.flow ∧
    b'.pos = b.pos := by
  unfold Builder.addBlockAfter at h
  obtain ⟨l, hl, h⟩ := bind_eq_ok.1 h
  cases h
  have hwide := Layout.insertBlockAfter_widened hl
  exact ⟨hb.widen _ hwide, hwide, rfl, rfl⟩

/-- A graph that holds nothing but parameters. -/
structure DataFlow.Bare (g : DataFlow) : Prop where
  insts : g.insts = {}
  blockUsers : g.blockUsers = ∅
  origin : ∀ {v o}, g.origin? v = some o → ∃ ty p, o = .param ty p
  uses : ∀ v i, ¬ g.Uses v i
  params : ∀ {v}, v ∈ g.params → ∃ o, g.origin? v = some o
  nodup : g.params.Nodup

theorem DataFlow.Bare.addParam {g : DataFlow} (h : g.Bare) (ty : Ty) (p : ParamId) :
    ({ (g.addValue (.param ty p)).2 with params := g.params ++ [(g.addValue (.param ty p)).1] } :
      DataFlow).Bare := by
  have horigin : ∀ v, ({ (g.addValue (.param ty p)).2 with params := g.params ++
      [(g.addValue (.param ty p)).1] } :
      DataFlow).origin? v = if v.index = g.values.bound then some (.param ty p) else g.origin? v :=
    DataFlow.origin?_addValue g _
  have hnew : (g.addValue (.param ty p)).1.index = g.values.bound := rfl
  refine ⟨h.insts, h.blockUsers, fun {v o} hv => ?_, fun v i hu => ?_, fun {v} hv => ?_, ?_⟩
  · rw [horigin] at hv
    split at hv
    · exact ⟨ty, p, (Option.some.inj hv).symm⟩
    · exact h.origin hv
  · exact h.uses v i ((DataFlow.uses_addValue g (.param ty p) v i).1 hu)
  · rw [horigin]
    by_cases hb : v.index = g.values.bound
    · rw [if_pos hb]
      exact ⟨_, rfl⟩
    · rw [if_neg hb]
      rcases List.mem_append.1 hv with hv | hv
      · exact h.params hv
      · rw [List.mem_singleton.1 hv] at hb
        exact absurd hnew hb
  · refine List.nodup_append.2 ⟨h.nodup, by simp, fun a ha d hd he => ?_⟩
    rw [List.mem_singleton.1 hd] at he
    obtain ⟨o, ho⟩ := h.params ha
    have := DataFlow.origin?_lt_bound ho
    rw [he, hnew] at this
    omega

theorem DataFlow.Bare.exact {g : DataFlow} (h : g.Bare) : g.Exact := by
  have hinst : ∀ i, g.insts.get? i = none := by
    intro i
    rw [h.insts]
    rfl
  have hnone : ∀ {i inst}, g.inst? i ≠ some inst := by
    intro i inst hi
    unfold DataFlow.inst? at hi
    rw [hinst] at hi
    cases hi
  refine ⟨fun {v o} hv i => ⟨fun hu => absurd hu (h.uses v i), ?_⟩, fun hi => absurd hi hnone,
    fun b i => ⟨?_, ?_⟩,
    fun hi => absurd hi hnone, fun {i v} hi => ?_, fun {v ty i} hv => ?_, fun {v w o} hv _ ho => ?_,
    fun {v} hv => ?_, h.nodup⟩
  · rintro ⟨inst, hi, -⟩
    exact absurd hi hnone
  · intro hi
    unfold DataFlow.usersOfBlock at hi
    rw [h.blockUsers] at hi
    exact absurd hi KeySet.not_mem_emptyc
  · rintro ⟨inst, hi, -⟩
    exact absurd hi hnone
  · unfold DataFlow.result? at hi
    rw [hinst] at hi
    cases hi
  · obtain ⟨_, _, he⟩ := h.origin hv
    cases he
  · obtain ⟨_, _, rfl⟩ := h.origin hv
    rcases ho with ho | ho <;> cases ho
  · obtain ⟨o, ho⟩ := h.params hv
    obtain ⟨ty, p, rfl⟩ := h.origin ho
    exact ⟨ty, p, ho⟩

theorem DataFlow.bare_empty : ({} : DataFlow).Bare := by
  refine ⟨rfl, rfl, fun h => (by cases h), fun v i hu => ?_, fun h => (by cases h), List.nodup_nil⟩
  obtain ⟨us, hus, -⟩ := hu
  cases hus

theorem DataFlow.bare_ofSignature (sig : Signature) : (DataFlow.ofSignature sig).Bare := by
  unfold DataFlow.ofSignature
  exact foldl_induct (fun _ (g : DataFlow) => g.Bare) bare_empty fun _ x _ g _ h =>
    h.addParam x.1 ⟨x.2⟩

theorem Func.new_coherent (name : String) (sig : Signature) : (Func.new name sig).Coherent := by
  have hbare := DataFlow.bare_ofSignature sig
  have hno : ∀ b, (Func.new name sig).layout.insts b = .error .dataAbsent := fun _ => rfl
  refine ⟨hbare.exact, ⟨List.nodup_nil, fun h => ?_, fun h => ?_⟩,
    fun i => ⟨fun h => (by cases h), ?_⟩,
    fun b => ⟨fun h => (by cases h), ?_⟩⟩
  · rw [hno] at h
    cases h
  · rw [hno] at h
    cases h
  · rintro ⟨inst, hi⟩
    unfold DataFlow.inst? at hi
    rw [show (Func.new name sig).flow = DataFlow.ofSignature sig from rfl, hbare.insts] at hi
    cases hi
  · intro h
    cases h

theorem DataFlow.addIncoming_of_ok {g g' : DataFlow} (hg : g.Exact) {i : InstId}
    {v : ValueId} {b : BlockId} (h : g.addIncoming i v b = .ok g') :
    g'.Exact ∧ ∃ ρ, DataFlow.Rewired g g' ρ := by
  have h' := h
  unfold DataFlow.addIncoming at h'
  obtain ⟨⟨op, args, preds⟩, hlists, h'⟩ := bind_eq_ok.1 h'
  obtain ⟨g₁, hlink, -⟩ := bind_eq_ok.1 h'
  obtain ⟨o, hv⟩ := DataFlow.linkUse_of_ok hlink
  obtain ⟨g'', hg'', hE, hR⟩ := DataFlow.addIncoming_ok hg b (DataFlow.phiLists_of_ok hlists) hv
  rw [h] at hg''
  cases hg''
  exact ⟨hE, _, hR⟩

theorem Func.Coherent.addImport {f : Func} (h : f.Coherent) (name : String) (sig : Signature) :
    ({ f with flow := (f.flow.addImport name sig).2 } : Func).Coherent := by
  unfold DataFlow.addImport
  split
  · exact h
  · exact ⟨h.flow.congr rfl rfl rfl rfl, h.layout, h.placed, h.known⟩

/-- A step in building a function. -/
inductive Edit where
  | block (name? : Option String)
  | goTo (pos : InsertPos)
  | const (w : Word)
  | undef (ty : Ty)
  | declare (name : String) (sig : Signature)
  | insert (inst : Inst) (ty : Ty)
  | edge (phi : InstId) (v : ValueId) (b : BlockId)

namespace Edit

def apply (b : Builder) : Edit → Checked Builder
  | block name? => return (← b.addBlock name?).2
  | goTo pos => return b.goTo pos
  | const w => return b.withFlow (b.flow.const w).2
  | undef ty => return b.withFlow (b.flow.undef ty).2
  | declare name sig => return b.withFlow (b.flow.addImport name sig).2
  | insert inst ty => return (← b.insert inst ty).2
  | edge phi v p => return b.withFlow (← b.flow.addIncoming phi v p)

def fits : Edit → Bool
  | insert (.phi _ args preds) _ => args.length == preds.length
  | _ => true

theorem apply_coherent {b b' : Builder} (hb : b.func.Coherent) {e : Edit} (he : e.fits = true)
    (h : e.apply b = .ok b') : b'.func.Coherent := by
  have hshared : ∀ {o : ValueDef}, o.isConst = true ∨ o.isUndef = true →
      (b.withFlow (b.flow.shared o).2).func.Coherent := by
    intro o ho
    obtain ⟨v, g, hg, -, hE, hR⟩ := DataFlow.shared_ok hb.flow ho
    have hg : b.flow.shared o = (v, g) := hg
    rw [hg]
    exact hb.rewire hE hR
  cases e with
  | block name? =>
    rw [apply] at h
    obtain ⟨⟨c, b₁⟩, h₁, h⟩ := bind_eq_ok.1 h
    cases h
    exact (Builder.addBlock_of_ok hb h₁).1
  | goTo pos =>
    cases h
    exact hb
  | const w =>
    cases h
    exact hshared (.inl rfl)
  | undef ty =>
    cases h
    exact hshared (.inr rfl)
  | declare name sig =>
    cases h
    exact Func.Coherent.addImport hb name sig
  | insert inst ty =>
    rw [apply] at h
    obtain ⟨⟨i, b₁⟩, h₁, h⟩ := bind_eq_ok.1 h
    cases h
    refine (Builder.insert_of_ok hb ?_ h₁).1
    rintro op args preds rfl
    simpa [fits] using he
  | edge phi v p =>
    rw [apply] at h
    obtain ⟨g, hg, h⟩ := bind_eq_ok.1 h
    cases h
    obtain ⟨hE, ρ, hR⟩ := DataFlow.addIncoming_of_ok hb.flow hg
    exact hb.rewire hE hR

end Edit

/-- The function that some steps build. -/
def Func.build (name : String) (sig : Signature) (edits : List Edit) : Checked Builder :=
  edits.foldlM Edit.apply { func := .new name sig }

theorem Func.build_coherent {name : String} {sig : Signature} {edits : List Edit} {b : Builder}
    (he : edits.all Edit.fits = true) (h : Func.build name sig edits = .ok b) :
    b.func.Coherent := by
  refine foldlM_ok_induct (fun _ (c : Builder) => c.func.Coherent) h (Func.new_coherent name sig) ?_
  intro pre e post c c' hl hc hstep
  refine Edit.apply_coherent hc (List.all_eq_true.1 he e ?_) hstep
  rw [hl]
  exact List.mem_append_right _ List.mem_cons_self

/-- A word of 32 bits. -/
def Word.int32 (n : Nat) : Word := wrap 32 (by decide) n

def Func.result? (f : Func) (args : List Datum) (n : Nat) : Option Datum :=
  match Frame.start f args with
  | .ok s =>
    match s.run f n with
    | .ok (.done d?) => d?
    | _ => none
  | .error _ => none

theorem Func.returns_of_result? {f : Func} {args : List Datum} {n : Nat} {d : Datum}
    (h : f.result? args n = some d) :
    f.Returns args d := by
  unfold Func.result? at h
  split at h
  · rename_i s hs
    split at h
    · rename_i d? hd
      exact ⟨s, n, hs, by rw [hd, h]⟩
    · cases h
  · cases h

def Func.phisYield (f : Func) : Bool :=
  f.layout.rows.all fun r => r.insts.all fun i => !f.flow.isPhi i || (f.flow.result? i).isSome

theorem Func.result_of_phisYield {f : Func} (h : f.phisYield = true) {c : BlockId}
    {phis : List InstId} (hp : f.phis c = .ok phis) :
    ∀ i ∈ phis, ∃ r, f.flow.result? i = some r := by
  intro i hi
  obtain ⟨xs, hxs, he⟩ := bind_eq_ok.1 hp
  cases he
  obtain ⟨r, hr, rfl⟩ := Layout.insts_eq_ok.1 hxs
  have hphi : f.flow.isPhi i = true := List.all_eq_true.1 List.all_takeWhile i hi
  have hyields := List.all_eq_true.1 (List.all_eq_true.1 h r (Layout.row?_mem hr)) i
    ((List.takeWhile_prefix _).subset hi)
  rw [hphi] at hyields
  exact Option.isSome_iff_exists.1 (by simpa using hyields)

theorem ty_ne_of_all {g : DataFlow} {ty : Ty} (h : g.values.toList.all (·.2.origin.ty ≠ ty) = true)
    (v : ValueId) :
    g.ty v ≠ .ok ty := by
  intro hv
  obtain ⟨o, ho, hty⟩ := DataFlow.ty_eq_ok.1 hv
  obtain ⟨e, he, rfl⟩ := DataFlow.origin?_eq_some.1 ho
  have := List.all_eq_true.1 h (v, e) (Table.mem_toList.2 he)
  exact absurd hty (by simpa using this)

end MiddleEnd
