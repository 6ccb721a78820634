import MiddleEnd.Execution.Basic
import MiddleEnd.Proofs.Verification

/-!
# Runs

A step that goes on sets the result of an instruction, writes to memory, writes a register or enters
a block. A run is followed from frame to frame, along edges that are given beforehand: those which
runs that come to an end take.
-/

namespace MiddleEnd

namespace Frame

/-- Instruction `i` yields the datum in a frame. -/
inductive Gives (f : Func) (s : Frame) (i : InstId) : Inst → Datum → Prop where
  | alloca : Gives f s i (.nullary .alloca) (.address ⟨s.activation, i⟩)
  | load {x : ValueId} {cell : Cell} : s.read f x = .ok (.address cell) →
      Gives f s i (.unary .load x) (s.memory cell)
  | unary {op : Opcode} {x : ValueId} {a d : Datum} :
      op ≠ .load → op ≠ .retValue → s.read f x = .ok a →
      compute f i op [a] = .ok d → Gives f s i (.unary op x) d
  | binary {op : Opcode} {x y : ValueId} {a b d : Datum} :
      op ≠ .store → op ≠ .copy → s.read f x = .ok a →
      s.read f y = .ok b → compute f i op [a, b] = .ok d → Gives f s i (.binary op x y) d

/-- Control may leave through the instruction to a block. -/
inductive Goes (f : Func) (s : Frame) : Inst → BlockId → Prop where
  | jump {op : Opcode} {b : BlockId} : Goes f s (.jump op b) b
  | branch {op : Opcode} {c : ValueId} {w : Word} {t e : BlockId} : s.read f c = .ok (.word w) →
      Goes f s (.branch op c t e) (if w.isZero then e else t)

/-- What a step that goes on does. -/
inductive Move (f : Func) (s : Frame) : Frame → Prop where
  | yields {i : InstId} {rest : List InstId} {inst : Inst} {v : ValueId} {d : Datum} :
      s.rest = i :: rest →
      f.flow.inst? i = some inst → f.flow.result? i = some v → Gives f s i inst d →
      Move f s ({ s with rest }.set v d)
  | stores {i : InstId} {rest : List InstId} {x y : ValueId} {cell : Cell} {d : Datum} :
      s.rest = i :: rest →
      f.flow.inst? i = some (.binary .store x y) → s.read f x = .ok (.address cell) →
      s.read f y = .ok d →
      Move f s ({ s with rest }.store cell d)
  | copies {i : InstId} {rest : List InstId} {x y : ValueId} {d : Datum} : s.rest = i :: rest →
      f.flow.inst? i = some (.binary .copy x y) → s.read f y = .ok d → Move f s
        ({ s with rest }.set x d)
  | enters {i : InstId} {rest : List InstId} {inst : Inst} {b : BlockId} {t : Frame} :
      s.rest = i :: rest →
      f.flow.inst? i = some inst → Goes f s inst b →
      { s with rest }.enter f i b = .ok t → Move f s t

theorem read_rest (f : Func) (s : Frame) (rest : List InstId) (v : ValueId) :
    ({ s with rest } : Frame).read f v = s.read f v := rfl

theorem resultWidth?_congr {f f' : Func} (hf : f.flow.Exact) {i j : InstId}
    (hr : f'.flow.result? j = f.flow.result? i)
    (ho : ∀ {v ty}, f.flow.result? i = some v → f.flow.origin? v = some (.result ty i) →
      f'.flow.origin? v = some (.result ty i)) : resultWidth? f' j = resultWidth? f i := by
  unfold resultWidth?
  rw [hr]
  cases hv : f.flow.result? i with
  | none => rfl
  | some v =>
    obtain ⟨ty, hty, -⟩ := hf.result_origin hv
    rw [Option.bind_some, Option.bind_some, hty, ho hv hty]

theorem cellAt_eq_ok {f : Func} {s : Frame} {i : InstId} {v : ValueId} {cell : Cell} :
    s.cellAt f i v = .ok cell ↔ s.read f v = .ok (.address cell) := by
  unfold cellAt
  constructor
  · intro h
    obtain ⟨d, hd, h⟩ := bind_eq_ok.1 h
    cases d with
    | address c =>
      cases h
      exact hd
    | _ => cases h
  · intro h
    rw [h]
    rfl

theorem yield_eq_ok {f : Func} {s : Frame} {i : InstId} {d : Datum} {r : Step} :
    s.yield f i d = .ok r ↔ ∃ v, f.flow.result? i = some v ∧ r = .next (s.set v d) := by
  unfold yield
  cases f.flow.result? i with
  | none => simp
  | some v => simp [eq_comm]

theorem step_next_iff {f : Func} {s t : Frame} : s.step f = .ok (.next t) ↔ Move f s t := by
  constructor
  · intro h
    unfold step at h
    cases hrest : s.rest with
    | nil =>
      rw [hrest] at h
      cases h
    | cons i rest =>
      rw [hrest] at h
      cases hi : f.flow.inst? i with
      | none =>
        simp only [hi] at h
        cases h
      | some inst =>
        simp only [hi] at h
        cases inst with
        | nullary op =>
          simp only [execute] at h
          by_cases ha : op = .alloca
          · subst ha
            rw [if_pos rfl] at h
            obtain ⟨v, hv, h⟩ := yield_eq_ok.1 h
            cases h
            exact .yields hrest hi hv .alloca
          · rw [if_neg ha] at h
            split at h <;> cases h
        | unary op x =>
          simp only [execute] at h
          by_cases hl : op = .load
          · subst hl
            rw [if_pos rfl] at h
            obtain ⟨cell, hcell, h⟩ := bind_eq_ok.1 h
            obtain ⟨v, hv, h⟩ := yield_eq_ok.1 h
            cases h
            exact .yields hrest hi hv (.load (cellAt_eq_ok.1 hcell))
          · rw [if_neg hl] at h
            obtain ⟨d, hd, h⟩ := bind_eq_ok.1 h
            by_cases hr : op = .retValue
            · rw [if_pos hr] at h
              split at h <;> cases h
            · rw [if_neg hr] at h
              obtain ⟨d', hd', h⟩ := bind_eq_ok.1 h
              obtain ⟨v, hv, h⟩ := yield_eq_ok.1 h
              cases h
              exact .yields hrest hi hv (.unary hl hr hd hd')
        | binary op x y =>
          simp only [execute] at h
          by_cases hs : op = .store
          · subst hs
            rw [if_pos rfl] at h
            obtain ⟨cell, hcell, h⟩ := bind_eq_ok.1 h
            obtain ⟨d, hd, h⟩ := bind_eq_ok.1 h
            cases h
            exact .stores hrest hi (cellAt_eq_ok.1 hcell) hd
          · rw [if_neg hs] at h
            by_cases hc : op = .copy
            · subst hc
              rw [if_pos rfl] at h
              obtain ⟨d, hd, h⟩ := bind_eq_ok.1 h
              cases h
              exact .copies hrest hi hd
            · rw [if_neg hc] at h
              obtain ⟨a, ha, h⟩ := bind_eq_ok.1 h
              obtain ⟨b, hb, h⟩ := bind_eq_ok.1 h
              obtain ⟨d, hd, h⟩ := bind_eq_ok.1 h
              obtain ⟨v, hv, h⟩ := yield_eq_ok.1 h
              cases h
              exact .yields hrest hi hv (.binary hs hc ha hb hd)
        | phi op args preds => cases h
        | jump op b =>
          simp only [execute] at h
          obtain ⟨t', ht, h⟩ := map_eq_ok.1 h
          cases h
          exact .enters hrest hi .jump ht
        | branch op c onTrue onFalse =>
          simp only [execute] at h
          obtain ⟨d, hd, h⟩ := bind_eq_ok.1 h
          cases d with
          | word w =>
            obtain ⟨t', ht, h⟩ := map_eq_ok.1 h
            cases h
            exact .enters hrest hi (.branch hd) ht
          | _ => cases h
        | call op callee args =>
          simp only [execute] at h
          obtain ⟨ds, hds, h⟩ := bind_eq_ok.1 h
          cases h
  · intro h
    cases h with
    | @yields i rest inst v d hrest hi hv hg =>
      unfold step
      simp only [hrest, hi]
      have hput : ∀ e, ({ s with rest } : Frame).yield f i e =
          .ok (.next ({ s with rest }.set v e)) := fun e =>
        yield_eq_ok.2 ⟨v, hv, rfl⟩
      cases hg with
      | alloca => simp only [execute, if_true, hput]
      | load hx =>
        have hcell := cellAt_eq_ok (i := i).2 hx
        have hcell' : ({ s with rest } : Frame).cellAt f i _ = .ok _ := hcell
        simp only [execute, if_true, hcell', ok_bind, hput]
      | unary hl hr hx hd =>
        simp only [execute, if_neg hl, if_neg hr, read_rest, hx, hd, ok_bind, hput]
      | binary hs hc hx hy hd =>
        simp only [execute, if_neg hs, if_neg hc, read_rest, hx, hy, hd, ok_bind, hput]
    | @stores i rest x y cell d hrest hi hx hy =>
      have hcell : ({ s with rest } : Frame).cellAt f i x = .ok cell := cellAt_eq_ok (i := i).2 hx
      unfold step
      simp only [hrest, hi, execute, if_true, hcell, read_rest, hy, ok_bind, pure_eq_ok]
    | @copies i rest x y d hrest hi hy =>
      unfold step
      simp only [hrest, hi, execute, reduceCtorEq, if_false, if_true, read_rest, hy,
        ok_bind, pure_eq_ok]
    | @enters i rest inst b t hrest hi hg ht =>
      unfold step
      simp only [hrest, hi]
      cases hg with
      | jump => simp only [execute, ht, map_ok]
      | branch hc => simp only [execute, read_rest, hc, ok_bind, ht, map_ok]

theorem step_done_iff {f : Func} {s : Frame} {d : Datum} :
    s.step f = .ok (.done (some d)) ↔ ∃ i rest x, s.rest = i :: rest ∧
      f.flow.inst? i = some (.unary .retValue x) ∧ s.read f x = .ok d ∧ d ≠ .undefined := by
  constructor
  · intro h
    unfold step at h
    cases hrest : s.rest with
    | nil =>
      rw [hrest] at h
      cases h
    | cons i rest =>
      rw [hrest] at h
      cases hi : f.flow.inst? i with
      | none =>
        simp only [hi] at h
        cases h
      | some inst =>
        simp only [hi] at h
        cases inst with
        | nullary op =>
          simp only [execute] at h
          split at h
          · obtain ⟨v, -, h⟩ := yield_eq_ok.1 h
            cases h
          · split at h <;> cases h
        | unary op x =>
          simp only [execute] at h
          by_cases hl : op = .load
          · rw [if_pos hl] at h
            obtain ⟨cell, -, h⟩ := bind_eq_ok.1 h
            obtain ⟨v, -, h⟩ := yield_eq_ok.1 h
            cases h
          · rw [if_neg hl] at h
            obtain ⟨e, he, h⟩ := bind_eq_ok.1 h
            by_cases hr : op = .retValue
            · subst hr
              rw [if_pos rfl] at h
              by_cases hu : e = .undefined
              · rw [if_pos hu] at h
                cases h
              · rw [if_neg hu] at h
                cases h
                exact ⟨i, rest, x, rfl, hi, he, hu⟩
            · rw [if_neg hr] at h
              obtain ⟨e', -, h⟩ := bind_eq_ok.1 h
              obtain ⟨v, -, h⟩ := yield_eq_ok.1 h
              cases h
        | binary op x y =>
          simp only [execute] at h
          split at h
          · obtain ⟨cell, -, h⟩ := bind_eq_ok.1 h
            obtain ⟨e, -, h⟩ := bind_eq_ok.1 h
            cases h
          · split at h
            · obtain ⟨e, -, h⟩ := bind_eq_ok.1 h
              cases h
            · obtain ⟨a, -, h⟩ := bind_eq_ok.1 h
              obtain ⟨b, -, h⟩ := bind_eq_ok.1 h
              obtain ⟨e, -, h⟩ := bind_eq_ok.1 h
              obtain ⟨v, -, h⟩ := yield_eq_ok.1 h
              cases h
        | phi op args preds => cases h
        | jump op b =>
          simp only [execute] at h
          obtain ⟨t, -, h⟩ := map_eq_ok.1 h
          cases h
        | branch op c onTrue onFalse =>
          simp only [execute] at h
          obtain ⟨e, -, h⟩ := bind_eq_ok.1 h
          cases e with
          | word w =>
            obtain ⟨t, -, h⟩ := map_eq_ok.1 h
            cases h
          | _ => cases h
        | call op callee args =>
          simp only [execute] at h
          obtain ⟨ds, -, h⟩ := bind_eq_ok.1 h
          cases h
  · rintro ⟨i, rest, x, hrest, hi, hx, hu⟩
    unfold step
    simp only [hrest, hi, execute, reduceCtorEq, if_false, if_true, read_rest, hx, ok_bind,
      if_neg hu, pure_eq_ok]

theorem values_foldl_set (ps : List (ValueId × Datum)) (s : Frame) :
    (∀ w, (∀ p ∈ ps, p.1 ≠ w) → (ps.foldl (fun s (p : ValueId × Datum) => s.set p.1 p.2) s).values
      w = s.values w) ∧ ((ps.map (·.1)).Nodup → ∀ p ∈ ps,
        (ps.foldl (fun s (p : ValueId × Datum) => s.set p.1 p.2) s).values p.1 = some p.2) ∧
      (ps.foldl (fun s (p : ValueId × Datum) => s.set p.1 p.2) s) =
        { s with values := (ps.foldl (fun s (p : ValueId × Datum) => s.set p.1 p.2) s).values
          } := by
  induction ps generalizing s with
  | nil => exact ⟨fun _ _ => rfl, fun _ _ hp => absurd hp List.not_mem_nil, rfl⟩
  | cons p ps ih =>
    obtain ⟨hother, hmem, hframe⟩ := ih (s.set p.1 p.2)
    refine ⟨fun w hw => ?_, fun hn q hq => ?_, ?_⟩
    · rw [List.foldl_cons, hother w fun q hq => hw q (List.mem_cons_of_mem _ hq)]
      have hne : w ≠ p.1 := fun e => hw p List.mem_cons_self e.symm
      simp [Frame.set, hne]
    · rw [List.map_cons, List.nodup_cons] at hn
      rcases List.mem_cons.1 hq with rfl | hq
      · rw [List.foldl_cons, hother q.1]
        · simp [Frame.set]
        · intro p' hp' he
          exact hn.1 (List.mem_map.2 ⟨p', hp', he⟩)
      · exact hmem hn.2 q hq
    · rw [List.foldl_cons]
      exact hframe

theorem merged_eq_ok {f : Func} {s : Frame} {source : BlockId} {phi : InstId}
    {w : ValueId} {d : Datum} :
    s.merged f source phi = .ok (w, d) ↔ ∃ v, f.flow.incoming? phi source = .ok (some v) ∧
      f.flow.result? phi = some w ∧ s.read f v = .ok d := by
  unfold merged
  constructor
  · intro h
    split at h
    · rename_i v result hv hr
      obtain ⟨e, he, h⟩ := bind_eq_ok.1 h
      cases h
      exact ⟨v, hv, hr, he⟩
    · cases h
    · cases h
  · rintro ⟨v, hv, hr, hd⟩
    simp only [hv, hr, hd, ok_bind, pure_eq_ok]

theorem enter_eq_ok {f : Func} {s t : Frame} {i : InstId} {b : BlockId} :
    s.enter f i b = .ok t ↔ ∃ xs ps, f.insts b = .ok xs ∧
      (xs.takeWhile f.flow.isPhi).mapM (s.merged f s.block) = .ok ps ∧
      t = ps.foldl (fun s (p : ValueId × Datum) => s.set p.1 p.2)
        { s with block := b, source? := some s.block, rest := xs.dropWhile f.flow.isPhi } := by
  unfold enter
  cases hxs : f.insts b with
  | error e => simp
  | ok xs =>
    constructor
    · intro h
      obtain ⟨ps, hps, h⟩ := bind_eq_ok.1 h
      cases h
      exact ⟨xs, ps, rfl, hps, rfl⟩
    · rintro ⟨xs', ps, hxs', hps, rfl⟩
      cases hxs'
      simp only [hps, ok_bind, pure_eq_ok]

theorem mapM_merged_fst {f : Func} {s : Frame} {source : BlockId} {phis : List InstId}
    {ps : List (ValueId × Datum)} (h : phis.mapM (s.merged f source) = .ok ps) :
    phis.map f.flow.result? = ps.map fun p => some p.1 := by
  induction phis generalizing ps with
  | nil => cases h; rfl
  | cons phi phis ih =>
    obtain ⟨⟨w, d⟩, rest, hp, hr, rfl⟩ := mapM_cons_eq_ok.1 h
    obtain ⟨v, -, hw, -⟩ := merged_eq_ok.1 hp
    rw [List.map_cons, List.map_cons, ih hr, hw]

theorem results_nodup {f : Func} (hc : f.Coherent) {xs : List InstId} {ws : List ValueId}
    (hn : xs.Nodup) (h : xs.map f.flow.result? = ws.map some) : ws.Nodup := by
  induction xs generalizing ws with
  | nil =>
    cases ws with
    | nil => exact List.nodup_nil
    | cons => simp at h
  | cons x xs ih =>
    cases ws with
    | nil => simp at h
    | cons w ws =>
      simp only [List.map_cons, List.cons.injEq] at h
      rw [List.nodup_cons] at hn ⊢
      refine ⟨fun hm => hn.1 ?_, ih hn.2 h.2⟩
      have hw : some w ∈ xs.map f.flow.result? := by
        rw [h.2]
        exact List.mem_map_of_mem hm
      obtain ⟨y, hy, hyw⟩ := List.mem_map.1 hw
      obtain ⟨ty, ho, -⟩ := hc.flow.result_origin h.1
      obtain ⟨ty', ho', -⟩ := hc.flow.result_origin hyw
      rw [ho] at ho'
      cases ho'
      exact hy

/-- What a frame holds after it entered a block. -/
structure Entered (f : Func) (s t : Frame) (b : BlockId) (xs : List InstId) : Prop where
  insts : f.insts b = .ok xs
  block : t.block = b
  source : t.source? = some s.block
  rest : t.rest = xs.dropWhile f.flow.isPhi
  memory : t.memory = s.memory
  activation : t.activation = s.activation
  merged : ∀ phi ∈ xs.takeWhile f.flow.isPhi, ∃ v w d, f.flow.incoming? phi s.block = .ok (some v) ∧
    f.flow.result? phi = some w ∧ s.read f v = .ok d ∧ t.values w = some d
  kept : ∀ w, (∀ phi ∈ xs.takeWhile f.flow.isPhi, f.flow.result? phi ≠ some w) →
    t.values w = s.values w

theorem enter_spec {f : Func} (hc : f.Coherent) {s t : Frame} {i : InstId} {b : BlockId}
    (h : s.enter f i b = .ok t) : ∃ xs, Entered f s t b xs := by
  obtain ⟨xs, ps, hxs, hps, rfl⟩ := enter_eq_ok.1 h
  obtain ⟨hother, hmem, hframe⟩ := values_foldl_set ps
    { s with block := b, source? := some s.block, rest := xs.dropWhile f.flow.isPhi }
  have hfst := mapM_merged_fst hps
  have hnodup : (ps.map (·.1)).Nodup := by
    refine results_nodup hc ((List.takeWhile_prefix f.flow.isPhi).sublist.nodup
      (hc.layout.insts_nodup hxs)) ?_
    rw [hfst, List.map_map]
    rfl
  refine ⟨xs, hxs, ?_, ?_, ?_, ?_, ?_, ?_, ?_⟩
  · rw [hframe]
  · rw [hframe]
  · rw [hframe]
  · rw [hframe]
  · rw [hframe]
  · intro phi hphi
    obtain ⟨⟨w, d⟩, hp, hm⟩ := mapM_ok_forall hps phi hphi
    obtain ⟨v, hv, hw, hd⟩ := merged_eq_ok.1 hm
    exact ⟨v, w, d, hv, hw, hd, hmem hnodup _ hp⟩
  · intro w hw
    refine hother w fun p hp he => ?_
    have : some p.1 ∈ (xs.takeWhile f.flow.isPhi).map f.flow.result? := by
      rw [hfst]
      exact List.mem_map.2 ⟨p, hp, rfl⟩
    obtain ⟨phi, hphi, hr⟩ := List.mem_map.1 this
    exact hw phi hphi (he ▸ hr)

end Frame

/-- The frames a run comes to from a first one, along edges of `E`. A step that runs the last
instruction of a block takes an edge. -/
inductive Reached (f : Func) (E : BlockId → BlockId → Prop) (s₀ : Frame) : Frame → Prop where
  | start : Reached f E s₀ s₀
  | next {s t : Frame} : Reached f E s₀ s → s.step f = .ok (.next t) →
      (s.rest.tail = [] → E s.block t.block) → Reached f E s₀ t

/-- The run goes along edges of `E` and returns the datum. -/
inductive Along (f : Func) (E : BlockId → BlockId → Prop) : Frame → Datum → Prop where
  | done {s : Frame} {d : Datum} : s.step f = .ok (.done (some d)) → Along f E s d
  | next {s t : Frame} {d : Datum} :
      s.step f = .ok (.next t) → (s.rest.tail = [] → E s.block t.block) →
      Along f E t d → Along f E s d

theorem Along.returns {f : Func} {E : BlockId → BlockId → Prop} {s : Frame} {d : Datum}
    (h : Along f E s d) :
    ∃ n, s.run f n = .ok (.done (some d)) := by
  induction h with
  | done h =>
    refine ⟨1, ?_⟩
    unfold Frame.run
    rw [h]
  | next h _ _ ih =>
    obtain ⟨n, hn⟩ := ih
    refine ⟨n + 1, ?_⟩
    unfold Frame.run
    rw [h]
    exact hn

/-- A function whose blocks and instructions have the form they should have, without phis in the
entry. -/
structure Func.Formed (f : Func) (entry : BlockId) : Prop where
  coherent : f.Coherent
  starts : f.entry = .ok entry
  shape : f.WellShaped
  forms : ∀ {i inst}, f.flow.inst? i = some inst → Verify.formFits inst = true
  bare : ∀ {xs}, f.insts entry = .ok xs → ∀ i ∈ xs, f.flow.isPhi i = false

/-- What a function must be like for its runs to be reasoned about. -/
structure Func.Regular (f : Func) (entry : BlockId) : Prop extends f.Formed entry where
  noCopies : ∀ {i x y}, f.flow.inst? i ≠ some (.binary .copy x y)

/-- On every way along edges of `E` operands are there before they are used. -/
structure Func.Orderly (f : Func) (E : BlockId → BlockId → Prop) (entry : BlockId) :
    Prop extends f.Regular entry where
  edges : ∀ {a b}, E a b → f.Leads a b
  body : ∀ {b pre u post inst v}, Connects E entry b → f.insts b = .ok (pre ++ u :: post) →
    f.flow.inst? u = some inst → inst.op.isPhi = false → v ∈ inst.args →
    f.Avail E entry b (u :: post) v
  phis : ∀ {b xs u inst v p}, Connects E entry p → E p b → f.insts b = .ok xs → u ∈ xs →
    f.flow.inst? u = some inst → inst.op.isPhi = true → (v, p) ∈ inst.edges → f.Avail E entry p [] v

/-- A frame is where a run along `E` can be: behind the phis of a block, with something left to
run. -/
structure Frame.Sits (f : Func) (E : BlockId → BlockId → Prop) (entry : BlockId) (s : Frame) :
    Prop where
  connects : Connects E entry s.block
  suffix : ∃ pre, f.insts s.block = .ok (pre ++ s.rest)
  plain : ∀ i ∈ s.rest, f.flow.isPhi i = false
  busy : s.rest ≠ []

/-- What a step of a run along `E` does, and where it leads. -/
inductive Func.Steps (f : Func) (E : BlockId → BlockId → Prop) (s : Frame) : Frame → Prop where
  | yields {i : InstId} {rest : List InstId} {inst : Inst} {v : ValueId} {d : Datum} :
      s.rest = i :: rest →
      rest ≠ [] → f.flow.inst? i = some inst → f.flow.result? i = some v →
      Frame.Gives f s i inst d →
      Func.Steps f E s ({ s with rest }.set v d)
  | stores {i : InstId} {rest : List InstId} {x y : ValueId} {cell : Cell} {d : Datum} :
      s.rest = i :: rest →
      rest ≠ [] → f.flow.inst? i = some (.binary .store x y) → s.read f x = .ok (.address cell) →
      s.read f y = .ok d → Func.Steps f E s ({ s with rest }.store cell d)
  | enters {i : InstId} {inst : Inst} {b : BlockId} {xs : List InstId} {t : Frame} : s.rest = [i] →
      f.flow.inst? i = some inst → Frame.Goes f s inst b → E s.block b → Frame.Entered f s t b xs →
      Func.Steps f E s t

namespace Func.Formed

variable {f : Func} {E : BlockId → BlockId → Prop} {entry : BlockId}

theorem terminator_iff (h : f.Formed entry) {b : BlockId} {pre rest : List InstId} {i : InstId}
    (hb : f.insts b = .ok (pre ++ i :: rest)) : f.flow.isTerminator i = true ↔ rest = [] := by
  obtain ⟨front, t, he, ht, hfront⟩ := h.shape.ended hb
  have hn := h.coherent.layout.insts_nodup hb
  constructor
  · intro hi
    refine Classical.byContradiction fun hne => ?_
    have hif : i ∈ front := by
      have hdrop : (pre ++ i :: rest).dropLast = front := by
        rw [he]
        simp
      rw [← hdrop, List.dropLast_append_of_ne_nil (by simp), List.dropLast_cons_of_ne_nil hne]
      exact List.mem_append_right _ List.mem_cons_self
    rw [hfront i hif] at hi
    cases hi
  · rintro rfl
    have hlast := congrArg List.getLast? he
    simp only [List.getLast?_append, List.getLast?_singleton, Option.some_or,
      Option.some.injEq] at hlast
    rw [hlast]
    exact ht

theorem gives_not_terminator (h : f.Formed entry) {s : Frame} {i : InstId} {inst : Inst} {d : Datum}
    (hi : f.flow.inst? i = some inst) (hg : Frame.Gives f s i inst d) :
    f.flow.isTerminator i = false := by
  have hform := h.forms hi
  rw [DataFlow.isTerminator_of_inst hi]
  cases hg with
  | alloca => rfl
  | load => rfl
  | @unary op x a d hl hr _ _ =>
    revert hform hr
    simp only [Verify.formFits, Inst.op]
    cases op <;> decide
  | @binary op x y a b d hs hc _ _ _ =>
    revert hform
    simp only [Verify.formFits, Inst.op]
    cases op <;> decide

theorem goes_terminator (h : f.Formed entry) {s : Frame} {i : InstId} {inst : Inst} {b : BlockId}
    (hi : f.flow.inst? i = some inst) (hg : Frame.Goes f s inst b) :
    f.flow.isTerminator i = true := by
  have hform := h.forms hi
  rw [DataFlow.isTerminator_of_inst hi]
  cases hg with
  | @jump op b =>
    revert hform
    simp only [Verify.formFits, Inst.op]
    cases op <;> decide
  | @branch op c w t e _ =>
    revert hform
    simp only [Verify.formFits, Inst.op]
    cases op <;> decide

theorem body_of_block (h : f.Formed entry) {b : BlockId} {xs : List InstId}
    (hb : f.insts b = .ok xs) :
    xs.dropWhile f.flow.isPhi ≠ [] ∧ (∀ i ∈ xs.dropWhile f.flow.isPhi, f.flow.isPhi i = false) ∧
      xs = xs.takeWhile f.flow.isPhi ++ xs.dropWhile f.flow.isPhi := by
  obtain ⟨phis, body, last, rfl, hs⟩ := h.shape.shaped hb
  exact ⟨by rw [hs.dropWhile_eq]; simp, by rw [hs.dropWhile_eq]; exact hs.not_phi,
    List.takeWhile_append_dropWhile.symm⟩

theorem sits_step (h : f.Formed entry) {s t : Frame} (hs : s.Sits f E entry)
    (hstep : Steps f E s t) :
    t.Sits f E entry := by
  obtain ⟨pre, hpre⟩ := hs.suffix
  have hplain := hs.plain
  cases hstep with
  | @yields i rest inst v d hrest hne hi hv hg =>
    rw [hrest] at hpre hplain
    exact ⟨hs.connects, ⟨pre ++ [i], by rw [List.append_assoc]; exact hpre⟩,
      fun j hj => hplain j (List.mem_cons_of_mem _ hj), hne⟩
  | @stores i rest x y cell d hrest hne hi hx hy =>
    rw [hrest] at hpre hplain
    exact ⟨hs.connects, ⟨pre ++ [i], by rw [List.append_assoc]; exact hpre⟩,
      fun j hj => hplain j (List.mem_cons_of_mem _ hj), hne⟩
  | @enters i inst b xs t hrest hi hg hE hent =>
    obtain ⟨hne, hbody, hsplit⟩ := h.body_of_block hent.insts
    refine ⟨?_, ⟨xs.takeWhile f.flow.isPhi, ?_⟩, ?_, ?_⟩
    · rw [hent.block]
      exact hs.connects.step hE
    · rw [hent.block, hent.rest, ← hsplit]
      exact hent.insts
    · rw [hent.rest]
      exact hbody
    · rw [hent.rest]
      exact hne

theorem sits_start (h : f.Formed entry) {args : List Datum} {s : Frame}
    (hs : Frame.start f args = .ok s) :
    s.Sits f E entry ∧ s.block = entry ∧ s.activation = 0 ∧
      s.values = (fun v => (f.params.idxOf? v).bind (args[·]?)) ∧
      s.memory = fun _ => .undefined := by
  unfold Frame.start at hs
  rw [h.starts, ok_bind] at hs
  obtain ⟨rest, hrest, hs⟩ := bind_eq_ok.1 hs
  cases hs
  obtain ⟨front, t, he, -, -⟩ := h.shape.ended hrest
  refine ⟨⟨Connects.refl E entry, ⟨[], hrest⟩, h.bare hrest, ?_⟩, rfl, rfl, rfl, rfl⟩
  show rest ≠ []
  rw [he]
  simp

theorem behind_iff (h : f.Formed entry) {home b : BlockId} {xs rest : List InstId} {i : InstId}
    (hhome : f.insts home = .ok xs) (hi : i ∈ xs) :
    f.Behind E entry b rest i ↔ Guards E entry home b ∧ (home = b → i ∉ rest) := by
  constructor
  · rintro ⟨home', xs', hhome', hi', hg⟩
    obtain rfl := h.coherent.layout.one_block hhome hhome' hi hi'
    exact hg
  · exact fun hg => ⟨home, xs, hhome, hi, hg⟩

theorem behind_cons (h : f.Formed entry) {b : BlockId} {pre rest : List InstId} {i j : InstId}
    (hb : f.insts b = .ok (pre ++ j :: rest)) (hcon : Connects E entry b) :
    f.Behind E entry b rest i ↔ i = j ∨ f.Behind E entry b (j :: rest) i := by
  have hn := h.coherent.layout.insts_nodup hb
  constructor
  · rintro ⟨home, xs, hhome, hi, hg, hout⟩
    by_cases hij : i = j
    · exact .inl hij
    · refine .inr ⟨home, xs, hhome, hi, hg, fun he hm => ?_⟩
      rcases List.mem_cons.1 hm with hm | hm
      · exact hij hm
      · exact hout he hm
  · rintro (rfl | ⟨home, xs, hhome, hi, hg, hout⟩)
    · refine ⟨b, _, hb, List.mem_append_right _ List.mem_cons_self, hcon.guards_self,
        fun _ hm => ?_⟩
      exact (List.nodup_cons.1 (List.nodup_append.1 hn).2.1).1 hm
    · exact ⟨home, xs, hhome, hi, hg, fun he hm => hout he (List.mem_cons_of_mem _ hm)⟩

theorem behind_enter (h : f.Formed entry) {a b : BlockId} {xs : List InstId} {i last : InstId}
    (ha : Connects E entry a) (hE : E a b) (hxs : f.insts b = .ok xs)
    (hnot : f.flow.isTerminator i = false) (hlast : f.flow.isTerminator last = true) :
    f.Behind E entry b (xs.dropWhile f.flow.isPhi) i ↔
      i ∈ xs.takeWhile f.flow.isPhi ∨
      (i ∉ xs ∧ f.Behind E entry a [last] i ∧ f.Behind E entry b [] i) := by
  have hb : Connects E entry b := ha.step hE
  obtain ⟨-, -, hsplit⟩ := h.body_of_block hxs
  have hn := h.coherent.layout.insts_nodup hxs
  constructor
  · rintro ⟨home, ys, hhome, hi, hg, hout⟩
    by_cases he : home = b
    · subst he
      rw [hxs] at hhome
      cases hhome
      rw [hsplit] at hi
      exact .inl ((List.mem_append.1 hi).resolve_right (hout rfl))
    · refine .inr ⟨fun hix => he (h.coherent.layout.one_block hhome hxs hi hix), ?_, ?_⟩
      · refine ⟨home, ys, hhome, hi, hg.of_step he ha hE, fun _ hm => ?_⟩
        rw [List.mem_singleton.1 hm, hlast] at hnot
        cases hnot
      · exact ⟨home, ys, hhome, hi, hg, fun e => absurd e he⟩
  · rintro (hi | ⟨hix, -, home, ys, hhome, hi, hg, -⟩)
    · have hix : i ∈ xs := by
        rw [hsplit]
        exact List.mem_append_left _ hi
      refine ⟨b, xs, hxs, hix, hb.guards_self, fun _ hm => ?_⟩
      rw [hsplit] at hn
      exact (List.nodup_append.1 hn).2.2 i hi i hm rfl
    · refine ⟨home, ys, hhome, hi, hg, fun e => ?_⟩
      subst e
      rw [hxs] at hhome
      cases hhome
      exact absurd hi hix

/-- Two different instructions are not behind each other: what `i` needs cannot run where `i` is
behind. -/
theorem not_behind_both (h : f.Formed entry) {home b : BlockId} {pre post rest : List InstId}
    {i j : InstId} (hi : f.insts home = .ok (pre ++ i :: post))
    (hj : f.Behind E entry home (i :: post) j) {pre' : List InstId}
    (hb : f.insts b = .ok (pre' ++ j :: rest)) :
    ¬ f.Behind E entry b (j :: rest) i := by
  intro hbi
  have hjmem : j ∈ pre' ++ j :: rest := List.mem_append_right _ List.mem_cons_self
  have himem : i ∈ pre ++ i :: post := List.mem_append_right _ List.mem_cons_self
  obtain ⟨hg, hout⟩ := (h.behind_iff hb hjmem).1 hj
  obtain ⟨hg', hout'⟩ := (h.behind_iff hi himem).1 hbi
  have he : home = b := hg'.antisymm hg
  subst he
  have h₁ : j ∉ i :: post := hout rfl
  have h₂ : i ∉ j :: rest := hout' rfl
  rw [hi] at hb
  have hlists := Except.ok.inj hb
  -- Both lists are the block: the later of the two stands in the rest after the earlier one.
  have hjpre : j ∈ pre := by
    have := hjmem
    rw [← hlists] at this
    exact (List.mem_append.1 this).resolve_right h₁
  have hipre : i ∈ pre' := by
    have := himem
    rw [hlists] at this
    exact (List.mem_append.1 this).resolve_right h₂
  rcases Nat.le_total pre.length pre'.length with hle | hle
  · have : pre <+: pre' := by
      have hp₁ : pre <+: pre ++ i :: post := List.prefix_append _ _
      have hp₂ : pre' <+: pre ++ i :: post := by
        rw [hlists]
        exact List.prefix_append _ _
      exact List.prefix_of_prefix_length_le hp₁ hp₂ hle
    have hn := h.coherent.layout.insts_nodup hi
    rw [hlists] at hn
    exact (List.nodup_append.1 hn).2.2 j (this.subset hjpre) j List.mem_cons_self rfl
  · have : pre' <+: pre := by
      have hp₁ : pre <+: pre ++ i :: post := List.prefix_append _ _
      have hp₂ : pre' <+: pre ++ i :: post := by
        rw [hlists]
        exact List.prefix_append _ _
      exact List.prefix_of_prefix_length_le hp₂ hp₁ hle
    have hn := h.coherent.layout.insts_nodup hi
    exact (List.nodup_append.1 hn).2.2 i (this.subset hipre) i List.mem_cons_self rfl

theorem behind_trans (h : f.Formed entry) {home b : BlockId} {pre post pre' rest : List InstId}
    {i j : InstId} (hi : f.insts home = .ok (pre ++ i :: post))
    (hj : f.Behind E entry home (i :: post) j) (hb : f.insts b = .ok (pre' ++ rest))
    (hbi : f.Behind E entry b rest i) : f.Behind E entry b rest j := by
  obtain ⟨hg, hout⟩ := (h.behind_iff hi (List.mem_append_right _ List.mem_cons_self)).1 hbi
  obtain ⟨jhome, ys, hys, hjy, hgj, hjout⟩ := hj
  refine ⟨jhome, ys, hys, hjy, hgj.trans hg, fun he hm => ?_⟩
  subst he
  have he : home = jhome := hg.antisymm hgj
  subst he
  have hirest : i ∉ rest := hout rfl
  rw [hi] at hb
  -- What is left once `i` ran comes after `i` in the block.
  rcases List.append_eq_append_iff.1 (Except.ok.inj hb) with ⟨as, rfl, hs⟩ | ⟨as, rfl, hs⟩
  · cases as with
    | nil =>
      rw [List.nil_append] at hs
      exact hirest (hs ▸ List.mem_cons_self)
    | cons a as =>
      have := (List.cons.inj hs).2
      refine hjout rfl (List.mem_cons_of_mem _ ?_)
      rw [this]
      exact List.mem_append_right _ hm
  · exact hirest (hs ▸ List.mem_append_right _ List.mem_cons_self)

end Func.Formed

namespace Func.Regular

variable {f : Func} {E : BlockId → BlockId → Prop} {entry : BlockId}

theorem steps (h : f.Regular entry) {s t : Frame} (hs : s.Sits f E entry)
    (hstep : s.step f = .ok (.next t)) (hE : s.rest.tail = [] → E s.block t.block) :
    Steps f E s t := by
  obtain ⟨pre, hpre⟩ := hs.suffix
  cases Frame.step_next_iff.1 hstep with
  | @yields i rest inst v d hrest hi hv hg =>
    refine .yields hrest (fun hn => ?_) hi hv hg
    rw [hrest] at hpre
    have := (h.terminator_iff hpre).2 hn
    rw [h.gives_not_terminator hi hg] at this
    cases this
  | @stores i rest x y cell d hrest hi hx hy =>
    refine .stores hrest (fun hn => ?_) hi hx hy
    rw [hrest] at hpre
    have := (h.terminator_iff hpre).2 hn
    rw [DataFlow.isTerminator_of_inst hi] at this
    cases this
  | copies hrest hi _ => exact absurd hi h.noCopies
  | @enters i rest inst b t hrest hi hg ht =>
    rw [hrest] at hpre
    have hnil := (h.terminator_iff hpre).1 (h.goes_terminator hi hg)
    subst hnil
    obtain ⟨xs, hent⟩ := Frame.enter_spec h.coherent ht
    have hedge : E s.block b := by
      rw [← hent.block]
      exact hE (by rw [hrest]; rfl)
    exact .enters hrest hi hg hedge
      ⟨hent.insts, hent.block, hent.source, hent.rest, hent.memory, hent.activation,
      hent.merged, hent.kept⟩

theorem sits_reached (h : f.Regular entry) {s₀ s : Frame} (h₀ : s₀.Sits f E entry)
    (hr : Reached f E s₀ s) :
    s.Sits f E entry := by
  induction hr with
  | start => exact h₀
  | next _ hstep hE ih => exact h.sits_step ih (h.steps ih hstep hE)

end Func.Regular

end MiddleEnd
