import Mathlib.Data.List.ProdSigma
import MiddleEnd.Proofs.InductionVariables

/-!
# Reductions come to an end

A reduction copies the instruction that defines an induction variable and goes on with the operands,
which may lead back to where it came from. What stops it is the memory of the pairs of values that
were combined already. The instructions that were there when it started stay as they are until it is
done, so their operands are the only values that are ever combined: with every copy one pair less is
left.
-/

namespace MiddleEnd

namespace StrengthReduction

variable {t : DominatorTree} {g s s' s₀ : State} {op : Opcode} {a b iv rc v r : ValueId}
  {i : InstId} {inst : Inst} {w n fuel : Nat}

def missing (g : State) (op : Opcode) (s : State) : List (ValueId × ValueId) :=
  (g.flow.values.keys ×ˢ g.flow.values.keys).filter fun p => (s.memo.get? (p.1, op, p.2)).isNone

theorem missing_eq (h : ∀ {k v}, s.memo.get? k = some v → s'.memo.get? k = some v) :
    missing g op s' = (missing g op s).filter fun p => (s'.memo.get? (p.1, op, p.2)).isNone := by
  unfold missing
  rw [List.filter_filter]
  refine List.filter_congr fun p _ => ?_
  cases hs : s.memo.get? (p.1, op, p.2) with
  | none => simp
  | some v => simp [h hs]

theorem missing_lt (h : ∀ {k v}, s.memo.get? k = some v → s'.memo.get? k = some v)
    (ha : a ∈ g.flow.values.keys) (hb : b ∈ g.flow.values.keys) (hn : s.memo.get? (a, op, b) = none)
    (hv : s'.memo.get? (a, op, b) = some v) :
    (missing g op s').length < (missing g op s).length := by
  rw [missing_eq h]
  refine List.length_filter_lt_length_iff_exists.2 ⟨(a, b), List.mem_filter.2 ⟨?_, ?_⟩, ?_⟩
  · exact List.pair_mem_product.2 ⟨ha, hb⟩
  · rw [hn]
    rfl
  · rw [hv]
    exact Bool.false_ne_true

theorem missing_length_le (g : State) (op : Opcode) (s : State) :
    (missing g op s).length ≤ g.flow.values.bound * g.flow.values.bound := by
  have hkeys : g.flow.values.keys.length ≤ g.flow.values.bound := by
    unfold Table.keys Table.toList Table.bound
    rw [List.length_map]
    refine Nat.le_trans (List.length_filterMap_le ..) (Nat.le_of_eq ?_)
    simp
  refine Nat.le_trans (List.length_filter_le ..) ?_
  rw [List.length_product]
  exact Nat.mul_le_mul hkeys hkeys

theorem mem_values {g : DataFlow} {ty : Ty} (h : g.ty v = .ok ty) : v ∈ g.values.keys := by
  obtain ⟨o, ho, -⟩ := DataFlow.ty_eq_ok.1 h
  obtain ⟨e, he, -⟩ := DataFlow.origin?_eq_some.1 ho
  exact List.mem_map.2 ⟨(v, e), Table.mem_toList.2 he, rfl⟩

/-- A reduction, or a value to be computed before the loop at a header. -/
inductive Call where
  | reduce (a b : ValueId)
  | applyTo (a b : ValueId) (header : BlockId)

namespace Call

def run (t : DominatorTree) (op : Opcode) (fuel : Nat) (s : State) : Call → Run (ValueId × State)
  | reduce a b => StrengthReduction.reduce t fuel s op a b
  | applyTo a b header => StrengthReduction.applyTo t fuel s op a b header

def left : Call → ValueId
  | reduce a _ | applyTo a _ _ => a

def right : Call → ValueId
  | reduce _ b | applyTo _ b _ => b

def cost : Call → Nat
  | reduce _ _ => 1
  | applyTo _ _ _ => 2

def Starts (t : DominatorTree) (s : State) : Call → Prop
  | reduce a _ => ∃ b, s.headers.get? a = some b
  | applyTo _ _ header => ∃ d, t.idom? header = some d

end Call

/-- A call about integers of a function that later edits left alone. -/
structure Ready (t : DominatorTree) (g s : State) (w : Nat) (c : Call) : Prop where
  steady : Steady t s
  keeps : Keeps g s
  left : g.flow.ty c.left = .ok (.int w)
  right : g.flow.ty c.right = .ok (.int w)
  starts : c.Starts t s

/-- A call yields an integer that is kept for reuse. -/
structure Reduced (t : DominatorTree) (s : State) (w : Nat) (r : ValueId × State) : Prop where
  steady : Steady t r.2
  keeps : Keeps s r.2
  ty : r.2.flow.ty r.1 = .ok (.int w)
  known : ∃ k, r.2.memo.get? k = some r.1

theorem Ready.known {c : Call} (h : Ready t g s w c)
    (hv : s.memo.get? (c.left, op, c.right) = some v) :
    Reduced t s w (v, s) := by
  obtain ⟨-, ty, hty, hsame⟩ := h.steady.memo hv
  cases hsame (h.keeps.ty h.left)
  exact ⟨h.steady, .refl s, hty, _, hv⟩

theorem Ready.operands (h : Ready t g s w (.reduce a b)) (hg : Steady t g) {j : InstId}
    (ho : s.flow.origin? a = some (.result (.int w) j)) (hj : s.flow.inst? j = some inst)
    (hop : inst.op = .phi ∨ inst.op.Linear) : ∀ v ∈ inst.args, g.flow.ty v = .ok (.int w) := by
  obtain ⟨o, ho', -⟩ := DataFlow.ty_eq_ok.1 h.left
  cases (h.keeps.origin? ho').symm.trans ho
  have hres := hg.coherent.flow.origin_result ho'
  obtain ⟨jnst, hj'⟩ := DataFlow.hasInst_of_result hres
  cases (h.keeps.inst? hj').symm.trans hj
  obtain ⟨ty, hty⟩ := hg.uniform j inst hj' hop
  cases (hty.result _ hres).symm.trans h.left
  exact hty.args

/-- A copy of an instruction, with some operands set. -/
structure Copying (t : DominatorTree) (s₀ : State) (inst : Inst) (w : Nat)
    (i : InstId) (r : ValueId) (k : ValueId × Opcode × ValueId) (s : State) : Prop where
  steady : Steady t s
  keeps : Keeps s₀ s
  copy : ∃ c, s.flow.inst? i = some c ∧ c.args.length = inst.args.length
  origin? : s.flow.origin? r = some (.result (.int w) i)
  known : s.memo.get? k = some r

theorem Ready.copies (h : Ready t g s w (.reduce a b))
    (hm : s.memo.get? (a, op, b) = none) {c : BlockId} (hc : s.headers.get? a = some c)
    (hop : inst.op = .phi ∨ inst.op.Linear) (hadded : Added t s inst w i r s'.builder)
    (hs' : s' = { s with builder := s'.builder }) :
    Copying t s inst w i r (a, op, b)
      { s' with memo := s'.memo.insert (a, op, b) r, headers := s'.headers.insert r c } := by
  obtain ⟨b', _, _, _⟩ := s'
  cases hs'
  obtain ⟨-, d, hd⟩ := h.steady.header hc
  have hnote := hadded.steady.note ⟨w, i, inst, hadded.origin?, hadded.inst?, hop⟩ hd
  have hty : b'.flow.ty a = .ok (.int w) :=
    DataFlow.ty_of_kept hadded.keeps.origin? (h.keeps.ty h.left)
  refine ⟨hnote.remember (b := b) hty (DataFlow.ty_of_origin hadded.origin?), ?_,
    ⟨inst, hadded.inst?, rfl⟩, hadded.origin?, ?_⟩
  · refine (hadded.keeps.note hadded.new c).remember hm fun ty j hr => ?_
    cases hadded.new.symm.trans hr
  · rw [Dict.get?_insert, if_pos rfl]

theorem Copying.set {k : ValueId × Opcode × ValueId} (h : Copying t s₀ inst w i r k s)
    (hfresh : s₀.flow.inst? i = none) (hn : n < inst.args.length) {x : ValueId × State}
    (hx : Reduced t s w x) :
    ∃ s', x.2.setArg i n x.1 = .ok s' ∧ Copying t s₀ inst w i r k s' := by
  obtain ⟨c, hc, hlength⟩ := h.copy
  have hn' : n < c.args.length := by rwa [hlength]
  obtain ⟨g, hset, hsteady, hinst, horigin, hkeeps⟩ :=
    hx.steady.setArg_ok (hx.keeps.inst? hc) hn' (hx.keeps.origin? h.origin?) hx.ty
  refine ⟨_, hset, hsteady, hkeeps (h.keeps.trans hx.keeps) hfresh, ⟨_, hinst, ?_⟩, ?_,
    hx.keeps.memo h.known⟩
  · rw [Inst.args_setArg _ hn', List.length_set, hlength]
  · exact horigin (hx.keeps.origin? h.origin?)

theorem setOperand_ok {k : ValueId × Opcode × ValueId} (h : Copying t s₀ inst w i r k s)
    (hfresh : s₀.flow.inst? i = none) (hn : n < inst.args.length)
    {reduce applyTo : State → ValueId → Run (ValueId × State)} {header : BlockId} {applies : Bool}
    (hreduce : s.headers.get? v = some header → (reduce s v).Succeeds True (Reduced t s w))
    (happly : s.headers.get? v ≠ some header → (applyTo s v).Succeeds True (Reduced t s w)) :
    (setOperand reduce applyTo header applies i s (v, n)).Succeeds True
      (Copying t s₀ inst w i r k) := by
  unfold setOperand
  dsimp only
  split
  · rename_i hheader
    exact (hreduce hheader).bind fun x hx => Run.succeeds_lift (h.set hfresh hn hx)
  · rename_i hheader
    split
    · exact (happly hheader).bind fun x hx => Run.succeeds_lift (h.set hfresh hn hx)
    · exact Run.succeeds_pure h

/-- The call that a copy of an instruction makes for an operand. -/
def Call.forOperand (s : State) (header : BlockId) (v b : ValueId) : Call :=
  if s.headers.get? v = some header then .reduce v b else .applyTo v b header

theorem Copying.ready (h : Ready t g s w (.reduce a b)) (hm : s.memo.get? (a, op, b) = none)
    {c d : BlockId} (hd : t.idom? c = some d) (hs : Copying t s inst w i r (a, op, b) s')
    (hv : g.flow.ty v = .ok (.int w)) :
    Ready t g s' w (.forOperand s' c v b) ∧ (missing g op s').length < (missing g op s).length := by
  refine ⟨?_, missing_lt hs.keeps.memo (mem_values h.left) (mem_values h.right) hm hs.known⟩
  unfold Call.forOperand
  split
  · rename_i hc
    exact ⟨hs.steady, h.keeps.trans hs.keeps, hv, h.right, _, hc⟩
  · exact ⟨hs.steady, h.keeps.trans hs.keeps, hv, h.right, _, hd⟩

/-- With two steps for every pair that was not combined yet, every call comes to its end. -/
def Enough (t : DominatorTree) (g : State) (op : Opcode) (w fuel : Nat) : Prop :=
  ∀ {s c}, Ready t g s w c → 2 * (missing g op s).length + c.cost ≤ fuel →
    (c.run t op fuel s).Succeeds True (Reduced t s w)

theorem operands_ok (ih : Enough t g op w fuel) (h : Ready t g s w (.reduce a b))
    (hfuel : 2 * (missing g op s).length ≤ fuel) (hm : s.memo.get? (a, op, b) = none)
    {c d : BlockId} (hd : t.idom? c = some d) (hargs : ∀ v ∈ inst.args, g.flow.ty v = .ok (.int w))
    (hfresh : s.flow.inst? i = none) {s₁ : State} (hs : Copying t s inst w i r (a, op, b) s₁)
    (applies : Bool) {pre post : List (ValueId × Nat)} (hpre : inst.args.zipIdx = pre ++ post) :
    (pre.foldlM (setOperand (reduce t fuel · op · b) (applyTo t fuel · op · b c) c applies i)
      s₁).Succeeds True (Copying t s inst w i r (a, op, b)) := by
  refine Run.succeeds_foldlM (fun _ s' => Copying t s inst w i r (a, op, b) s') hs ?_
  rintro done ⟨v, n⟩ todo s' rfl hs'
  have hvn : (v, n) ∈ inst.args.zipIdx :=
    hpre ▸ List.mem_append_left _ (List.mem_append_right _ List.mem_cons_self)
  have hget := List.mem_zipIdx_iff_getElem?.1 hvn
  obtain ⟨hready, hless⟩ := hs'.ready h hm hd (hargs v (List.mem_of_getElem? hget))
  have hcall := ih hready
  unfold Call.forOperand at hcall
  refine setOperand_ok hs' hfresh (List.getElem?_eq_some_iff.1 hget).1
    (fun hheader => ?_) fun hheader => ?_
  · rw [if_pos hheader] at hcall
    exact hcall (by simp only [Call.cost]; omega)
  · rw [if_neg hheader] at hcall
    exact hcall (by simp only [Call.cost]; omega)

theorem reduce_ok (hg : Steady t g) (ih : Enough t g op w fuel) (h : Ready t g s w (.reduce a b))
    (hfuel : 2 * (missing g op s).length + 1 ≤ fuel + 1) :
    (reduce t (fuel + 1) s op a b).Succeeds True (Reduced t s w) := by
  rw [reduce]
  cases hm : s.memo.get? (a, op, b) with
  | some v => exact Run.succeeds_pure (h.known hm)
  | none =>
    obtain ⟨c, hc⟩ := h.starts
    obtain ⟨-, d, hd⟩ := h.steady.header hc
    refine (Run.succeeds_lift (P := (· = c)) ⟨c, by rw [Dict.get, hc]; rfl, rfl⟩).bind ?_
    rintro _ rfl
    refine (cloneDefinition_ok h.steady hc (h.keeps.ty h.left)).bind ?_
    rintro ⟨inst, i, r, s₁⟩ ⟨j, ho, hj, hop, hadded, hs₁⟩
    dsimp only at hj hop hadded hs₁ ⊢
    have hcopy := h.copies hm hc hop hadded hs₁
    refine (operands_ok ih h (Nat.le_of_succ_le_succ hfuel) hm hd (h.operands hg ho hj hop)
      hadded.fresh hcopy _ (List.append_nil _).symm).bind fun s' hs' => ?_
    exact Run.succeeds_pure ⟨hs'.steady, hs'.keeps, DataFlow.ty_of_origin hs'.origin?, _, hs'.known⟩

theorem isInvariant_ok {f : Func} {o : ValueDef} (hv : f.flow.origin? v = some o)
    (header : BlockId) :
    ∃ p, isInvariant t f v header = .ok p := by
  unfold isInvariant
  rw [DataFlow.origin_eq_ok.2 hv, ok_bind]
  cases o <;> exact ⟨_, rfl⟩

theorem isCandidate_ok {x y : ValueId} {ty : Ty} (hy : s.flow.ty y = .ok ty) :
    ∃ p, isCandidate t s x y = .ok p ∧ (p = true → ∃ b, s.headers.get? x = some b) := by
  obtain ⟨o, ho, -⟩ := DataFlow.ty_eq_ok.1 hy
  unfold isCandidate
  split
  · rename_i header hheader
    obtain ⟨p, hp⟩ := isInvariant_ok (t := t) (f := s.func) ho header
    exact ⟨p, hp, fun _ => ⟨header, hheader⟩⟩
  · exact ⟨false, rfl, fun hp => absurd hp Bool.false_ne_true⟩

theorem applyTo_ok (hop : op.Linear) (ih : Enough t g op w fuel) {c : BlockId}
    (h : Ready t g s w (.applyTo a b c)) (hfuel : 2 * (missing g op s).length + 2 ≤ fuel + 1) :
    (applyTo t (fuel + 1) s op a b c).Succeeds True (Reduced t s w) := by
  rw [applyTo]
  cases hm : s.memo.get? (a, op, b) with
  | some v => exact Run.succeeds_pure (h.known hm)
  | none =>
    obtain ⟨d, hd⟩ := h.starts
    have ha := h.keeps.ty h.left
    have hb := h.keeps.ty h.right
    have hreduce : ∀ {x y}, g.flow.ty x = .ok (.int w) → g.flow.ty y = .ok (.int w) →
        (∃ b, s.headers.get? x = some b) → (reduce t fuel s op x y).Succeeds True (Reduced t s w) :=
      fun hx hy hheader => ih (c := .reduce _ _) ⟨h.steady, h.keeps, hx, hy,
        hheader⟩ (Nat.le_of_succ_le_succ hfuel)
    have hmaterialize : (materialize t s op a b c >>= fun r => (pure (r.1, { r.2 with
        memo := r.2.memo.insert (a, op, b) r.1 }) :
          Run (ValueId × State))).Succeeds True (Reduced t s w) := by
      refine (materialize_ok h.steady hop ha hb hd).bind fun r hr => Run.succeeds_pure ?_
      refine ⟨hr.steady.remember (hr.keeps.ty ha) hr.ty, hr.keeps.remember hm hr.new, hr.ty,
        (a, op, b), ?_⟩
      rw [Dict.get?_insert, if_pos rfl]
    obtain ⟨p, hp, hpa⟩ := isCandidate_ok (t := t) (x := a) hb
    refine (Run.succeeds_lift (P := (· = p)) ⟨p, hp, rfl⟩).bind ?_
    rintro q rfl
    cases q with
    | true => exact hreduce h.left h.right (hpa rfl)
    | false =>
      rw [if_neg Bool.false_ne_true]
      split
      · obtain ⟨p, hp, hpb⟩ := isCandidate_ok (t := t) (x := b) ha
        refine (Run.succeeds_lift (P := (· = p)) ⟨p, hp, rfl⟩).bind ?_
        rintro q rfl
        cases q with
        | true => exact hreduce h.right h.left (hpb rfl)
        | false =>
          rw [if_neg Bool.false_ne_true]
          exact hmaterialize
      · exact hmaterialize

theorem enough (hg : Steady t g) (hop : op.Linear) (fuel : Nat) : Enough t g op w fuel := by
  induction fuel with
  | zero =>
    intro s c _ hfuel
    cases c <;> simp [Call.cost] at hfuel
  | succ fuel ih =>
    intro s c h hfuel
    cases c with
    | reduce a b => exact reduce_ok hg ih h hfuel
    | applyTo a b header => exact applyTo_ok hop ih h hfuel

theorem setOperand_extends
    {reduce applyTo reduce' applyTo' : State → ValueId → Run (ValueId × State)}
    (hreduce : ∀ s v, (reduce s v).Extends (reduce' s v))
    (happly : ∀ s v, (applyTo s v).Extends (applyTo' s v)) (header : BlockId) (applies : Bool)
    (i : InstId) (s : State) (x : ValueId × Nat) :
    (setOperand reduce applyTo header applies i s x).Extends
      (setOperand reduce' applyTo' header applies i s x) := by
  unfold setOperand
  dsimp only
  split
  · exact (hreduce s x.1).bind fun _ => .refl _
  · split
    · exact (happly s x.1).bind fun _ => .refl _
    · exact .refl _

theorem call_extends (t : DominatorTree) (op : Opcode) (fuel : Nat) (s : State) (c : Call) :
    (c.run t op fuel s).Extends (c.run t op (fuel + 1) s) := by
  induction fuel generalizing s c with
  | zero => cases c <;> exact Run.extends_throw _ _
  | succ fuel ih =>
    cases c with
    | reduce a b =>
      show (reduce t (fuel + 1) s op a b).Extends (reduce t (fuel + 1 + 1) s op a b)
      rw [reduce, reduce]
      split
      · exact .refl _
      · refine (Run.Extends.refl _).bind fun header => (Run.Extends.refl _).bind fun cloned => ?_
        refine (Run.extends_foldlM (fun s x => ?_) _ _).bind fun _ => .refl _
        exact setOperand_extends (fun s v => ih s (.reduce v b)) (fun s v =>
          ih s (.applyTo v b header)) _ _ _ _ _
    | applyTo a b header =>
      show (applyTo t (fuel + 1) s op a b header).Extends (applyTo t (fuel + 1 + 1) s op a b header)
      rw [applyTo, applyTo]
      split
      · exact .refl _
      · refine (Run.Extends.refl _).bind fun p => ?_
        cases p with
        | true => exact ih s (.reduce a b)
        | false =>
          rw [if_neg Bool.false_ne_true, if_neg Bool.false_ne_true]
          split
          · refine (Run.Extends.refl _).bind fun p => ?_
            cases p with
            | true => exact ih s (.reduce b a)
            | false => exact .refl _
          · exact .refl _

theorem call_extends_le {m n : Nat} (h : m ≤ n) (c : Call) :
    (c.run t op m s).Extends (c.run t op n s) := by
  induction h with
  | refl => exact .refl _
  | step _ ih => exact ih.trans (call_extends t op _ s c)

/-- Whoever listens, from some number of steps on the call ends, and always with the same value. -/
def Call.Settles (t : DominatorTree) (op : Opcode) (s : State) (c : Call)
    (P : ValueId × State → Prop) : Prop :=
  ∃ k, ∀ log, ∃ r log', P r ∧ ∀ fuel, k ≤ fuel → (c.run t op fuel s).exec log = (.ok r, log')

theorem Ready.settles (hg : Steady t g) (hop : op.Linear) {c : Call} (h : Ready t g s w c) :
    c.Settles t op s fun r => Anchored t r.2 := by
  refine ⟨2 * (missing g op s).length + c.cost, fun log => ?_⟩
  obtain ⟨r, log', hr, -, hreduced⟩ := enough hg hop _ h (Nat.le_refl _) log (.inr trivial)
  exact ⟨r, log', hreduced.steady.anchored, fun fuel hle => call_extends_le hle c log r log' hr⟩

/-- A call makes another one: a reduction for each operand of the copy, and what is to be computed
before a loop for a reduction of one of its operands. -/
inductive Makes (t : DominatorTree) (op : Opcode) : State × Call → State × Call → Prop where
  | operand {s s₁ s' : State} {a b v r : ValueId} {header : BlockId} {inst : Inst} {i : InstId}
      {fuel n : Nat} {pre post : List (ValueId × Nat)} (new : s.memo.get? (a, op, b) = none)
      (varies : s.headers.get? a = some header)
      (copy : (cloneDefinition s a).Gives (inst, i, r, s₁))
      (split : inst.args.zipIdx = pre ++ (v, n) :: post) (before : (pre.foldlM
        (setOperand (reduce t fuel · op · b) (applyTo t fuel · op · b header) header
          (inst.op.isPhi || op == .mul) i)
        { s₁ with
          memo := s₁.memo.insert (a, op, b) r
          headers := s₁.headers.insert r header }).Gives s')
      (asks : s'.headers.get? v = some header ∨ (inst.op.isPhi || op == .mul) = true) :
      Makes t op (s, .reduce a b) (s', .forOperand s' header v b)
  | left {s : State} {a b : ValueId} {header : BlockId} (new : s.memo.get? (a, op, b) = none)
      (varies : isCandidate t s a b = .ok true) :
      Makes t op (s, .applyTo a b header) (s, .reduce a b)
  | right {s : State} {a b : ValueId} {header : BlockId} (new : s.memo.get? (a, op, b) = none)
      (stays : isCandidate t s a b = .ok false) (commutes : op.isCommutative = true)
      (varies : isCandidate t s b a = .ok true) :
      Makes t op (s, .applyTo a b header) (s, .reduce b a)

theorem Makes.ready {p q : State × Call} (hm : Makes t op p q) (hg : Steady t g) (hop : op.Linear)
    (h : Ready t g p.1 w p.2) : Ready t g q.1 w q.2 := by
  cases hm with
  | @operand s s₁ s' a b v r header inst i fuel n pre post new varies copy split before =>
    obtain ⟨j, ho, hj, hplain, hadded, hs₁⟩ :=
      (cloneDefinition_ok h.steady varies (h.keeps.ty h.left)).of_gives copy
    have hcopy := h.copies new varies hplain hadded hs₁
    have hargs := h.operands hg ho hj hplain
    obtain ⟨-, d, hd⟩ := h.steady.header varies
    -- With more steps the operands before are set in the same way, and with enough of them they are
    -- known to be.
    have hle : fuel ≤ fuel + 2 * (missing g op s).length := Nat.le_add_right ..
    have hmore := before.extend (Run.extends_foldlM (fun s' x => setOperand_extends
      (fun s' v => call_extends_le hle (.reduce v b)) (fun s' v =>
      call_extends_le hle (.applyTo v b header)) header _ i s' x) pre _)
    have hs' := (operands_ok (enough hg hop _) h (Nat.le_add_left ..) new hd hargs hadded.fresh
      hcopy _ split).of_gives hmore
    have hget := List.mem_zipIdx_iff_getElem?.1 (split ▸ List.mem_append_right _ List.mem_cons_self)
    exact (hs'.ready h new hd (hargs v (List.mem_of_getElem? hget))).1
  | left new varies =>
    obtain ⟨p, hp, hheader⟩ := isCandidate_ok (t := t) (h.keeps.ty h.right)
    cases hp.symm.trans varies
    exact ⟨h.steady, h.keeps, h.left, h.right, hheader rfl⟩
  | right new stays commutes varies =>
    obtain ⟨p, hp, hheader⟩ := isCandidate_ok (t := t) (h.keeps.ty h.left)
    cases hp.symm.trans varies
    exact ⟨h.steady, h.keeps, h.right, h.left, hheader rfl⟩

theorem Ready.connects {p q : State × Call} (h : Ready t g p.1 w p.2) (hg : Steady t g)
    (hop : op.Linear) (conn : Connects (Makes t op) p q) : Ready t g q.1 w q.2 := by
  obtain ⟨path, hw⟩ := conn
  induction hw with
  | single => exact h
  | cons hm _ ih => exact ih (hm.ready hg hop h)

end StrengthReduction

end MiddleEnd
