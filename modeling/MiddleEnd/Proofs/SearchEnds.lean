import MiddleEnd.Proofs.SearchTurns

/-!
# The search for facts ends

The search follows turns, and these leave less to do. So the steps that it is given suffice, in each
round and for the rounds: it ends, with facts or in a fault of something that it looked at.
-/

namespace MiddleEnd

open Checked

namespace DataFlow

theorem inst_ends (g : DataFlow) (i : InstId) : (g.inst i).Ends := ends_ofOption (by decide) _

theorem origin_ends (g : DataFlow) (v : ValueId) : (g.origin v).Ends := ends_ofOption (by decide) _

theorem result_ends (g : DataFlow) (i : InstId) : (g.result i).Ends := ends_ofOption (by decide) _

theorem ty_ends (g : DataFlow) (v : ValueId) : (g.ty v).Ends :=
  (g.origin_ends v).bind fun _ => ends_ok _

theorem users_ends (g : DataFlow) (v : ValueId) : (g.users v).Ends := ends_ofOption (by simp) _

end DataFlow

theorem Ty.width_ends (ty : Ty) : ty.width.Ends := by
  cases ty <;> simp [Ty.width, Checked.Ends]

namespace Func

theorem insts_ends (f : Func) (b : BlockId) : (f.insts b).Ends :=
  (ends_ofOption (by decide) _).bind fun _ => ends_ok _

theorem terminator?_ends (f : Func) (b : BlockId) : (f.terminator? b).Ends :=
  ((f.insts_ends b).bind fun _ => ends_ok _).bind fun _ => ends_ok _

theorem instText_ends (f : Func) (i : InstId) : (f.instText i).Ends := by
  refine (f.flow.inst_ends i).bind fun inst => ?_
  have hoperands : (f.operandText inst).Ends := by
    unfold operandText
    split
    · exact (ends_ofOption (by decide) _).bind fun _ => ends_ok _
    · exact ends_ok _
    · exact ends_ok _
  dsimp only
  split
  · exact (f.flow.ty_ends _).bind fun _ => hoperands.bind fun _ => ends_ok _
  · exact hoperands.bind fun _ => ends_ok _

end Func

namespace Word

theorem ofNat_ends (width n : Nat) : (ofNat width n).Ends := by
  unfold ofNat
  split <;> simp [Checked.Ends]

theorem ofInt_ends (width : Nat) (i : Int) : (ofInt width i).Ends := by
  unfold ofInt
  split <;> simp [Checked.Ends]

theorem evalBinary_ends (op : Opcode) (a b : Word) : (evalBinary op a b).Ends := by
  unfold evalBinary
  split <;> simp [Checked.Ends]

theorem evalCompare_ends (op : Opcode) (a b : Word) : (evalCompare op a b).Ends := by
  have hult : ∀ a b : Word, (a.ult b).Ends := fun a b => by
    unfold ult
    split <;> simp [Checked.Ends]
  have hslt : ∀ a b : Word, (a.slt b).Ends := fun a b => by
    unfold slt
    split <;> simp [Checked.Ends]
  refine Ends.map ?_ _
  cases op <;> first | exact ends_ok _ | exact (hult _ _).map _ | exact (hslt _ _).map _

theorem evalCast_ends (op : Opcode) (a : Word) (width : Nat) : (evalCast op a width).Ends := by
  unfold evalCast
  split
  · exact (ofNat_ends _ _).map _
  · exact (ofNat_ends _ _).map _
  · exact (ofInt_ends _ _).map _
  · exact ends_ok _

end Word

theorem Facts.value_ends (facts : Facts) (f : Func) (v : ValueId) : (facts.value f v).Ends := by
  refine (f.flow.origin_ends v).bind fun o => ?_
  split <;> exact ends_ok _

namespace Propagation

variable {f : Func} {order : UserOrder} {call : CallRule} {s s' : State} {t t' : Spot}

theorem absorb_ends (op : Opcode) (width : Nat) (x y : LatticeValue) :
    (absorb op width x y).Ends := by
  have hword : ∀ (n : Nat) (c : Bool),
      Checked.Ends (if c then do return some (← Word.ofNat width n) else return none) := fun n c =>
      by
    split
    · exact (Word.ofNat_ends _ _).bind fun _ => ends_ok _
    · exact ends_ok _
  unfold absorb
  split
  · exact hword 0 _
  · exact hword 0 _
  · exact hword _ _
  · exact ends_ok _

theorem evalKnown_ends (f : Func) (i : InstId) (op : Opcode) (args : List LatticeValue) :
    (evalKnown f i op args).Ends := by
  unfold evalKnown
  dsimp only
  split
  · split
    · exact (Word.evalBinary_ends _ _ _).bind fun _ => ends_ok _
    · split
      · exact (Word.evalCompare_ends _ _ _).bind fun _ => ends_ok _
      · exact ends_ok _
  · split
    · exact ends_ok _
    · split
      · exact (f.flow.result_ends i).bind fun _ => (f.flow.ty_ends _).bind fun _ =>
          (Ty.width_ends _).bind fun _ =>
          (Word.evalCast_ends _ _ _).bind fun _ => ends_ok _
      · exact ends_ok _
  · exact ends_ok _

theorem evalPure_ends (f : Func) (facts : Facts) (i : InstId) (inst : Inst) :
    (evalPure f facts i inst).Ends := by
  refine (ends_mapM (facts.value_ends f) _).bind fun args => ?_
  split
  · refine (f.flow.result_ends i).bind fun _ => (f.flow.ty_ends _).bind fun _ =>
      (Ty.width_ends _).bind fun _ =>
      (ends_nth _ _).bind fun _ => (ends_nth _ _).bind fun _ =>
        (absorb_ends _ _ _ _).bind fun w => ?_
    split
    · exact ends_ok _
    · exact evalKnown_ends f i _ args
  · exact evalKnown_ends f i _ args

theorem evalPhi_ends (f : Func) (facts : Facts) (b : BlockId) (inst : Inst) :
    (evalPhi f facts b inst).Ends :=
  ends_foldlM (fun _ _ => (facts.value_ends f _).bind fun _ => ends_ok _) _ _

theorem update_ends (f : Func) (s : State) (v : ValueId) (x : LatticeValue) :
    (s.update f v x).Ends := by
  refine (Run.ends_lift (s.facts.value_ends f v)).bind fun old => ?_
  dsimp only
  split
  · exact Run.ends_pure _
  · exact (Run.ends_log (ends_ok _)).bind fun _ => Run.ends_pure _

theorem visitBranch_ends (f : Func) (s : State) (b : BlockId) (inst : Inst) :
    (visitBranch f s b inst).Ends := by
  unfold visitBranch
  split
  · exact (ends_nth _ _).bind fun _ => ends_ok _
  refine (ends_nth _ _).bind fun _ => (s.facts.value_ends f _).bind fun x => ?_
  split
  · exact ends_ok _
  · exact (ends_nth _ _).bind fun _ => ends_ok _
  · exact (ends_nth _ _).bind fun _ => (ends_nth _ _).bind fun _ => ends_ok _

theorem visit_ends (hcall : ∀ facts i inst, (call facts i inst).Ends) (s : State) (i : InstId) :
    (visit f call s i).Ends := by
  refine (Run.ends_lift (f.flow.inst_ends i)).bind fun inst => ?_
  have hresult : ∀ x : LatticeValue, ((liftM (f.flow.result i) : Run ValueId) >>= fun r =>
      s.update f r x).Ends :=
    fun x => (Run.ends_lift (f.flow.result_ends i)).bind fun r => update_ends f s r x
  split
  · split
    · exact (Run.ends_lift (evalPhi_ends f _ _ _)).bind hresult
    · exact Run.ends_pure _
  · split
    · exact Run.ends_lift (visitBranch_ends f s _ _)
    · exact Run.ends_pure _
  · split
    · exact Run.ends_lift (visitBranch_ends f s _ _)
    · exact Run.ends_pure _
  · exact Run.ends_pure _
  · exact (Run.ends_lift (ends_nth _ _)).bind fun _ =>
      (Run.ends_lift (s.facts.value_ends f _)).bind fun _ =>
      Run.ends_pure _
  · split
    · exact (hcall _ _ _).bind fun x => update_ends f s _ x
    · exact Run.ends_pure _
  · split
    · exact (Run.ends_lift (evalPure_ends f _ _ _)).bind hresult
    · split
      · exact update_ends f s _ _
      · exact Run.ends_pure _

theorem looks_turns {look : State → InstId → Run State} (I : State → Prop) {l : List InstId}
    (hlook : ∀ {s i rest}, i ∈ l → I s → (look s i).Ensures fun s' => I s' ∧
      Turn f call ⟨s, i :: rest⟩ ⟨s', rest⟩)
    (hs : I s) : (l.foldlM look s).Ensures fun s' => Turns f call ⟨s, l⟩ ⟨s', []⟩ := by
  induction l generalizing s with
  | nil => exact Run.ensures_pure .refl
  | cons i l ih =>
    rw [List.foldlM_cons]
    have hfirst : (look s i).Ensures fun s' => I s' ∧ Turn f call ⟨s, i :: l⟩ ⟨s', l⟩ :=
      hlook List.mem_cons_self hs
    refine hfirst.bind ?_
    rintro s₁ ⟨hs₁, hturn⟩
    exact (ih (fun hi => hlook (List.mem_cons_of_mem _ hi)) hs₁).mono fun s' h => .head hturn h

theorem enter_turns (hc : f.Coherent) (b : BlockId) :
    (enter f call s b).Ensures fun s' => ∃ xs, f.insts b = .ok xs ∧ Turns f call
      (.enter f s b xs) ⟨s', []⟩ := by
  unfold enter
  refine Run.ensures_after fun _ => Run.Ensures.bind (Run.ensures_lift fun xs hxs => hxs)
    fun xs hxs => ?_
  have hlook : ∀ {s i} {rest : List InstId}, i ∈ xs → s.facts.runs b = true →
      (visit f call s i).Ensures fun s' =>
      s'.facts.runs b = true ∧ Turn f call ⟨s, i :: rest⟩ ⟨s', rest⟩ := by
    intro s i rest hi hs log s' log' h
    have hb : f.layout.blockOf? i = some b := hc.blockOf?_eq_some.2 ⟨xs, hxs, hi⟩
    refine ⟨?_, .look (.refl _) (by rw [hb]; exact hs) ⟨log, log', h⟩⟩
    exact ((visit_shifted hc call s i log s' log' h).runs b).trans hs
  unfold Spot.enter
  split
  · rename_i hruns
    exact (looks_turns _ (fun hi => hlook (List.mem_filter.1 hi).1) hruns).mono
      fun s' h => ⟨xs, hxs, h⟩
  · rename_i hruns
    exact (looks_turns _ hlook (by simp [Facts.runs])).mono fun s' h => ⟨xs, hxs, h⟩

theorem Turn.perm {todo todo' : List InstId} (h : Turn f call ⟨s, todo⟩ t) (hp : todo'.Perm todo) :
    Turn f call ⟨s, todo'⟩ t := by
  cases h with
  | look pick runs h => exact .look (hp.trans pick) runs h
  | skip pick idle => exact .skip (hp.trans pick) idle
  | start pick hxs =>
    cases hp.eq_nil
    exact .start pick hxs
  | drop pick old =>
    cases hp.eq_nil
    exact .drop pick old
  | take pick new hxs =>
    cases hp.eq_nil
    exact .take pick new hxs
  | users pick hus =>
    cases hp.eq_nil
    exact .users pick hus

theorem Turns.perm {todo todo' : List InstId} (h : Turns f call ⟨s, todo⟩ ⟨s', []⟩)
    (hp : todo'.Perm todo) : Turns f call ⟨s, todo'⟩ ⟨s', []⟩ := by
  rcases h.cases_head with h | ⟨t, hturn, hturns⟩
  · cases h
    rw [hp.eq_nil]
  · exact .head (hturn.perm hp) hturns

theorem visitUsers_turns (order : UserOrder) (f : Func) (call : CallRule) (s : State)
    (v : ValueId) :
    (visitUsers order f call s v).Ensures fun s' =>
      ∃ us, f.flow.users v = .ok us ∧ Turns f call ⟨s, us.toList⟩ ⟨s', []⟩ := by
  refine Run.Ensures.bind (Run.ensures_lift fun us hus => hus) fun us hus => ?_
  refine (looks_turns (fun _ => True) (fun {s i rest} _ _ => ?_) trivial).mono fun s' h =>
    ⟨us, hus, Turns.perm h (order.perm f v us).symm⟩
  split
  · rename_i hruns
    exact (Run.ensures_gives _).mono fun s' h => ⟨trivial, .look (.refl _) hruns h⟩
  · rename_i hidle
    exact Run.ensures_pure ⟨trivial, .skip (.refl _) (Bool.eq_false_iff.2 hidle)⟩

/-- A piece of work is one turn that takes it up, and turns that look at what it brings. -/
inductive Piece (f : Func) (call : CallRule) (s s' : State) : Prop where
  | mk {t : Spot} (h : Turn f call ⟨s, []⟩ t) (hs : Turns f call t ⟨s', []⟩)

theorem first_piece (hc : f.Coherent) {facts : Facts} {rest : List (Option BlockId × BlockId)}
    {values : List ValueId} {b : BlockId} :
    (enter f call ⟨facts, rest, values⟩ b).Ensures
      (Piece f call ⟨facts, (none, b) :: rest, values⟩) := by
  refine (enter_turns hc b).mono ?_
  rintro s' ⟨xs, hxs, h⟩
  exact ⟨.start (.refl _) hxs, h⟩

theorem take_piece (hc : f.Coherent) {facts : Facts} {rest : List (Option BlockId × BlockId)}
    {values : List ValueId} {a b : BlockId} (new : facts.taken a b = false) :
    (enter f call ⟨{ facts with edges := (a, b) :: facts.edges }, rest, values⟩ b).Ensures
      (Piece f call ⟨facts, (some a, b) :: rest, values⟩) := by
  refine (enter_turns hc b).mono ?_
  rintro s' ⟨xs, hxs, h⟩
  exact ⟨.take (.refl _) new hxs, h⟩

theorem users_piece (order : UserOrder) (f : Func) (call : CallRule) (facts : Facts)
    (edges : List (Option BlockId × BlockId)) (rest : List ValueId) (v : ValueId) :
    (visitUsers order f call ⟨facts, edges, rest⟩ v).Ensures
      (Piece f call ⟨facts, edges, v :: rest⟩) := by
  refine (visitUsers_turns order f call _ v).mono ?_
  rintro s' ⟨us, hus, h⟩
  exact ⟨.users (.refl _) hus, h⟩

theorem Piece.turns (h : Piece f call s s') : Turns f call ⟨s, []⟩ ⟨s', []⟩ := by
  obtain ⟨h, hs⟩ := h
  exact .head h hs

theorem propagate_turns (hc : f.Coherent) (fuel : Nat) (s : State) :
    (propagate order f call fuel s).Ensures fun s' =>
      Turns f call ⟨s, []⟩ ⟨s', []⟩ ∧ s'.edgeWork = [] ∧ s'.valueWork = [] := by
  induction fuel generalizing s with
  | zero => exact Run.ensures_throw _
  | succ fuel ih =>
    obtain ⟨facts, edges, values⟩ := s
    have hnext : ∀ {s₀ s : State}, Turns f call ⟨s₀, []⟩ ⟨s, []⟩ →
        (propagate order f call fuel s).Ensures fun s' =>
        Turns f call ⟨s₀, []⟩ ⟨s', []⟩ ∧ s'.edgeWork = [] ∧ s'.valueWork = [] := by
      intro s₀ s hturns
      refine (ih s).mono ?_
      rintro s' ⟨h, hempty⟩
      exact ⟨hturns.trans h, hempty⟩
    match edges, values with
    | (none, b) :: rest, values => exact (first_piece hc).bind fun s h => hnext h.turns
    | (some a, b) :: rest, values =>
      unfold propagate
      dsimp only
      split
      · rename_i old
        exact hnext (.single (.drop (.refl _) old))
      · rename_i new
        exact (take_piece hc (Bool.eq_false_iff.2 new)).bind fun s h => hnext h.turns
    | [], v :: rest =>
      exact (users_piece order f call facts [] rest v).bind fun s h => hnext h.turns
    | [], [] => exact Run.ensures_pure ⟨.refl, rfl, rfl⟩

theorem rounds_moves (hc : f.Coherent) (fuel : Nat) (s : State) :
    (rounds order f call fuel s).Ensures fun facts =>
      ∃ t, Moves f call ⟨s, []⟩ t ∧ t.Finished f ∧ t.state.facts = facts := by
  induction fuel generalizing s with
  | zero => exact Run.ensures_throw _
  | succ fuel ih =>
    refine (propagate_turns hc _ s).bind ?_
    rintro s₁ ⟨hturns, hedges, hvalues⟩
    refine Run.Ensures.bind (Run.ensures_lift fun s₂ h => h) fun s₂ hres => ?_
    split
    · rename_i hdone
      have hfin : Spot.Finished f ⟨s₁, []⟩ :=
        ⟨rfl, hedges, hvalues, s₂, hres, List.isEmpty_iff.1 hdone⟩
      refine Run.ensures_pure ⟨⟨s₁, []⟩, Turns.moves hturns, hfin, ?_⟩
      exact (resolveUnknown_widened hc hedges hres).facts.symm
    · rename_i hmore
      refine (ih s₂).mono ?_
      rintro facts ⟨t, hmoves, hfin⟩
      refine ⟨t, (Turns.moves hturns).trans (.head (.resolve hedges hvalues hres fun h => hmore ?_)
        hmoves), hfin⟩
      rw [h]
      rfl

theorem solve_moves (hc : f.Coherent) (values : Dict ValueId LatticeValue) :
    (solve order f call values).Ensures fun facts => ∃ entry t, f.entry = .ok entry ∧
      Moves f call (.start entry values) t ∧ t.Finished f ∧ t.state.facts = facts := by
  refine Run.Ensures.bind (Run.ensures_lift fun entry he => he) fun entry he =>
    (rounds_moves hc _ _).mono ?_
  rintro facts ⟨t, h⟩
  exact ⟨entry, t, he, h⟩

theorem enter_ends (hcall : ∀ facts i inst, (call facts i inst).Ends) (s : State) (b : BlockId) :
    (enter f call s b).Ends := by
  refine (Run.ends_log (ends_ok _)).bind fun _ => (Run.ends_lift (f.insts_ends b)).bind fun xs => ?_
  split
  · exact Run.ends_foldlM (visit_ends hcall) _ _
  · exact Run.ends_foldlM (visit_ends hcall) _ _

theorem visitUsers_ends (hcall : ∀ facts i inst, (call facts i inst).Ends) (s : State)
    (v : ValueId) :
    (visitUsers order f call s v).Ends := by
  refine (Run.ends_lift (f.flow.users_ends v)).bind fun us => Run.ends_foldlM (fun s i => ?_) _ _
  split
  · exact visit_ends hcall s i
  · exact Run.ends_pure _

theorem resolveUnknown_ends (f : Func) (s : State) : (resolveUnknown f s).Ends := by
  refine ends_foldlM (fun s b => (f.terminator?_ends b).bind fun term? => ?_) _ _
  cases term? with
  | none => exact ends_ok _
  | some term =>
    refine (f.flow.inst_ends term).bind fun inst => ?_
    split
    · exact ends_ok _
    refine (ends_nth _ _).bind fun _ => (s.facts.value_ends f _).bind fun x => ?_
    split
    · exact ends_ok _
    · exact ends_ok _

theorem Turns.charted (h : Turns f call t t') (hc : f.Coherent) (hs : Charted f t.state) :
    Charted f t'.state := by
  induction h with
  | refl => exact hs
  | tail _ h ih => exact h.charted hc ih

theorem Turns.effort_le (h : Turns f call t t') (hc : f.Coherent) (hs : Charted f t.state) :
    effort f t' ≤ effort f t := by
  induction h with
  | refl => exact Nat.le_refl _
  | tail hs' h ih => exact Nat.le_trans (Nat.le_of_lt (h.effort_lt hc (Turns.charted hs' hc hs))) ih

theorem Turns.marks (h : Turns f call t t') (hc : f.Coherent) {a b : BlockId}
    (hm : t.state.Marks a b) :
    t'.state.Marks a b := by
  induction h with
  | refl => exact hm
  | tail _ h ih => exact (h.onward hc).marks ih

theorem Piece.cost_lt (h : Piece f call s s') (hc : f.Coherent) (hs : Charted f s) :
    cost f s' < cost f s := by
  obtain ⟨h, hturns⟩ := h
  exact Nat.lt_of_mul_lt_mul_left
    (Nat.lt_of_le_of_lt (Turns.effort_le hturns hc (h.charted hc hs)) (h.effort_lt hc hs))

theorem propagate_ends (hc : f.Coherent) (hcall : ∀ facts i inst, (call facts i inst).Ends)
    {fuel : Nat} {s : State} (hs : Charted f s) (hcost : cost f s < fuel) :
    (propagate order f call fuel s).Ends := by
  induction fuel generalizing s with
  | zero => omega
  | succ fuel ih =>
    obtain ⟨facts, edges, values⟩ := s
    have hnext : ∀ {s : State}, Piece f call ⟨facts, edges, values⟩ s →
        (propagate order f call fuel s).Ends := fun h =>
      ih (Turns.charted h.turns hc hs) (by have := h.cost_lt hc hs; omega)
    match edges, values with
    | (none, b) :: rest, values =>
      exact (enter_ends hcall _ b).bind_ensured (first_piece hc) fun s h => hnext h
    | (some a, b) :: rest, values =>
      unfold propagate
      dsimp only
      split
      · rename_i old
        exact hnext ⟨.drop (.refl _) old, .refl⟩
      · rename_i new
        exact (enter_ends hcall _ b).bind_ensured (take_piece hc (Bool.eq_false_iff.2 new))
          fun s h => hnext h
    | [], v :: rest =>
      exact (visitUsers_ends hcall _ v).bind_ensured (users_piece order f call facts [] rest v)
        fun s h => hnext h
    | [], [] => exact Run.ends_pure _

theorem rounds_ends (hc : f.Coherent) (hcall : ∀ facts i inst, (call facts i inst).Ends)
    {fuel : Nat} {s : State} (hs : Charted f s) (hcost : cost f s < workBound f.flow)
    (hfuel : (unmarked f s).length < fuel) :
    (rounds order f call fuel s).Ends := by
  induction fuel generalizing s with
  | zero => omega
  | succ fuel ih =>
    refine (propagate_ends hc hcall hs hcost).bind_ensured (propagate_turns hc _ s) ?_
    rintro s₁ ⟨hturns, hedges, hvalues⟩
    refine (Run.ends_lift (resolveUnknown_ends f s₁)).bind_ensured (Run.ensures_lift fun s₂ h => h)
      fun s₂ hres => ?_
    split
    · exact Run.ends_pure _
    · rename_i hmore
      have hw := resolveUnknown_widened hc hedges hres
      have hless := (unmarked_sublist (f := f) fun hm => Turns.marks hturns hc hm).length_le
      refine ih (resolve_charted hc hedges hres (Turns.charted hturns hc hs)) ?_ ?_
      · exact Propagation.cost_lt (hw.values.trans hvalues)
          (Nat.le_trans hw.edgeCost_le (Nat.le_add_left _ _))
      · have := resolve_unmarked hc hedges hres fun h => hmore (by rw [h]; rfl)
        dsimp only at hless
        omega

theorem solve_ends (hc : f.Coherent) (hcall : ∀ facts i inst, (call facts i inst).Ends)
    (values : Dict ValueId LatticeValue) : (solve order f call values).Ends := by
  refine (Run.ends_lift (ends_ofOption (by simp) _)).bind fun entry => ?_
  refine rounds_ends hc hcall (start_charted f entry values)
    (Propagation.cost_lt rfl (Nat.le_add_right _ _)) ?_
  exact Nat.lt_succ_of_le (Nat.le_succ_of_le (unmarked_length_le f _))

end Propagation

end MiddleEnd
