import MiddleEnd.Proofs.BuilderHistories
import MiddleEnd.Proofs.DominatorTree

/-!
# What an unchanged epoch says

The epoch moves on when a terminator is added, removed or led elsewhere, and when a block is
removed. It does not when an instruction goes to another place: a terminator that is moved changes
the edges unseen, and so does an instruction that is put behind a terminator. Where neither happens,
an epoch that is still the same means that the edges are, so that a dominator tree is as good as
new.
-/

namespace MiddleEnd

namespace Func

variable {f f' f'' : Func} {t : InstId} {c d entry : BlockId} {targets : List BlockId}

def EndsIn (f : Func) (t : InstId) (c : BlockId) (targets : List BlockId) : Prop :=
  f.layout.blockOf? t = some c ∧ ∃ inst, f.flow.inst? t = some inst ∧ inst.op.isTerminator = true ∧
    inst.blocks = targets

/-- The second function starts with the entry of the first one, has its blocks, and has its
terminators in their blocks, with the targets they had. -/
structure Outlined (f f' : Func) : Prop where
  entry : ∀ {c}, f.entry = .ok c → f'.entry = .ok c
  blocks : ∀ c ∈ f.blocks, c ∈ f'.blocks
  ends : ∀ t c targets, f'.EndsIn t c targets ↔ f.EndsIn t c targets

theorem Outlined.refl (f : Func) : Outlined f f := ⟨id, fun _ h => h, fun _ _ _ => Iff.rfl⟩

theorem Outlined.trans (h : Outlined f f') (h' : Outlined f' f'') : Outlined f f'' :=
  ⟨fun he => h'.entry (h.entry he), fun c hc => h'.blocks c (h.blocks c hc),
    fun t c targets => (h'.ends t c targets).trans (h.ends t c targets)⟩

theorem successors_of_endsIn (hc : f.Coherent) (hl : f.EndsLast) (h : f.EndsIn t c targets) :
    f.successors c = .ok targets.eraseDups := by
  obtain ⟨hhome, inst, hi, hterm, rfl⟩ := h
  obtain ⟨xs, hxs, ht⟩ := hc.blockOf?_eq_some.1 hhome
  obtain ⟨front, hfront⟩ :=
    List.getLast?_eq_some_iff.1 (hl hxs ht ((DataFlow.isTerminator_of_inst hi).trans hterm))
  exact successors_last (hfront ▸ hxs) hi hterm

theorem successors_of_not_endsIn (hc : f.Coherent) (hb : c ∈ f.blocks)
    (h : ∀ t targets, ¬ f.EndsIn t c targets) :
    f.successors c = .ok [] := by
  obtain ⟨ss, hss⟩ := successors_ok hb
  cases ss with
  | nil => exact hss
  | cons d rest =>
    obtain ⟨xs, t, inst, hxs, hlast, hi, hterm, -⟩ := leads_iff.1 ⟨_, hss, List.mem_cons_self⟩
    exact absurd ⟨hc.blockOf?_eq_some.2 ⟨xs, hxs, List.mem_of_getLast? hlast⟩, inst, hi, hterm,
      rfl⟩ (h t inst.blocks)

theorem Outlined.successors_eq (h : Outlined f f') (hc : f.Coherent) (hc' : f'.Coherent)
    (hl : f.EndsLast) (hl' : f'.EndsLast) (hb : c ∈ f.blocks) :
    f'.successors c = f.successors c := by
  by_cases hends : ∃ t targets, f.EndsIn t c targets
  · obtain ⟨t, targets, hends⟩ := hends
    rw [successors_of_endsIn hc hl hends,
      successors_of_endsIn hc' hl' ((h.ends t c targets).2 hends)]
  · have hnone : ∀ t targets, ¬ f.EndsIn t c targets := fun t targets he => hends ⟨t, targets, he⟩
    rw [successors_of_not_endsIn hc hb hnone,
      successors_of_not_endsIn hc' (h.blocks c hb) fun t targets he =>
      hnone t targets ((h.ends t c targets).1 he)]

end Func

section Agree

variable {α : Type} {E E' : α → α → Prop} {root b d : α}

theorem Walk.agree (hE : ∀ {a}, Connects E root a → ∀ c, E a c ↔ E' a c) {a : α} {p : List α} :
    Connects E root a → (Walk E a b p ↔ Walk E' a b p) := by
  intro ha
  constructor
  · intro h
    induction h with
    | single => exact .single _
    | cons e _ ih => exact .cons ((hE ha _).1 e) (ih (ha.step e))
  · intro h
    induction h with
    | single => exact .single _
    | cons e _ ih =>
      have e := (hE ha _).2 e
      exact .cons e (ih (ha.step e))

theorem Connects.agree (hE : ∀ {a}, Connects E root a → ∀ c, E a c ↔ E' a c) :
    Connects E root b ↔ Connects E' root b :=
  exists_congr fun _ => Walk.agree hE (.refl E root)

theorem Guards.agree (hE : ∀ {a}, Connects E root a → ∀ c, E a c ↔ E' a c) :
    Guards E root d b ↔ Guards E' root d b :=
  and_congr (Connects.agree hE) (forall_congr' fun _ =>
    imp_congr (Walk.agree hE (.refl E root)) Iff.rfl)

end Agree

namespace Func

variable {f f' : Func} {c : BlockId}

theorem entry_of_blocks (h : f'.blocks = f.blocks) (he : f.entry = .ok c) : f'.entry = .ok c :=
  entry_eq_ok.2 (h ▸ entry_eq_ok.1 he)

theorem Outlined.of_blocks (hblocks : f'.blocks = f.blocks)
    (hends : ∀ t c targets, f'.EndsIn t c targets ↔ f.EndsIn t c targets) : Outlined f f' :=
  ⟨entry_of_blocks hblocks, fun _ hc => hblocks ▸ hc, hends⟩

theorem Outlined.of_kept (hl : f'.layout = f.layout) (hk : DataFlow.Kept f.flow f'.flow)
    (he : f'.flow.epoch = f.flow.epoch) : Outlined f f' := by
  refine .of_blocks (congrArg Layout.blocks hl) fun t c targets => ?_
  unfold EndsIn
  rw [hl]
  refine and_congr_right fun _ => ⟨?_, ?_⟩
  · rintro ⟨inst', hi', hterm, rfl⟩
    obtain ⟨inst, hi, hframe⟩ := hk.inst_of hi'
    rw [Inst.op_of_frame hframe] at hterm
    exact ⟨inst, hi, hterm, (hk.targets he hi hi' hterm).symm⟩
  · rintro ⟨inst, hi, hterm, rfl⟩
    obtain ⟨inst', hi', hframe⟩ := hk.inst_ok hi
    exact ⟨inst', hi', (congrArg Opcode.isTerminator (Inst.op_of_frame hframe)).trans hterm,
      hk.targets he hi hi' hterm⟩

theorem Outlined.of_others {i : InstId} (hblocks : f'.blocks = f.blocks)
    (hhome : ∀ j, j ≠ i → f'.layout.blockOf? j = f.layout.blockOf? j)
    (hinst : ∀ j, j ≠ i → f'.flow.inst? j = f.flow.inst? j) (hold : f.flow.isTerminator i = false)
    (hnew : f'.flow.isTerminator i = false) : Outlined f f' := by
  refine .of_blocks hblocks fun t c targets => ?_
  by_cases ht : t = i
  · subst ht
    constructor
    · rintro ⟨-, inst, hi, hterm, -⟩
      rw [DataFlow.isTerminator_of_inst hi, hterm] at hnew
      cases hnew
    · rintro ⟨-, inst, hi, hterm, -⟩
      rw [DataFlow.isTerminator_of_inst hi, hterm] at hold
      cases hold
  · unfold EndsIn
    rw [hhome t ht, hinst t ht]

end Func

namespace Builder

open Func

/-- The epoch has not gone back, and if it is the same, so is the outline. -/
def Follows (b b' : Builder) : Prop :=
  b.flow.epoch ≤ b'.flow.epoch ∧ (b'.flow.epoch = b.flow.epoch → Outlined b.func b'.func)

variable {b b' b'' : Builder}

theorem Follows.refl (b : Builder) : Follows b b := ⟨Nat.le_refl _, fun _ => .refl _⟩

theorem Follows.trans (h : Follows b b') (h' : Follows b' b'') : Follows b b'' :=
  ⟨Nat.le_trans h.1 h'.1, fun he => (h.2 (Nat.le_antisymm (he ▸ h'.1) h.1)).trans
    (h'.2 (Nat.le_antisymm (he ▸ h.1) h'.1))⟩

theorem Follows.of_kept {g : DataFlow} (hk : DataFlow.Kept b.flow g) : Follows b (b.withFlow g) :=
  ⟨hk.epoch, fun he => .of_kept rfl hk he⟩

theorem Follows.of_same (hflow : b'.flow = b.flow) (hl : b'.func.layout = b.func.layout) :
    Follows b b' := by
  have hk : DataFlow.Kept b.flow b'.flow := hflow ▸ .refl _
  exact ⟨hk.epoch, fun he => .of_kept hl hk he⟩

theorem Follows.of_widened {c : BlockId} (h : b.func.Coherent) (h' : b'.func.Coherent)
    (hflow : b'.flow = b.flow) (hwide : b.func.layout.Widened b'.func.layout c) : Follows b b' := by
  refine ⟨Nat.le_of_eq (congrArg DataFlow.epoch hflow.symm),
    fun _ => ⟨fun he => ?_, fun d hd => ?_, fun t d targets => ?_⟩⟩
  · exact ofOption_eq_ok.2 (hwide.first (ofOption_eq_ok.1 he))
  · exact hwide.blocks.2 (.inl hd)
  · unfold EndsIn
    rw [hwide.blockOf?_eq h.layout h'.layout, show b'.func.flow = b.func.flow from hflow]

theorem insert_epoch {inst : Inst} {ty : Ty} {i : InstId} (hi : b.insert inst ty = .ok (i, b')) :
    b'.flow.epoch = b.flow.epoch + if inst.op.isTerminator then 1 else 0 := by
  obtain ⟨⟨j, g⟩, hadd, hi⟩ := bind_eq_ok.1 hi
  obtain ⟨⟨pos, l⟩, -, hi⟩ := bind_eq_ok.1 hi
  cases hi
  exact DataFlow.addInst_epoch hadd

theorem removeInst_epoch {i : InstId} (hr : b.removeInst i = .ok b') :
    b'.flow.epoch = b.flow.epoch + if b.flow.isTerminator i then 1 else 0 := by
  obtain ⟨pos, -, hr⟩ := bind_eq_ok.1 hr
  obtain ⟨l, -, hr⟩ := bind_eq_ok.1 hr
  obtain ⟨g, hg, hr⟩ := bind_eq_ok.1 hr
  cases hr
  exact DataFlow.removeInst_epoch hg

theorem Follows.of_epoch {terminator : Bool}
    (he : b'.flow.epoch = b.flow.epoch + if terminator then 1 else 0)
    (hplain : terminator = false → Outlined b.func b'.func) : Follows b b' := by
  cases terminator with
  | false => exact ⟨Nat.le_of_eq he.symm, fun _ => hplain rfl⟩
  | true =>
    rw [if_pos rfl] at he
    exact ⟨by omega, fun h => by omega⟩

theorem insert_follows (h : b.Intact) {inst : Inst} {ty : Ty} {i : InstId}
    (hshape : inst.isShaped = true) (hi : b.insert inst ty = .ok (i, b')) : Follows b b' := by
  obtain ⟨-, ⟨v?, hgrown⟩, halike, c, hhome⟩ := insert_intact h hshape hi
  refine .of_epoch (insert_epoch hi) fun hplain => .of_others (i := i) halike.blocks (fun k hk =>
    ?_) (fun k hk => ?_) ?_ ?_
  · rw [hhome, if_neg (Ne.symm hk)]
  · exact (hgrown.inst? k).trans (if_neg hk)
  · unfold DataFlow.isTerminator DataFlow.op?
    rw [show b.func.flow.inst? i = none from hgrown.fresh]
    rfl
  · exact (DataFlow.isTerminator_of_inst ((hgrown.inst? i).trans (if_pos rfl))).trans hplain

theorem removeInst_follows (h : b.Intact) {i : InstId} (hr : b.removeInst i = .ok b') :
    Follows b b' := by
  obtain ⟨-, hshrunk, halike, hhome⟩ := removeInst_of_ok h hr
  refine .of_epoch (removeInst_epoch hr) fun hplain =>
    .of_others (i := i) halike.blocks (fun k hk => ?_) (fun k hk => ?_) hplain ?_
  · rw [hhome, if_neg (Ne.symm hk)]
  · exact (hshrunk.inst? k).trans (if_neg hk)
  · unfold DataFlow.isTerminator DataFlow.op?
    rw [show b'.func.flow.inst? i = none from (hshrunk.inst? i).trans (if_pos rfl)]
    rfl

theorem dropBlock_follows {c : BlockId} {g : DataFlow} {l : Layout}
    {table : Table BlockId BlockInfo} (hg : b.flow.forgetBlock c = .ok g) :
    Follows b { b with func := { b.func with flow := g.touch, layout := l, blockTable := table }
      } := by
  unfold DataFlow.forgetBlock at hg
  split at hg
  · cases hg
    exact ⟨Nat.le_succ _, fun he => absurd he (Nat.succ_ne_self _)⟩
  · cases hg

theorem Step.follows {Q : Inst → Ty → DataFlow → Prop}
    (hs : Step Q b b') (h : b.Intact) : Follows b b' := by
  cases hs with
  | edit change hc hg => exact .of_kept (DataFlow.Change.apply_kept h.merge hc hg)
  | declare name sig => exact .of_kept (DataFlow.addImport_kept b.flow name sig)
  | goTo => exact .of_same rfl rfl
  | insert hshape _ hi => exact insert_follows h hshape hi
  | remove hr => exact removeInst_follows h hr
  | block hb =>
    obtain ⟨hcoh, hwide, hflow, -⟩ := addBlock_of_ok h.coherent hb
    exact .of_widened h.coherent hcoh hflow hwide
  | blockAfter hb =>
    obtain ⟨hcoh, hwide, hflow, -⟩ := addBlockAfter_of_ok h.coherent hb
    exact .of_widened h.coherent hcoh hflow hwide
  | nameBlock hn =>
    obtain ⟨-, hflow, hl⟩ := setBlockName_of_ok h hn
    exact .of_same hflow hl
  | dropBlock _ _ hg => exact dropBlock_follows hg

theorem Steps.follows {Q : Inst → Ty → DataFlow → Prop} (hs : Steps Q b b') (h : b.Intact) :
    Follows b b' := by
  induction hs with
  | refl => exact .refl b
  | tail hpre hstep ih => exact ih.trans (hstep.follows (Steps.intact hpre h))

theorem moveToEnd_follows (h : b.Intact) {i : InstId} {c : BlockId}
    (hplain : b.flow.isTerminator i = false) (hm : b.moveToEnd i c = .ok b') : Follows b b' := by
  obtain ⟨-, hflow, halike, hhome⟩ := moveToEnd_of_ok h hm
  have hsame : b'.func.flow = b.func.flow := hflow
  refine ⟨Nat.le_of_eq (congrArg DataFlow.epoch hflow.symm),
    fun _ => .of_others (i := i) halike.blocks ?_ ?_ hplain ?_⟩
  · intro k hk
    rw [hhome, if_neg (Ne.symm hk)]
  · exact fun k _ => congrArg (DataFlow.inst? · k) hsame
  · exact (congrArg (DataFlow.isTerminator · i) hsame).trans hplain

/-- The operation moves no terminator. Instructions may come with any type. -/
def Action.Settles (b : Builder) (a : Action) : Prop :=
  a.Allowed AnyType b ∧ ∀ i c, a = .moveToEnd i c → b.flow.isTerminator i = false

theorem Action.settles_iff {b : Builder} {a : Action} :
    a.Settles b ↔ a.Allowed AnyType b ∧ (match a with
      | .moveToEnd i _ => b.flow.isTerminator i
      | _ => false) = false := by
  refine and_congr_right fun _ => ?_
  cases a with
  | moveToEnd i c => exact ⟨fun h => h i c rfl, fun h j d he => by cases he; exact h⟩
  | _ => exact ⟨fun _ => rfl, fun _ i c he => nomatch he⟩

instance (b : Builder) (a : Action) : Decidable (a.Settles b) :=
  decidable_of_iff _ Action.settles_iff.symm

theorem history_follows (hh : History Action.Settles b b') (h : b.Intact) : Follows b b' := by
  induction hh with
  | refl => exact .refl b
  | @tail c _ hpre hlast ih =>
    have hc : c.Intact := History.intact And.left hpre h
    obtain ⟨a, ⟨hallowed, hplain⟩, ha⟩ := hlast
    refine ih.trans ?_
    rcases Action.steps (fun _ => trivial) hc hallowed ha with hsteps | ⟨i, d, rfl⟩
    · exact hsteps.follows hc
    · exact moveToEnd_follows hc (hplain i d rfl) ha

end Builder

namespace DominatorTree

open Builder

variable {t : DominatorTree} {f f' : Func}

/-- A tree of the first function says of the second one what its paths say. -/
structure Describes (t : DominatorTree) (f f' : Func) : Prop where
  reachable : ∀ c, t.isReachable c = true ↔ f'.Reachable c
  dominates : ∀ d c, t.dominates d c = true ↔ f'.Dominates d c
  idom : ∀ d c, t.idom? c = some d ↔
    f'.StrictlyDominates d c ∧ ∀ x, x ≠ d → f'.StrictlyDominates x c → f'.Dominates x d
  frontier : ∀ c ∈ f.blocks, ∃ ys, t.frontier c = .ok ys ∧ ∀ y, y ∈ ys ↔ f'.OnFrontier c y

theorem describes_of_leads (h : ofFunc f = .ok t) (hc : f.Coherent) {entry : BlockId}
    (he : f.entry = .ok entry) (he' : f'.entry = .ok entry)
    (hleads : ∀ {c}, c ∈ f.blocks → ∀ d, f.Leads c d ↔ f'.Leads c d) :
    t.Describes f f' := by
  obtain ⟨root, hroot, hthere⟩ := reached_of_ofFunc h
  cases he.symm.trans hroot
  obtain ⟨t', r, ht, -, hread, hr, hbound⟩ := readOff_of_reached he hthere hc.bound
  cases h.symm.trans ht
  have hfaith := hread.faithful hbound hr
  have hE : ∀ {a}, Connects f.Leads entry a → ∀ c, f.Leads a c ↔ f'.Leads a c :=
    fun ha => hleads (hthere ha)
  have hreach : ∀ {c}, Connects f.Leads entry c ↔ f'.Reachable c := by
    intro c
    rw [Func.reachable_iff he', Connects.agree hE]
  have hguard : ∀ {d c}, Guards f.Leads entry d c ↔ f'.Dominates d c := by
    intro d c
    rw [Func.dominates_iff he', Guards.agree hE]
  refine ⟨fun c => (hfaith.isReachable_iff c).trans hreach,
    fun d c => (hfaith.dominates_iff d c).trans hguard,
    fun d c => ?_, fun c hcb => ?_⟩
  · rw [hfaith.idom?_iff]
    simp only [Func.StrictlyDominates, hguard]
    constructor
    · rintro ⟨hne, hd, hall⟩
      exact ⟨⟨hne, hd⟩, fun x _ hx => hall x hx.1 hx.2⟩
    · rintro ⟨⟨hne, hd⟩, hall⟩
      refine ⟨hne, hd, fun x hxc hx => ?_⟩
      by_cases hxd : x = d
      · exact hxd ▸ hd.reachable.dominates_self
      · exact hall x hxd ⟨hxc, hx⟩
  · by_cases hcr : Connects f.Leads entry c
    · obtain ⟨ys, hys, -, hmem⟩ := hfaith.frontier hcr
      refine ⟨ys, hys, fun y => ?_⟩
      rw [hmem]
      simp only [Func.OnFrontier, Func.StrictlyDominates, ← hguard]
      refine and_congr_left fun _ => exists_congr fun p => and_congr_left fun hg => ?_
      exact hE hg.1 y
    · refine ⟨[], hread.frontier_of_unreachable hr (hc.bound c hcb) hcr, fun y => ?_⟩
      refine ⟨fun hy => absurd hy List.not_mem_nil, ?_⟩
      rintro ⟨⟨p, -, hd⟩, -⟩
      exact absurd (hreach.2 hd.reachable) hcr

/-- Where no terminator is moved and nothing stands behind one, a tree of the same epoch is right:
the entry is the same, every block is still there with its successors, and the tree says what the
paths say. -/
theorem isCurrent_describes {b b' : Builder} (h : b.Intact) (ht : ofFunc b.func = .ok t)
    (hh : History Action.Settles b b') (hl : b.func.EndsLast) (hl' : b'.func.EndsLast)
    (hcurrent : t.isCurrent b'.func = true) :
    b'.func.entry = b.func.entry ∧
      (∀ c ∈ b.func.blocks, c ∈ b'.func.blocks ∧ b'.func.successors c = b.func.successors c) ∧
      t.Describes b.func b'.func := by
  have h' : b'.Intact := History.intact And.left hh h
  obtain ⟨entry, he, hthere⟩ := reached_of_ofFunc ht
  obtain ⟨t', r, ht', hepoch, -⟩ := readOff_of_reached he hthere h.coherent.bound
  cases ht.symm.trans ht'
  have hsame : b'.flow.epoch = b.flow.epoch := by
    rw [isCurrent, beq_iff_eq, hepoch] at hcurrent
    exact hcurrent.symm
  have hout := (history_follows hh h).2 hsame
  have he' := hout.entry he
  have hsuccs : ∀ {c}, c ∈ b.func.blocks → b'.func.successors c = b.func.successors c :=
    fun hc => hout.successors_eq h.coherent h'.coherent hl hl' hc
  refine ⟨he'.trans he.symm, fun c hc => ⟨hout.blocks c hc, hsuccs hc⟩, ?_⟩
  refine describes_of_leads ht h.coherent he he' fun hc d => ?_
  unfold Func.Leads
  rw [hsuccs hc]

/-- One way leads to the exit, the other one returns at once. -/
def forked : Option Builder :=
  Action.run (Action.Allowed AnyType) { func := .new "f" ⟨[.int 1], some (.int 32)⟩ }
    [.block (some "entry"), .block (some "left"), .block (some "right"), .block (some "exit"),
      .edit (.const (.int32 1)), .edit (.const (.int32 2)),
      .goTo (.append ⟨0⟩), .build none (.brCond ⟨0⟩ ⟨1⟩ ⟨2⟩), .goTo (.append ⟨1⟩),
      .build none (.br ⟨3⟩), .goTo (.append ⟨2⟩), .build none (.retValue ⟨1⟩), .goTo (.append ⟨3⟩),
      .build none (.retValue ⟨2⟩)]

theorem forked_intact {b : Builder} (h : forked = some b) : b.Intact :=
  History.intact id (Action.run_history h) (new_intact _ _)

/-- A slot comes and goes, and an access to it is moved to a new block. -/
def busy : List Action :=
  [.atTerminator ⟨1⟩, .build (some "a") (.alloca (.int 32)), .build none (.store ⟨3⟩ ⟨1⟩),
    .block (some "late"), .moveToEnd ⟨5⟩ ⟨4⟩, .delete ⟨4⟩, .edit (.setArg ⟨3⟩ 0 ⟨1⟩)]

theorem forked_busy_described : ∃ b t b', forked = some b ∧ ofFunc b.func = .ok t ∧
    Action.run Action.Settles b busy = some b' ∧ b'.func.blocks.length = 5 ∧
    t.isCurrent b'.func = true ∧ t.Describes b.func b'.func := by
  have hrun : forked.any (fun b => (ofFunc b.func).toOption.any fun t =>
      (Action.run Action.Settles b busy).any fun b' =>
      (b.func.layout.rows.all fun r => r.insts.all fun t =>
        !b.func.flow.isTerminator t || decide (r.insts.getLast? = some t)) &&
      (b'.func.layout.rows.all fun r => r.insts.all fun t =>
        !b'.func.flow.isTerminator t || decide (r.insts.getLast? = some t)) &&
      decide (b'.func.blocks.length = 5) && t.isCurrent b'.func) = true := by decide +kernel
  obtain ⟨b, hb, hrun⟩ := (Option.any_eq_true _ _).1 hrun
  obtain ⟨t, ht, hrun⟩ := exists_of_any hrun
  obtain ⟨b', hb', hrun⟩ := (Option.any_eq_true _ _).1 hrun
  simp only [Bool.and_eq_true, decide_eq_true_eq] at hrun
  obtain ⟨⟨⟨hl, hl'⟩, hblocks⟩, hcurrent⟩ := hrun
  obtain ⟨-, -, hdescribes⟩ :=
    isCurrent_describes (forked_intact hb) ht (Action.run_history hb') (Func.endsLast_of_all hl)
      (Func.endsLast_of_all hl') hcurrent
  exact ⟨b, t, b', hb, ht, hb', hblocks, hcurrent, hdescribes⟩

/-- Two terminators trade places. Both functions verify and the epoch is the same, but the left
block leads nowhere now and no longer dominates the exit. -/
theorem swapped_terminators_unseen : ∃ b t b', forked = some b ∧ ofFunc b.func = .ok t ∧
    Action.run (Action.Allowed AnyType) b [.moveToEnd ⟨1⟩ ⟨2⟩, .moveToEnd ⟨2⟩ ⟨1⟩] = some b' ∧
    b.func.errors = .ok [] ∧ b'.func.errors = .ok [] ∧ t.isCurrent b'.func = true ∧
    b.func.successors ⟨1⟩ = .ok [⟨3⟩] ∧ b'.func.successors ⟨1⟩ = .ok [] ∧
    t.dominates ⟨1⟩ ⟨3⟩ = true ∧ ¬ b'.func.Dominates ⟨1⟩ ⟨3⟩ := by
  have hrun : forked.any (fun b => (ofFunc b.func).toOption.any fun t =>
      (Action.run (Action.Allowed AnyType) b [.moveToEnd ⟨1⟩ ⟨2⟩, .moveToEnd ⟨2⟩ ⟨1⟩]).any fun b' =>
        b.func.errors.toOption.any (·.isEmpty) && b'.func.errors.toOption.any (·.isEmpty) &&
          t.isCurrent b'.func &&
        (b.func.successors ⟨1⟩).toOption.any (· = [⟨3⟩]) &&
        (b'.func.successors ⟨1⟩).toOption.any (· = []) && t.dominates ⟨1⟩ ⟨3⟩ &&
        b'.func.entry.toOption.any (· = ⟨0⟩) && (b'.func.successors ⟨0⟩).toOption.any
        (· = [⟨1⟩, ⟨2⟩]) && (b'.func.successors ⟨2⟩).toOption.any (· = [⟨3⟩])) = true := by
        decide +kernel
  obtain ⟨b, hb, hrun⟩ := (Option.any_eq_true _ _).1 hrun
  obtain ⟨t, ht, hrun⟩ := exists_of_any hrun
  obtain ⟨b', hb', hrun⟩ := (Option.any_eq_true _ _).1 hrun
  simp only [Bool.and_eq_true] at hrun
  obtain ⟨⟨⟨⟨⟨⟨⟨⟨herr, herr'⟩, hcurrent⟩, hleft⟩, hleft'⟩, hdom⟩, hentry⟩, hfork⟩, hright⟩ := hrun
  have hok : ∀ {α : Type} [DecidableEq α] {x : Checked α} {a : α}, x.toOption.any (· = a) = true →
      x = .ok a := by
    intro α _ x a h
    obtain ⟨y, hy, hya⟩ := exists_of_any h
    exact of_decide_eq_true hya ▸ hy
  have hnone : ∀ {x : Checked (List Diagnostic)}, x.toOption.any (·.isEmpty) = true →
      x = .ok [] := by
    intro x h
    obtain ⟨y, hy, hempty⟩ := exists_of_any h
    exact List.isEmpty_iff.1 hempty ▸ hy
  refine ⟨b, t, b', hb, ht, hb', hnone herr, hnone herr', hcurrent, hok hleft, hok hleft',
    hdom, fun h => ?_⟩
  have hpath : b'.func.Path ⟨0⟩ ⟨3⟩ [⟨0⟩, ⟨2⟩, ⟨3⟩] :=
    .cons ⟨_, hok hfork, by decide⟩ (.cons ⟨_, hok hright, by decide⟩ (.single _))
  exact absurd (h.2 _ _ (hok hentry) hpath) (by decide)

end DominatorTree

end MiddleEnd
