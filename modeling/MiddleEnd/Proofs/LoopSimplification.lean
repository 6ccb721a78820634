import MiddleEnd.Proofs.Preheaders

/-!
# Loop simplification

Every preheader settles one header for good and makes no other one crowded, so that the pass comes
to an end after at most as many rounds as there are blocks. In its result no header of a loop that
is found has two predecessors outside the loop; what the function returned it still returns.
-/

namespace MiddleEnd

theorem Loop.IsNatural.encloses_iff {f : Func} {l : Loop} {entry b : BlockId} (h : l.IsNatural f)
    (he : f.entry = .ok entry) :
    b ∈ l.body ↔ Encloses f.Leads entry l.header b := by
  have hlatch : ∀ {p}, p ∈ l.latches ↔ Closes f.Leads entry l.header p := fun {p} =>
    (h.latches p).trans (and_congr_right fun _ => Func.dominates_iff he)
  have haround : ∀ {p}, (∃ q, f.Path b p q ∧ ∀ x ∈ q, f.Reachable x ∧ x ≠ l.header) ↔
      Around f.Leads entry l.header b p :=
    exists_congr fun q => and_congr_right fun _ => forall_congr' fun x => forall_congr' fun _ =>
      and_congr_left fun _ => Func.reachable_iff he
  rw [h.body]
  exact or_congr_right (exists_congr fun p => and_congr hlatch haround)

namespace Preheaders

variable {f : Func} {b : Builder} {entry header : BlockId} {outside : List BlockId} {ls : Loops}

/-- What the pass starts from and leaves: a rooted function without copies. -/
structure Ready (f : Func) (entry : BlockId) : Prop extends f.Rooted entry where
  noCopies : ∀ {i x y}, f.flow.inst? i ≠ some (.binary .copy x y)

/-- The loops that are found are those of the function. -/
structure Finds (f : Func) (entry : BlockId) (t : DominatorTree) (ls : Loops) : Prop where
  dominators : f.dominators.Yields (· = t)
  loops : (f.loops t).Yields (· = ls)
  headers : ∀ h, h ∈ ls.loops.map (·.header) ↔ ∃ p, Closes f.Leads entry h p
  natural : ∀ l ∈ ls.loops, l.IsNatural f

theorem finds_ok (hf : f.Formed entry) : ∃ t ls, Finds f entry t ls := by
  obtain ⟨t, ht, hfaith, hepoch⟩ :=
    DominatorTree.ofFunc_ok hf.starts hf.shape.closed hf.coherent.bound
  have hcur : t.isCurrent f = true := by
    rw [DominatorTree.isCurrent, hepoch, beq_self_eq_true]
  obtain ⟨ls, hls, -, hheaders, hnat⟩ := Loops.ofFunc_ok hfaith hcur hf.shape.closed hf.starts
  exact ⟨t, ls, Func.dominators_yield ht, Loops.loops_yield hls, hheaders, hnat⟩

theorem next?_eq_none : next? f ls = none ↔
    ∀ l ∈ ls.loops, ((f.predecessors l.header).filter (!l.contains ·)).length ≤ 1 := by
  unfold next?
  rw [List.findSome?_eq_none_iff]
  refine forall_congr' fun l => forall_congr' fun _ => ?_
  dsimp only
  split <;> simp <;> omega

theorem nodup_predecessors (f : Func) (b : BlockId) : (f.predecessors b).Nodup := by
  unfold Func.predecessors
  exact KeySet.nodup _

theorem next?_eq_some {t : DominatorTree} (hf : f.Formed entry) (hl : Finds f entry t ls)
    (h : next? f ls = some (header, outside)) : outside.Nodup ∧ (∃ a, a ∈ outside) ∧
      (∀ a, a ∈ outside ↔ f.Leads a header ∧ ¬ Encloses f.Leads entry header a) ∧
      Crowded f.Leads entry header := by
  unfold next? at h
  obtain ⟨l, hmem, h⟩ := List.exists_of_findSome?_eq_some h
  dsimp only at h
  split at h
  case isFalse => cases h
  case isTrue hlen =>
    cases h
    have hnd := (nodup_predecessors f l.header).filter (!l.contains ·)
    have hout : ∀ a, a ∈ (f.predecessors l.header).filter (!l.contains ·) ↔
        f.Leads a l.header ∧ ¬ Encloses f.Leads entry l.header a := fun a => by
      rw [List.mem_filter, Func.mem_predecessors hf.coherent hf.shape.ended, Bool.not_eq_true',
        ← Bool.not_eq_true, Loop.contains, KeySet.contains_iff]
      exact and_congr_right fun _ => not_congr ((hl.natural l hmem).encloses_iff hf.starts)
    obtain ⟨a, c, rest, he⟩ : ∃ a c rest, (f.predecessors l.header).filter (!l.contains ·) = a ::
        c :: rest := by
      match hlist : (f.predecessors l.header).filter (!l.contains ·) with
      | [] => simp [hlist] at hlen
      | [a] => simp [hlist] at hlen
      | a :: c :: rest => exact ⟨a, c, rest, rfl⟩
    have ha := (hout a).1 (he ▸ List.mem_cons_self)
    have hc := (hout c).1 (he ▸ List.mem_cons_of_mem _ List.mem_cons_self)
    have hne : a ≠ c := by
      rw [he] at hnd
      exact fun hac => (List.nodup_cons.1 hnd).1 (hac ▸ List.mem_cons_self)
    exact ⟨hnd, ⟨a, he ▸ List.mem_cons_self⟩, hout, (hl.headers _).1 (List.mem_map_of_mem hmem), a,
      c, hne, ha.1, hc.1, ha.2, hc.2⟩

theorem insertPreheader_ok (h : Ready b.func entry) (hn : outside.Nodup) (hsome : ∃ a, a ∈ outside)
    (hout : ∀ a, a ∈ outside ↔ b.func.Leads a header ∧ ¬ Encloses b.func.Leads entry header a)
    (hcrowded : Crowded b.func.Leads entry header) :
    (insertPreheader b header outside).Yields fun r => Ready r.2.func entry ∧
      (∀ args d, b.func.Returns args d → r.2.func.Returns args d) ∧
      ∀ x, Crowded r.2.func.Leads entry x → x ≠ header ∧ Crowded b.func.Leads entry x := by
  obtain ⟨⟨p, hl, hg⟩, -⟩ := hcrowded
  have hcon : Connects b.func.Leads entry header := hg.1.step hl
  obtain ⟨xs, hxs⟩ := Layout.mem_blocks_iff.1 (h.shape.closed.connects_mem h.starts hcon)
  have henters : ∀ a ∈ outside, b.func.Leads a header := fun a ha => ((hout a).1 ha).1
  refine (insertPreheader_yields h.toFormed h.typed hxs (fun i hi hphi => h.phis hcon hxs hi hphi)
    henters hsome hn).mono ?_
  rintro ⟨front, c⟩ ⟨joins, k, ρ, hfronting⟩
  have hfront : b.func.Fronted c.func entry header front outside xs joins k ρ :=
    ⟨hfronting, h.toFormed, hxs, henters, hsome⟩
  exact ⟨⟨hfront.rooted h.toRooted, hfront.noCopies h.noCopies⟩,
    fun _ _ => hfront.returns h.dominated h.noCopies, fun x hx => hfront.detour.crowded hout hx⟩

/-- No preheader is missing, and the function returns what the given one returns. -/
structure Simplified (b b' : Builder) (entry : BlockId) : Prop where
  ready : Ready b'.func entry
  returns : ∀ args d, b.func.Returns args d → b'.func.Returns args d
  complete : ∃ t ls, Finds b'.func entry t ls ∧ next? b'.func ls = none

theorem repeatWithin_yields {fuel : Nat} {modified : Bool} (h : Ready b.func entry)
    {cs : List BlockId} (hcs : ∀ x, Crowded b.func.Leads entry x → x ∈ cs)
    (hfuel : cs.length < fuel) :
    (repeatWithin fuel modified b).Yields fun r => Simplified b r.2 entry := by
  induction fuel generalizing modified b cs with
  | zero => omega
  | succ fuel ih =>
    obtain ⟨t, ls, hfinds⟩ := finds_ok h.toFormed
    unfold repeatWithin
    refine hfinds.dominators.bind ?_
    rintro t rfl
    refine hfinds.loops.bind ?_
    rintro ls rfl
    cases hnext : next? b.func ls with
    | none => exact Run.yields_pure ⟨h, fun _ _ hd => hd, _, _, hfinds, hnext⟩
    | some r =>
      obtain ⟨header, outside⟩ := r
      obtain ⟨hn, hsome, hout, hcrowded⟩ := next?_eq_some h.toFormed hfinds hnext
      refine (insertPreheader_ok h hn hsome hout hcrowded).bind ?_
      rintro ⟨front, c⟩ ⟨hc, hreturns, hless⟩
      have hmem := hcs header hcrowded
      have hlength : (cs.erase header).length < fuel := by
        rw [List.length_erase_of_mem hmem]
        have := List.length_pos_of_mem hmem
        omega
      refine (ih hc (fun x hx => ?_) hlength).mono fun r hr =>
        ⟨hr.ready, fun args d hd => hr.returns args d (hreturns args d hd), hr.complete⟩
      obtain ⟨hne, hx⟩ := hless x hx
      exact (List.mem_erase_of_ne hne).2 (hcs x hx)

theorem run_yields (h : Ready b.func entry) : (run b).Yields fun r => Simplified b r.2 entry := by
  unfold run
  refine (Run.yields_log (P := fun _ => True) trivial).bind fun _ _ => ?_
  rw [Func.isEmpty_of_entry h.starts]
  -- Whatever leads anywhere is a block, so that there are as many rounds as there can be headers.
  refine repeatWithin_yields h (fun x hx => ?_) (Nat.lt_succ_self _)
  obtain ⟨⟨p, hl, hg⟩, -⟩ := hx
  exact h.shape.closed.connects_mem h.starts (hg.1.step hl)

variable {b' : Builder}

theorem Simplified.sole_entry (h : Simplified b b' entry) :
    ∃ t ls, b'.func.dominators.outcome = .ok t ∧ (b'.func.loops t).outcome = .ok ls ∧
    ∀ l ∈ ls.loops, ((b'.func.predecessors l.header).filter (!l.contains ·)).length ≤ 1 := by
  obtain ⟨t, ls, hfinds, hnext⟩ := h.complete
  obtain ⟨_, ht, rfl⟩ := hfinds.dominators.outcome
  obtain ⟨_, hls, rfl⟩ := hfinds.loops.outcome
  exact ⟨_, _, ht, hls, next?_eq_none.1 hnext⟩

theorem Simplified.run_again (h : Simplified b b' entry) : (run b').outcome = .ok (false, b') := by
  obtain ⟨t, ls, hfinds, hnext⟩ := h.complete
  have hrun : (run b').Yields (· = (false, b')) := by
    unfold run repeatWithin
    refine (Run.yields_log (P := fun _ => True) trivial).bind fun _ _ => ?_
    rw [Func.isEmpty_of_entry h.ready.starts]
    refine hfinds.dominators.bind ?_
    rintro t rfl
    refine hfinds.loops.bind ?_
    rintro ls rfl
    rw [hnext]
    exact Run.yields_pure rfl
  obtain ⟨_, hrun, rfl⟩ := hrun.outcome
  exact hrun

theorem Ready.of_clean (h : f.Clean entry) (hsource : f.predecessors entry = [])
    (hphis : ∀ c phis, f.Reachable c → f.phis c = .ok phis →
      ∀ i ∈ phis, ∃ r, f.flow.result? i = some r) :
    Ready f entry := ⟨h.regular.rooted h.valid hsource hphis, h.regular.noCopies⟩

/-- Loop simplification of a clean function whose phis yield values comes to an end, at a verified
function in which no header of a loop has two predecessors outside the loop, which another run
leaves as it is and which returns what the given one returns. -/
theorem run_simplifies_loops (h : b.func.Clean entry) (hsource : b.func.predecessors entry = [])
    (hphis : ∀ c phis, b.func.Reachable c → b.func.phis c = .ok phis →
      ∀ i ∈ phis, ∃ r, b.flow.result? i = some r) :
    ∃ modified b', (run b).outcome = .ok (modified, b') ∧ b'.func.errors = .ok [] ∧
      (∃ t ls, b'.func.dominators.outcome = .ok t ∧ (b'.func.loops t).outcome = .ok ls ∧
        ∀ l ∈ ls.loops, ((b'.func.predecessors l.header).filter (!l.contains ·)).length ≤ 1) ∧
      (run b').outcome = .ok (false, b') ∧ ∀ args d, b.func.Returns args d →
      b'.func.Returns args d := by
  obtain ⟨⟨modified, b'⟩, hrun, hsimple⟩ := (run_yields (Ready.of_clean h hsource hphis)).outcome
  exact ⟨modified, b', hrun, hsimple.ready.verified, hsimple.sole_entry, hsimple.run_again,
    hsimple.returns⟩

/-- Two ways into a loop, which bring different values to the phi of its header. -/
def twoWays : Checked Builder :=
  Func.build "f" ⟨[.int 32, .int 32, .int 1], some (.int 32)⟩
    [.block (some "entry"), .block (some "left"), .block (some "right"), .block (some "head"),
    .block (some "exit"),
      .goTo (.append ⟨0⟩), .insert (.branch .brCond ⟨2⟩ ⟨1⟩ ⟨2⟩) .void,
      .goTo (.append ⟨1⟩), .insert (.jump .br ⟨3⟩) .void,
      .goTo (.append ⟨2⟩), .insert (.jump .br ⟨3⟩) .void,
      .goTo (.append ⟨3⟩), .insert (.phi .phi [⟨0⟩, ⟨1⟩, ⟨0⟩] [⟨1⟩, ⟨2⟩, ⟨3⟩]) (.int 32),
      .insert (.branch .brCond ⟨2⟩ ⟨4⟩ ⟨3⟩) .void,
      .goTo (.append ⟨4⟩), .insert (.unary .retValue ⟨3⟩) .void]

theorem twoWays_simplified :
    ∃ b modified b', twoWays = .ok b ∧ (run b).outcome = .ok (modified, b') ∧
      b'.func.errors = .ok [] ∧
    (∃ t ls, b'.func.dominators.outcome = .ok t ∧ (b'.func.loops t).outcome = .ok ls ∧
      ∀ l ∈ ls.loops, ((b'.func.predecessors l.header).filter (!l.contains ·)).length ≤ 1) ∧
    (run b').outcome = .ok (false, b') ∧ ∀ args d, b.func.Returns args d →
    b'.func.Returns args d := by
  obtain ⟨b, hb, h⟩ := exists_of_any (x := twoWays) (p := fun b => b.func.isClean &&
    (b.func.entry.toOption.any fun entry => (b.func.predecessors entry).isEmpty) &&
    b.func.phisYield) (by decide +kernel)
  simp only [Bool.and_eq_true] at h
  obtain ⟨⟨hclean, hsource⟩, hphis⟩ := h
  obtain ⟨entry, hclean, hsource⟩ :=
    Func.clean_of_sourced (Func.build_coherent (by decide) hb) hclean hsource
  obtain ⟨modified, b', hrun⟩ :=
    run_simplifies_loops hclean hsource fun c phis _ hp => Func.result_of_phisYield hphis hp
  exact ⟨b, modified, b', hb, hrun⟩

/-- A phi of type `void` at the head of a loop, to which the two ways into the loop bring different
values. -/
def voidLoop : Checked Builder :=
  Func.build "f" ⟨[.void, .int 1], some (.int 32)⟩
    [.block (some "entry"), .block (some "split"), .block (some "left"), .block (some "right"),
    .block (some "head"),
      .block (some "exit"), .undef .void, .const (.int32 7),
      .goTo (.append ⟨0⟩), .insert (.branch .brCond ⟨1⟩ ⟨5⟩ ⟨1⟩) .void,
      .goTo (.append ⟨1⟩), .insert (.branch .brCond ⟨1⟩ ⟨2⟩ ⟨3⟩) .void,
      .goTo (.append ⟨2⟩), .insert (.jump .br ⟨4⟩) .void,
      .goTo (.append ⟨3⟩), .insert (.jump .br ⟨4⟩) .void,
      .goTo (.append ⟨4⟩), .insert (.phi .phi [⟨0⟩, ⟨2⟩, ⟨2⟩] [⟨2⟩, ⟨3⟩, ⟨4⟩]) .void,
      .insert (.branch .brCond ⟨1⟩ ⟨5⟩ ⟨4⟩) .void,
      .goTo (.append ⟨5⟩), .insert (.unary .retValue ⟨3⟩) .void]

/-- The function returns, but what comes into the loop cannot be merged in front of it. -/
theorem voidLoop_not_simplified :
    ∃ b entry e, voidLoop = .ok b ∧ b.func.Clean entry ∧ b.func.predecessors entry = [] ∧
      b.func.Returns [.undefined, .word (.ofBool true)] (.word ⟨32, 7, by decide, by decide⟩) ∧
    (run b).outcome = .error e := by
  obtain ⟨b, hb, h⟩ := exists_of_any (x := voidLoop) (p := fun b => b.func.isClean &&
    (b.func.entry.toOption.any fun entry => (b.func.predecessors entry).isEmpty) &&
    b.func.result? [.undefined, .word (.ofBool true)] 3 =
    some (.word ⟨32, 7, by decide, by decide⟩) && (run b).outcome.toOption.isNone)
    (by decide +kernel)
  simp only [Bool.and_eq_true] at h
  obtain ⟨⟨⟨hclean, hsource⟩, hret⟩, hrun⟩ := h
  obtain ⟨entry, hclean, hsource⟩ :=
    Func.clean_of_sourced (Func.build_coherent (by decide) hb) hclean hsource
  cases ho : (run b).outcome with
  | ok r =>
    rw [ho] at hrun
    cases hrun
  | error e =>
    exact ⟨b, entry, e, hb, hclean, hsource, Func.returns_of_result? (of_decide_eq_true hret), ho⟩

end Preheaders

end MiddleEnd
