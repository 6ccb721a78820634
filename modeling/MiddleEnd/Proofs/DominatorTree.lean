import MiddleEnd.Proofs.Building
import MiddleEnd.Proofs.Dominance
import MiddleEnd.Proofs.Verification

/-!
# What the dominator tree answers

Asked about any blocks, the tree of a function with a closed control flow gives the answers that the
paths from the entry give. The strict dominators of a block are its immediate dominator and the
strict dominators of that one, so that the level of a block counts them. Blocks that control does
not come to dominate nothing and have no frontier.
-/

namespace MiddleEnd

def Func.isClosed (f : Func) : Bool :=
  f.blocks.all fun a => (f.successors a).toOption.all (·.all (· ∈ f.blocks))

theorem Func.closed_of_isClosed {f : Func} (h : f.isClosed = true) : f.Closed := by
  rintro a ha b ⟨succs, hs, hb⟩
  have hall := List.all_eq_true.1 h a ha
  rw [hs] at hall
  exact of_decide_eq_true (List.all_eq_true.1 hall b hb)

namespace DominatorTree

variable {f : Func} {entry : BlockId} {r : Ranking} {t : DominatorTree} {b d : BlockId}

theorem ReadOff.level_eq (ht : ReadOff r f.blockBound t)
    (hr : ∀ b ∈ r.order, b.index < f.blockBound) (h : r.Faithful f entry) {k : Nat}
    (hk : r.order[k]? = some b) : t.level b = .ok (depthOf r.parents k) := by
  rw [level, node, ht.node_of_order hr h hk, ofOption_some, ok_bind]

theorem ReadOff.level_entry (ht : ReadOff r f.blockBound t)
    (hr : ∀ b ∈ r.order, b.index < f.blockBound) (h : r.Faithful f entry) :
    t.level entry = .ok 0 := by
  have hpos : 0 < r.parents.size := by
    rw [h.size]
    exact (List.getElem?_eq_some_iff.1 h.listing.head).1
  rw [ht.level_eq hr h h.listing.head, (levels_spec h.falls).2 0 hpos, if_pos rfl]

theorem ReadOff.level_of_idom (ht : ReadOff r f.blockBound t)
    (hr : ∀ b ∈ r.order, b.index < f.blockBound) (h : r.Faithful f entry) (hd : t.idom? b = some d)
    {n : Nat} (hn : t.level d = .ok n) :
    t.level b = .ok (n + 1) := by
  rw [ht.idom?_eq hr h] at hd
  obtain ⟨k, hk⟩ := List.mem_iff_getElem?.1 ((h.listing.mem b).2 (h.idom?_iff.1 hd).2.1.1)
  have hsize : k < r.parents.size := by
    rw [h.size]
    exact (List.getElem?_eq_some_iff.1 hk).1
  rw [h.idom?_eq hk] at hd
  by_cases h0 : k = 0
  · rw [if_pos h0] at hd
    cases hd
  · rw [if_neg h0] at hd
    rw [ht.level_eq hr h hd] at hn
    rw [ht.level_eq hr h hk, (levels_spec h.falls).2 k hsize, if_neg h0, Except.ok.inj hn]

theorem Faithful.strict_iff (h : t.Faithful f entry) (hd : t.idom? b = some d) {x : BlockId} :
    x ≠ b ∧ Guards f.Leads entry x b ↔ x = d ∨ (x ≠ d ∧ Guards f.Leads entry x d) := by
  obtain ⟨hdb, hg, hall⟩ := (h.idom?_iff b d).1 hd
  constructor
  · rintro ⟨hxb, hx⟩
    by_cases hxd : x = d
    · exact .inl hxd
    · exact .inr ⟨hxd, hall x hxb hx⟩
  · rintro (rfl | ⟨-, hx⟩)
    · exact ⟨hdb, hg⟩
    · refine ⟨?_, hx.trans hg⟩
      rintro rfl
      exact hdb (hg.antisymm hx)

theorem Faithful.strict_earlier (h : t.Faithful f entry) (hne : d ≠ b)
    (hg : Guards f.Leads entry d b) {k : Nat} (hk : t.order[k]? = some b) :
    ∃ j, j < k ∧ t.order[j]? = some d := by
  induction k using Nat.strongRecOn generalizing b with
  | ind k ih =>
    have hbe : b ≠ entry := by
      rintro rfl
      exact hne hg.root_eq
    obtain ⟨e, he⟩ := h.idom?_ok hg.1 hbe
    obtain ⟨j, hjk, hj⟩ := h.idom?_earlier he hk
    rcases (h.strict_iff he).1 ⟨hne, hg⟩ with rfl | ⟨hde, hge⟩
    · exact ⟨j, hjk, hj⟩
    · obtain ⟨i, hij, hi⟩ := ih j hjk hde hge hj
      exact ⟨i, by omega, hi⟩

theorem ReadOff.level_ok (ht : ReadOff r f.blockBound t)
    (hr : ∀ b ∈ r.order, b.index < f.blockBound) (h : r.Faithful f entry)
    (hb : Connects f.Leads entry b) :
    ∃ doms : List BlockId, doms.Nodup ∧ (∀ d, d ∈ doms ↔ d ≠ b ∧ Guards f.Leads entry d b) ∧
      t.level b = .ok doms.length := by
  have hf := ht.faithful hr h
  obtain ⟨k, hk⟩ := List.mem_iff_getElem?.1 ((hf.listing.mem b).2 hb)
  -- The immediate dominator of a block comes before it in the order.
  induction k using Nat.strongRecOn generalizing b with
  | ind k ih =>
    by_cases hbe : b = entry
    · subst hbe
      refine ⟨[], List.nodup_nil, fun d => ⟨fun hd => absurd hd List.not_mem_nil, ?_⟩,
        ht.level_entry hr h⟩
      rintro ⟨hne, hg⟩
      exact absurd hg.root_eq hne
    · obtain ⟨d, hd⟩ := hf.idom?_ok hb hbe
      obtain ⟨j, hjk, hj⟩ := hf.idom?_earlier hd hk
      obtain ⟨doms, hn, hmem, hlevel⟩ :=
        ih j hjk ((hf.listing.mem d).1 (List.mem_of_getElem? hj)) hj
      refine ⟨d :: doms, List.nodup_cons.2 ⟨fun hm => ((hmem d).1 hm).1 rfl, hn⟩, fun x => ?_, ?_⟩
      · rw [List.mem_cons, hmem, hf.strict_iff hd]
      · exact ht.level_of_idom hr h hd hlevel

theorem ReadOff.frontier_of_unreachable (ht : ReadOff r f.blockBound t) (h : r.Faithful f entry)
    (hb : b.index < f.blockBound) (hn : ¬ Connects f.Leads entry b) : t.frontier b = .ok [] := by
  have hpos : r.position? b = none := by
    cases hp : r.position? b with
    | none => rfl
    | some k => exact absurd ((h.listing.mem b).1 (List.mem_of_getElem? (h.position?_eq.1 hp))) hn
  rw [frontier, node, ht.node?, if_pos hb, Ranking.node, hpos]
  rfl

/-- A loop that can be entered in two places and goes on through the entry, and a block that control
does not come to. -/
def tangled : Checked Builder :=
  Func.build "tangled" ⟨[.int 1], none⟩
    [.block (some "entry"), .block (some "left"), .block (some "right"), .block (some "exit"),
    .block (some "stray"),
      .goTo (.append ⟨0⟩), .insert (.branch .brCond ⟨0⟩ ⟨1⟩ ⟨2⟩) .void,
      .goTo (.append ⟨1⟩), .insert (.branch .brCond ⟨0⟩ ⟨2⟩ ⟨3⟩) .void,
      .goTo (.append ⟨2⟩), .insert (.branch .brCond ⟨0⟩ ⟨1⟩ ⟨0⟩) .void,
      .goTo (.append ⟨3⟩), .insert (.nullary .ret) .void,
      .goTo (.append ⟨4⟩), .insert (.jump .br ⟨1⟩) .void]

theorem built_ok {name : String} {sig : Signature} {edits : List Edit}
    {p : Func → DominatorTree → Bool} (hfits : edits.all Edit.fits = true)
    (h : ((Func.build name sig edits).toOption.any fun b => b.func.isClosed &&
      (b.func.entry.toOption.any fun _ => true) && (ofFunc b.func).toOption.any
        (p b.func)) = true) :
    ∃ b entry t, Func.build name sig edits = .ok b ∧ b.func.entry = .ok entry ∧ b.func.Closed ∧
      (∀ c ∈ b.func.blocks, c.index < b.func.blockBound) ∧ ofFunc b.func = .ok t ∧
      p b.func t = true := by
  obtain ⟨b, hb, h⟩ := exists_of_any h
  simp only [Bool.and_eq_true] at h
  obtain ⟨⟨hclosed, hentry⟩, htree⟩ := h
  obtain ⟨entry, hentry, -⟩ := exists_of_any hentry
  obtain ⟨t, ht, hp⟩ := exists_of_any htree
  exact ⟨b, entry, t, hb, hentry, Func.closed_of_isClosed hclosed,
    (Func.build_coherent hfits hb).bound, ht, hp⟩

theorem tangled_ok {p : Func → DominatorTree → Bool}
    (h : (tangled.toOption.any fun b => b.func.isClosed &&
      (b.func.entry.toOption.any fun _ => true) && (ofFunc b.func).toOption.any
      (p b.func)) = true) :
    ∃ b entry t, tangled = .ok b ∧ b.func.entry = .ok entry ∧ b.func.Closed ∧
      (∀ c ∈ b.func.blocks, c.index < b.func.blockBound) ∧ ofFunc b.func = .ok t ∧
      p b.func t = true :=
  built_ok (by decide) h

/-- The tree says of every two blocks whether one dominates the other, and of every block which
strict dominator is the nearest one and how many there are. -/
theorem ofFunc_dominance_iff (he : f.entry = .ok entry) (hc : f.Closed)
    (hk : ∀ b ∈ f.blocks, b.index < f.blockBound) :
    ∃ t, ofFunc f = .ok t ∧ (∀ d b, t.dominates d b = true ↔ f.Dominates d b) ∧
      (∀ b, t.idom? b = none ↔ b = entry ∨ ¬ f.Reachable b) ∧
      (∀ b d, t.idom? b = some d ↔
        f.StrictlyDominates d b ∧ ∀ x, x ≠ d → f.StrictlyDominates x b → f.Dominates x d) ∧
      ∀ b, f.Reachable b → ∃ doms : List BlockId, doms.Nodup ∧
        (∀ d, d ∈ doms ↔ f.StrictlyDominates d b) ∧ t.level b = .ok doms.length := by
  obtain ⟨t, r, ht, -, hread, h, hr⟩ := ofFunc_readOff he hc hk
  have hf := hread.faithful hr h
  have hidom : ∀ {b d}, t.idom? b = some d ↔
      f.StrictlyDominates d b ∧ ∀ x, x ≠ d → f.StrictlyDominates x b → f.Dominates x d := by
    intro b d
    simp only [Func.StrictlyDominates, Func.dominates_iff he]
    rw [hf.idom?_iff]
    constructor
    · rintro ⟨hne, hg, hall⟩
      exact ⟨⟨hne, hg⟩, fun x _ hx => hall x hx.1 hx.2⟩
    · rintro ⟨⟨hne, hg⟩, hall⟩
      refine ⟨hne, hg, fun x hxb hx => ?_⟩
      by_cases hxd : x = d
      · subst hxd
        exact hg.connects.guards_self
      · exact hall x hxd ⟨hxb, hx⟩
  refine ⟨t, ht, fun d b => by rw [hf.dominates_iff, Func.dominates_iff he], fun b => ?_,
    fun b d => hidom, fun b hb => ?_⟩
  · constructor
    · intro hnone
      by_cases hb : f.Reachable b
      · refine .inl (Classical.byContradiction fun hne => ?_)
        obtain ⟨d, hd⟩ := hf.idom?_ok ((Func.reachable_iff he).1 hb) hne
        rw [hnone] at hd
        cases hd
      · exact .inr hb
    · intro hb
      cases hd : t.idom? b with
      | none => rfl
      | some d =>
        obtain ⟨hne, hg, -⟩ := (hf.idom?_iff b d).1 hd
        rcases hb with rfl | hb
        · exact absurd hg.root_eq hne
        · exact absurd ((Func.reachable_iff he).2 hg.1) hb
  · simp only [Func.StrictlyDominates, Func.dominates_iff he]
    exact hread.level_ok hr h ((Func.reachable_iff he).1 hb)

theorem tangled_dominance :
    ∃ b, tangled = .ok b ∧ b.func.Dominates ⟨1⟩ ⟨3⟩ ∧ ¬ b.func.Dominates ⟨1⟩ ⟨2⟩ ∧
      ¬ b.func.Dominates ⟨4⟩ ⟨1⟩ ∧ ∃ doms : List BlockId, doms.length = 2 ∧ ∀ d, d ∈ doms ↔
      b.func.StrictlyDominates d ⟨3⟩ := by
  obtain ⟨b, entry, t, hb, he, hc, hk, ht, hp⟩ := tangled_ok (p := fun _ t => t.dominates ⟨1⟩ ⟨3⟩ &&
    !t.dominates ⟨1⟩ ⟨2⟩ && !t.dominates ⟨4⟩ ⟨1⟩ && (t.level ⟨3⟩).toOption.any (· = 2))
    (by decide +kernel)
  simp only [Bool.and_eq_true, Bool.not_eq_true'] at hp
  obtain ⟨⟨⟨h13, h12⟩, h41⟩, hlevel⟩ := hp
  obtain ⟨n, hlevel, hn⟩ := exists_of_any hlevel
  obtain ⟨t', ht', hdom, -, -, hlevels⟩ := ofFunc_dominance_iff he hc hk
  rw [ht] at ht'
  cases ht'
  obtain ⟨doms, -, hmem, hlen⟩ := hlevels ⟨3⟩ ((hdom ⟨1⟩ ⟨3⟩).1 h13).1
  rw [hlevel] at hlen
  refine ⟨b, hb, (hdom _ _).1 h13, ?_, ?_, doms,
    (Except.ok.inj hlen).symm.trans (of_decide_eq_true hn), hmem⟩
  · rw [← hdom, h12]
    exact Bool.false_ne_true
  · rw [← hdom, h41]
    exact Bool.false_ne_true

/-- The frontier of a block holds exactly the blocks where its dominance ends. -/
theorem ofFunc_frontier_iff (he : f.entry = .ok entry) (hc : f.Closed)
    (hk : ∀ b ∈ f.blocks, b.index < f.blockBound) :
    ∃ t, ofFunc f = .ok t ∧ ∀ x : BlockId, x.index < f.blockBound → ∃ ys, t.frontier x = .ok ys ∧
      ∀ y, y ∈ ys ↔ f.Reachable y ∧ (∃ p, f.Reachable p ∧ f.Leads p y ∧ f.Dominates x p) ∧
        ¬ f.StrictlyDominates x y := by
  obtain ⟨t, r, ht, -, hread, h, hr⟩ := ofFunc_readOff he hc hk
  refine ⟨t, ht, fun x hx => ?_⟩
  by_cases hreach : Connects f.Leads entry x
  · obtain ⟨ys, hys, -, hmem⟩ := (hread.faithful hr h).frontier hreach
    refine ⟨ys, hys, fun y => ?_⟩
    simp only [Func.StrictlyDominates, Func.dominates_iff he, Func.reachable_iff he]
    rw [hmem]
    constructor
    · rintro ⟨⟨p, hl, hg⟩, hn⟩
      exact ⟨hg.1.step hl, ⟨p, hg.1, hl, hg⟩, hn⟩
    · rintro ⟨-, ⟨p, -, hl, hg⟩, hn⟩
      exact ⟨⟨p, hl, hg⟩, hn⟩
  · refine ⟨[], hread.frontier_of_unreachable h hx hreach,
      fun y => ⟨fun hy => absurd hy List.not_mem_nil, ?_⟩⟩
    rintro ⟨-, ⟨p, -, -, hg⟩, -⟩
    exact absurd ((Func.dominates_iff he).1 hg).connects hreach

theorem tangled_frontier : ∃ b, tangled = .ok b ∧ ∀ y, y = ⟨0⟩ ∨ y = ⟨1⟩ ↔
    b.func.Reachable y ∧ (∃ p, b.func.Reachable p ∧ b.func.Leads p y ∧ b.func.Dominates ⟨2⟩ p) ∧
      ¬ b.func.StrictlyDominates ⟨2⟩ y := by
  obtain ⟨b, entry, t, hb, he, hc, hk, ht, hp⟩ :=
    tangled_ok (p := fun f t => decide (2 < f.blockBound) && (t.frontier ⟨2⟩).toOption.any
      (· = [⟨0⟩, ⟨1⟩])) (by decide +kernel)
  simp only [Bool.and_eq_true, decide_eq_true_eq] at hp
  obtain ⟨ys, hys, hlist⟩ := exists_of_any hp.2
  obtain rfl := of_decide_eq_true hlist
  obtain ⟨t', ht', hfrontier⟩ := ofFunc_frontier_iff he hc hk
  rw [ht] at ht'
  cases ht'
  obtain ⟨zs, hzs, hmem⟩ := hfrontier ⟨2⟩ hp.1
  rw [hys] at hzs
  cases hzs
  refine ⟨b, hb, fun y => ?_⟩
  rw [← hmem, List.mem_cons, List.mem_singleton]

end DominatorTree

end MiddleEnd
