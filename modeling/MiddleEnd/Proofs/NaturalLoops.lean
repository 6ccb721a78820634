import MiddleEnd.ControlFlow.Loops
import MiddleEnd.Proofs.DominatorTree

/-!
# The loops that are found

For every block that dominates one of the blocks it is entered from exactly one loop is found. The
search for its body goes backwards from the latches and only ever stops at the header; that nothing
but the header lets control in follows since the header dominates the latches: what leads to a block
that the header strictly dominates is itself dominated by the header. The graph may be irreducible,
and blocks that control does not come to may lead into a loop.
-/

namespace MiddleEnd

theorem Walk.reverse {α : Type} {E : α → α → Prop} {a b : α} {p : List α} (h : Walk E a b p) :
    Walk (fun x y => E y x) b a p.reverse := by
  induction h with
  | single a => exact .single a
  | @cons a b c p e _ ih =>
    rw [List.reverse_cons]
    exact ih.snoc e

section Graph

variable {α : Type} {E : α → α → Prop} {root h a b c p : α}

def Closes (E : α → α → Prop) (root h p : α) : Prop := E p h ∧ Guards E root h p

/-- A walk goes from `b` to `c` by way of nodes that the root leads to, and not through `h`. -/
def Around (E : α → α → Prop) (root h b c : α) : Prop :=
  ∃ q, Walk E b c q ∧ ∀ x ∈ q, Connects E root x ∧ x ≠ h

/-- The node lies in the loop of the header: it is the header, or it leads to a latch without
passing the header. -/
def Encloses (E : α → α → Prop) (root h b : α) : Prop :=
  b = h ∨ ∃ p, Closes E root h p ∧ Around E root h b p

theorem Around.cons (j : Around E root h b c) (ha : Connects E root a) (hne : a ≠ h) (e : E a b) :
    Around E root h a c := by
  obtain ⟨q, hq, hall⟩ := j
  refine ⟨a :: q, .cons e hq, fun x hx => ?_⟩
  rcases List.mem_cons.1 hx with rfl | hx
  · exact ⟨ha, hne⟩
  · exact hall x hx

theorem Around.guards (j : Around E root h b c) (hg : Guards E root h c) : Guards E root h b := by
  obtain ⟨q, hq, hall⟩ := j
  induction hq with
  | single => exact hg
  | @cons a b c q e hw ih =>
    have hb := ih hg fun x hx => hall x (List.mem_cons_of_mem _ hx)
    have hne := (hall b (List.mem_cons_of_mem _ hw.start_mem)).2
    exact hb.of_step hne.symm (hall a List.mem_cons_self).1 e

theorem Encloses.guards (j : Encloses E root h b) (hh : Connects E root h) : Guards E root h b := by
  rcases j with rfl | ⟨p, hp, j⟩
  · exact hh.guards_self
  · exact j.guards hp.2

theorem Encloses.entered (j : Encloses E root h b) (ha : Connects E root a)
    (hn : ¬ Encloses E root h a) (e : E a b) : b = h := by
  rcases j with rfl | ⟨p, hp, j⟩
  · rfl
  · have hne : a ≠ h := fun he => hn (.inl he)
    exact absurd (.inr ⟨p, hp, j.cons ha hne e⟩) hn

end Graph

/-- The loop holds what the edges of the function say about its header. -/
structure Loop.IsNatural (f : Func) (l : Loop) : Prop where
  latches : ∀ p, p ∈ l.latches ↔ f.Leads p l.header ∧ f.Dominates l.header p
  body : ∀ b, b ∈ l.body ↔ b = l.header ∨
    ∃ p ∈ l.latches, ∃ q, f.Path b p q ∧ ∀ x ∈ q, f.Reachable x ∧ x ≠ l.header
  dominates : ∀ b ∈ l.body, f.Dominates l.header b
  entered : ∀ a b, f.Reachable a → a ∉ l.body → b ∈ l.body → f.Leads a b → b = l.header
  exits : ∀ b, b ∈ l.exits ↔ b ∉ l.body ∧ ∃ a ∈ l.body, f.Leads a b

def Loop.core (l : Loop) : Loop := { l with parent? := none, depth := 1 }

theorem Loop.IsNatural.of_core {f : Func} {l m : Loop} (h : l.IsNatural f) (hc : m.core = l.core) :
    m.IsNatural f := by
  have hcore : m.core.IsNatural f := hc ▸ ⟨h.latches, h.body, h.dominates, h.entered, h.exits⟩
  exact ⟨hcore.latches, hcore.body, hcore.dominates, hcore.entered, hcore.exits⟩

namespace Loops

theorem nest_core (loops : List Loop) : (nest loops).map Loop.core = loops.map Loop.core := by
  refine foldl_induct (fun _ (done : List Loop) => done.map Loop.core = loops.map Loop.core) rfl ?_
  rintro pre ⟨l, n⟩ post done hsplit hdone
  dsimp only
  cases parentOf? loops n l with
  | none => exact hdone
  | some p =>
    have hl : loops[n]? = some l := by
      have hmem : (l, n) ∈ loops.zipIdx := by
        rw [hsplit]
        exact List.mem_append_right _ List.mem_cons_self
      exact List.mem_zipIdx_iff_getElem?.1 hmem
    simp only
    rw [List.map_set, hdone]
    refine List.ext_getElem? fun k => ?_
    rw [List.getElem?_set]
    split
    · rename_i hk
      subst hk
      rw [List.getElem?_map, hl,
        if_pos (by rw [List.length_map]; exact (List.getElem?_eq_some_iff.1 hl).1)]
      rfl
    · rfl

variable {f : Func} {entry : BlockId} {t : DominatorTree} {e : Edges}

section Header

variable {h : BlockId}

theorem walk_back_iff {back : BlockId → Checked (List BlockId)}
    (hback : ∀ {x}, Connects f.Leads entry x → ∃ ps, back x = .ok ps ∧ ∀ p, p ∈ ps ↔ f.Leads p x ∧
      Connects f.Leads entry p) {p b : BlockId} (hp : Connects f.Leads entry p) {q : List BlockId} :
    Walk (Search.Edge back) p b q ↔ Walk (fun x y => f.Leads y x) p b q ∧
    ∀ x ∈ q, Connects f.Leads entry x := by
  have hedge : ∀ {x y}, Connects f.Leads entry x →
      (Search.Edge back x y ↔ f.Leads y x ∧ Connects f.Leads entry y) := by
    intro x y hx
    obtain ⟨ps, hps, hmem⟩ := hback hx
    rw [← hmem]
    constructor
    · rintro ⟨ys, hys, hy⟩
      rw [hps] at hys
      cases hys
      exact hy
    · exact fun hy => ⟨ps, hps, hy⟩
  constructor
  · intro hw
    induction hw with
    | single a => exact ⟨.single a, fun x hx => List.mem_singleton.1 hx ▸ hp⟩
    | @cons a b c q e _ ih =>
      obtain ⟨hl, hb⟩ := (hedge hp).1 e
      obtain ⟨hw, hall⟩ := ih hb
      refine ⟨.cons hl hw, fun x hx => ?_⟩
      rcases List.mem_cons.1 hx with rfl | hx
      · exact hp
      · exact hall x hx
  · rintro ⟨hw, hall⟩
    induction hw with
    | single a => exact .single a
    | @cons a b c q e hw ih =>
      have hall' : ∀ x ∈ q, Connects f.Leads entry x :=
        fun x hx => hall x (List.mem_cons_of_mem _ hx)
      have hb := hall' b hw.start_mem
      exact .cons ((hedge hp).2 ⟨e, hb⟩) (ih hb hall')

theorem body_ok (ht : t.Faithful f entry) (hc : f.Closed) (he : f.entry = .ok entry)
    (hs : Edges.Snapshot f e) (hh : Connects f.Leads entry h) {latches : List BlockId}
    (hl : ∀ p, p ∈ latches ↔ Closes f.Leads entry h p) :
    ∃ body, Search.reach (fun b => do .ok ((← e.preds b).filter t.isReachable))
      (t.order.length + 1) [h] latches =
      .ok body ∧ ∀ b, b ∈ body ↔ Encloses f.Leads entry h b := by
  have hback : ∀ {x}, Connects f.Leads entry x →
      ∃ ps, (do .ok ((← e.preds x).filter t.isReachable) : Checked (List BlockId)) = .ok ps ∧
        ∀ p, p ∈ ps ↔ f.Leads p x ∧ Connects f.Leads entry p := by
    intro x hx
    obtain ⟨ps, hps, hmem⟩ := hs.preds x (hc.connects_mem he hx)
    refine ⟨ps.filter t.isReachable, by rw [hps]; rfl, fun p => ?_⟩
    rw [List.mem_filter, hmem, ht.isReachable_iff]
  have hwithin : Search.Within (fun b => do .ok ((← e.preds b).filter t.isReachable)) t.order := by
    intro x hx
    obtain ⟨ps, hps, hmem⟩ := hback ((ht.listing.mem x).1 hx)
    exact ⟨ps, hps, fun p hp => (ht.listing.mem p).2 ((hmem p).1 hp).2⟩
  obtain ⟨body, hbody, hmem⟩ := Search.reach_ok [h] latches hwithin (Nat.le_succ _)
    (fun x hx => by rw [List.mem_singleton.1 hx]; exact (ht.listing.mem h).2 hh)
    (fun p hp => (ht.listing.mem p).2 ((hl p).1 hp).2.1)
  refine ⟨body, hbody, fun b => ?_⟩
  rw [hmem, List.mem_singleton]
  refine or_congr_right ⟨?_, ?_⟩
  · rintro ⟨p, hp, q, hq, havoid⟩
    have hp := (hl p).1 hp
    obtain ⟨hw, hall⟩ := (walk_back_iff hback hp.2.1).1 hq
    refine ⟨p, hp, q.reverse, hw.reverse, fun x hx => ?_⟩
    have hx := List.mem_reverse.1 hx
    exact ⟨hall x hx, fun he => havoid x hx (List.mem_singleton.2 he)⟩
  · rintro ⟨p, hp, q, hq, hall⟩
    refine ⟨p, (hl p).2 hp, q.reverse, (walk_back_iff hback hp.2.1).2 ⟨hq.reverse, fun x hx => ?_⟩,
      fun x hx hm => ?_⟩
    · exact (hall x (List.mem_reverse.1 hx)).1
    · exact (hall x (List.mem_reverse.1 hx)).2 (List.mem_singleton.1 hm)

theorem mem_succs_flatten (hs : Edges.Snapshot f e) {bs : List BlockId}
    (hbs : ∀ b ∈ bs, b ∈ f.blocks) {ss : List (List BlockId)} (h : bs.mapM e.succs = .ok ss)
    {b : BlockId} :
    b ∈ ss.flatten ↔ ∃ a ∈ bs, f.Leads a b := by
  rw [List.mem_flatten]
  constructor
  · rintro ⟨s, hs', hb⟩
    obtain ⟨n, hn⟩ := List.mem_iff_getElem?.1 hs'
    obtain ⟨a, ha, hsucc⟩ := mapM_ok_getElem? h hn
    have ha := List.mem_of_getElem? ha
    exact ⟨a, ha, s, (hs.succs a (hbs a ha)).symm.trans hsucc, hb⟩
  · rintro ⟨a, ha, s, hsucc, hb⟩
    obtain ⟨s', hs', hin⟩ := mapM_ok_forall h a ha
    rw [hs.succs a (hbs a ha), hsucc] at hin
    cases hin
    exact ⟨s, hs', hb⟩

/-- A block that control comes to is asked whether it is a header, and what is found then is its
loop. -/
theorem loopAt?_ok (ht : t.Faithful f entry) (hc : f.Closed) (he : f.entry = .ok entry)
    (hs : Edges.Snapshot f e) (hh : Connects f.Leads entry h) :
    ∃ o, loopAt? e t h = .ok o ∧ (o.isSome ↔ ∃ p, Closes f.Leads entry h p) ∧
      ∀ l, o = some l → l.header = h ∧ l.IsNatural f := by
  obtain ⟨preds, hpreds, hmem⟩ := hs.preds h (hc.connects_mem he hh)
  have hlatch : ∀ p, p ∈ preds.filter (t.dominates h) ↔ Closes f.Leads entry h p := by
    intro p
    rw [List.mem_filter, hmem, ht.dominates_iff]
    rfl
  unfold loopAt?
  rw [hpreds, ok_bind]
  by_cases hnone : (preds.filter (t.dominates h)).isEmpty
  · refine ⟨none, by rw [if_pos hnone]; rfl, ⟨fun hsome => (by cases hsome), ?_⟩,
      fun l hl => (by cases hl)⟩
    rintro ⟨p, hp⟩
    rw [List.isEmpty_iff.1 hnone] at hlatch
    exact absurd ((hlatch p).2 hp) List.not_mem_nil
  · obtain ⟨body, hbody, hin⟩ := body_ok ht hc he hs hh hlatch
    have hin' : ∀ b, b ∈ KeySet.ofList body ↔ Encloses f.Leads entry h b := fun b => by
      rw [KeySet.mem_ofList, hin]
    have hplaced : ∀ b ∈ KeySet.ofList body, b ∈ f.blocks := fun b hb =>
      hc.connects_mem he (((hin' b).1 hb).guards hh).1
    obtain ⟨ss, hss⟩ : ∃ ss, (KeySet.ofList body).toList.mapM e.succs = .ok ss :=
      mapM_exists fun b hb => by
        obtain ⟨ss, hss⟩ := Func.successors_ok (hplaced b hb)
        exact ⟨ss, (hs.succs b (hplaced b hb)).trans hss⟩
    rw [if_neg hnone]
    simp only [pure_eq_ok]
    rw [hbody, ok_bind, hss, ok_bind]
    refine ⟨_, rfl, ⟨fun _ => ?_, fun _ => rfl⟩, ?_⟩
    · obtain ⟨p, hp⟩ := List.exists_mem_of_ne_nil _ fun hnil => hnone (List.isEmpty_iff.2 hnil)
      exact ⟨p, (hlatch p).1 hp⟩
    · rintro l hl
      cases hl
      refine ⟨rfl, ?_, ?_, ?_, ?_, ?_⟩
      · intro p
        rw [hlatch, Func.dominates_iff he]
        rfl
      · intro b
        rw [hin']
        refine or_congr_right ?_
        simp only [hlatch, Func.reachable_iff he]
        rfl
      · intro b hb
        rw [Func.dominates_iff he]
        exact ((hin' b).1 hb).guards hh
      · intro a b ha hna hb hab
        exact ((hin' b).1 hb).entered ((Func.reachable_iff he).1 ha) (fun hea =>
          hna ((hin' a).2 hea)) hab
      · intro b
        rw [KeySet.mem_ofList, List.mem_filter, Bool.not_eq_true', ← Bool.not_eq_true,
          KeySet.contains_iff, and_comm]
        exact and_congr_right fun _ => mem_succs_flatten hs hplaced hss

end Header

theorem headers_sublist {order : List BlockId} {os : List (Option Loop)}
    (hos : order.mapM (loopAt? e t) = .ok os)
    (hat : ∀ h ∈ order, ∀ l, loopAt? e t h = .ok (some l) → l.header = h) :
    ((os.filterMap id).map (·.header)).Sublist order := by
  induction order generalizing os with
  | nil =>
    cases hos
    exact List.Sublist.refl _
  | cons h order ih =>
    obtain ⟨o, rest, ho, hrest, rfl⟩ := mapM_cons_eq_ok.1 hos
    have hsub := ih hrest fun h' hh' => hat h' (List.mem_cons_of_mem _ hh')
    cases o with
    | none => exact hsub.cons h
    | some l =>
      show (l.header :: (rest.filterMap id).map (·.header)).Sublist (h :: order)
      rw [hat h List.mem_cons_self l ho]
      exact hsub.cons_cons h

theorem loopAt?_core {h : BlockId} {l : Loop} (hl : loopAt? e t h = .ok (some l)) : l.core = l := by
  unfold loopAt? at hl
  obtain ⟨preds, -, hl⟩ := bind_eq_ok.1 hl
  dsimp only at hl
  split at hl
  · cases hl
  · obtain ⟨body, -, hl⟩ := bind_eq_ok.1 hl
    obtain ⟨succs, -, hl⟩ := bind_eq_ok.1 hl
    cases hl
    rfl

/-- What is found before the loops are nested: one loop for each header, in the order of the
headers. -/
structure Discovered (f : Func) (entry : BlockId) (t : DominatorTree) (found : List Loop) :
    Prop where
  headers : (found.map (·.header)).Sublist t.order
  header_iff : ∀ h, h ∈ found.map (·.header) ↔ ∃ p, Closes f.Leads entry h p
  natural : ∀ l ∈ found, l.IsNatural f
  core : ∀ l ∈ found, l.core = l

theorem discovered_ok (ht : t.Faithful f entry) (hcur : t.isCurrent f = true) (hc : f.Closed)
    (he : f.entry = .ok entry) :
    ∃ found, ofFunc f t = .ok { loops := nest found, epoch := f.flow.epoch } ∧
      Discovered f entry t found := by
  obtain ⟨e, hofFunc, hs⟩ := Edges.ofFunc_ok f
  have hat : ∀ h ∈ t.order, ∃ o, loopAt? e t h = .ok o ∧
      (o.isSome ↔ ∃ p, Closes f.Leads entry h p) ∧
      ∀ l, o = some l → l.header = h ∧ l.IsNatural f := fun h hh =>
    loopAt?_ok ht hc he hs ((ht.listing.mem h).1 hh)
  obtain ⟨os, hos⟩ := mapM_exists fun h hh => (hat h hh).imp fun _ ho => ho.1
  have hfound : ∀ l, l ∈ os.filterMap id ↔ ∃ h ∈ t.order, loopAt? e t h = .ok (some l) := by
    intro l
    simp only [List.mem_filterMap, id, exists_eq_right]
    constructor
    · intro hl
      obtain ⟨n, hn⟩ := List.mem_iff_getElem?.1 hl
      obtain ⟨h, hh, hloop⟩ := mapM_ok_getElem? hos hn
      exact ⟨h, List.mem_of_getElem? hh, hloop⟩
    · rintro ⟨h, hh, hloop⟩
      obtain ⟨o, ho, hloop'⟩ := mapM_ok_forall hos h hh
      rw [hloop] at hloop'
      cases hloop'
      exact ho
  have hnat : ∀ {h l}, h ∈ t.order → loopAt? e t h = .ok (some l) → l.header = h ∧
      l.IsNatural f := by
    intro h l hh hloop
    obtain ⟨o, ho, -, hall⟩ := hat h hh
    rw [hloop] at ho
    exact hall l (Except.ok.inj ho).symm
  refine ⟨os.filterMap id, ?_, headers_sublist hos fun h hh l hl => (hnat hh hl).1, fun h => ?_,
    fun l hl => ?_,
    fun l hl => ?_⟩
  · unfold ofFunc
    rw [hcur, hofFunc]
    simp only [Bool.not_true, Bool.false_eq_true, if_false, ok_bind, pure_eq_ok]
    rw [hos, ok_bind]
  · rw [List.mem_map]
    constructor
    · rintro ⟨l, hl, rfl⟩
      obtain ⟨h, hh, hloop⟩ := (hfound l).1 hl
      obtain ⟨o, ho, hsome, -⟩ := hat h hh
      rw [hloop] at ho
      cases ho
      rw [(hnat hh hloop).1]
      exact hsome.1 rfl
    · rintro ⟨p, hp⟩
      have hh : h ∈ t.order := (ht.listing.mem h).2 (hp.2.1.step hp.1)
      obtain ⟨o, ho, hsome, -⟩ := hat h hh
      obtain ⟨l, rfl⟩ := Option.isSome_iff_exists.1 (hsome.2 ⟨p, hp⟩)
      exact ⟨l, (hfound l).2 ⟨h, hh, ho⟩, (hnat hh ho).1⟩
  · obtain ⟨h, hh, hloop⟩ := (hfound l).1 hl
    exact (hnat hh hloop).2
  · obtain ⟨h, -, hloop⟩ := (hfound l).1 hl
    exact loopAt?_core hloop

theorem ofFunc_ok (ht : t.Faithful f entry) (hcur : t.isCurrent f = true) (hc : f.Closed)
    (he : f.entry = .ok entry) :
    ∃ ls, ofFunc f t = .ok ls ∧ (ls.loops.map (·.header)).Nodup ∧
      (∀ h, h ∈ ls.loops.map (·.header) ↔ ∃ p, Closes f.Leads entry h p) ∧
      ∀ l ∈ ls.loops, l.IsNatural f := by
  obtain ⟨found, hls, hd⟩ := discovered_ok ht hcur hc he
  -- what is found is nested afterwards, which leaves headers and bodies alone
  have hcores := nest_core found
  have hheaders : (nest found).map (·.header) = found.map (·.header) := by
    have := congrArg (List.map Loop.header) hcores
    rwa [List.map_map, List.map_map] at this
  refine ⟨_, hls, ?_, fun h => ?_, fun l hl => ?_⟩
  · rw [hheaders]
    exact hd.headers.nodup ht.listing.nodup
  · rw [hheaders]
    exact hd.header_iff h
  · obtain ⟨m, hm, hcore⟩ := List.mem_map.1 (hcores ▸ List.mem_map_of_mem hl)
    exact (hd.natural m hm).of_core hcore.symm

theorem loops_yield {ls : Loops} (h : ofFunc f t = .ok ls) : (f.loops t).Yields (· = ls) := by
  unfold Func.loops
  refine (Run.yields_lift ⟨ls, h, rfl⟩).bind ?_
  rintro _ rfl
  exact (Run.yields_lines _).bind fun _ _ => Run.yields_pure rfl

theorem reachable_of_closes {h p : BlockId} (he : f.entry = .ok entry)
    (hp : Closes f.Leads entry h p) :
    f.Reachable h ∧ f.Leads p h ∧ f.Dominates h p :=
  ⟨(Func.reachable_iff he).2 (hp.2.1.step hp.1), hp.1, (Func.dominates_iff he).2 hp.2⟩

/-- Exactly one loop is found for every block that control comes to and that dominates a block it is
entered from. The loop holds its latches, its body and its exits as the paths of the function have
them; the header dominates the body, and control comes into the body at the header only. -/
theorem loops_natural (he : f.entry = .ok entry) (hc : f.Closed)
    (hk : ∀ b ∈ f.blocks, b.index < f.blockBound) :
    ∃ t ls, DominatorTree.ofFunc f = .ok t ∧ (f.loops t).outcome = .ok ls ∧
      (ls.loops.map (·.header)).Nodup ∧
      (∀ h, h ∈ ls.loops.map (·.header) ↔ f.Reachable h ∧ ∃ p, f.Leads p h ∧ f.Dominates h p) ∧
      ∀ l ∈ ls.loops, l.IsNatural f := by
  obtain ⟨t, ht, hfaith, hepoch⟩ := DominatorTree.ofFunc_ok he hc hk
  have hcur : t.isCurrent f = true := by
    rw [DominatorTree.isCurrent, hepoch, beq_self_eq_true]
  obtain ⟨ls, hls, hnodup, hheaders, hnat⟩ := ofFunc_ok hfaith hcur hc he
  obtain ⟨_, hout, rfl⟩ := (loops_yield hls).outcome
  refine ⟨t, _, ht, hout, hnodup, fun h => ?_, hnat⟩
  rw [hheaders]
  constructor
  · rintro ⟨p, hp⟩
    exact ⟨(reachable_of_closes he hp).1, p, (reachable_of_closes he hp).2⟩
  · rintro ⟨-, p, hl, hd⟩
    exact ⟨p, hl, (Func.dominates_iff he).1 hd⟩

/-- The irreducible loop in the middle has no header; it is part of the loop that goes on through
the entry. -/
theorem tangled_natural :
    ∃ b t ls, DominatorTree.tangled = .ok b ∧ DominatorTree.ofFunc b.func = .ok t ∧
      (b.func.loops t).outcome = .ok ls ∧ ∃ l ∈ ls.loops, l.IsNatural b.func ∧ l.header = ⟨0⟩ ∧
      l.latches = [⟨2⟩] ∧ l.body.toList = [⟨0⟩, ⟨1⟩, ⟨2⟩] ∧ l.exits.toList = [⟨3⟩] := by
  obtain ⟨b, entry, t, hb, he, hc, hk, ht, hp⟩ := DominatorTree.tangled_ok
    (p := fun f t => (f.loops t).outcome.toOption.any fun ls => ls.loops.any fun l =>
    decide (l.header = ⟨0⟩ ∧
      l.latches = [⟨2⟩] ∧ l.body.toList = [⟨0⟩, ⟨1⟩, ⟨2⟩] ∧
      l.exits.toList = [⟨3⟩])) (by decide +kernel)
  obtain ⟨t', ls, ht', hls, -, -, hnat⟩ := loops_natural he hc hk
  rw [ht] at ht'
  cases ht'
  obtain ⟨ls', hls', hp⟩ := exists_of_any hp
  rw [hls] at hls'
  cases hls'
  obtain ⟨l, hl, hp⟩ := List.any_eq_true.1 hp
  exact ⟨b, t, ls, hb, ht, hls, l, hl, hnat l hl, of_decide_eq_true hp⟩

end Loops

end MiddleEnd
