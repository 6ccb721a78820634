import MiddleEnd.Proofs.NaturalLoops

/-!
# Loops are nested

Two loops that share a block lie one in the other, whatever the graph looks like: of their headers,
which both guard the block, one guards the other, and a walk that stays in the inner loop does not
come to the outer header. The header that guards the other comes first in reverse post-order. So the
loops around a header form a chain, the smallest of them is the parent, and the depths that are read
off the parents in order count the loops.
-/

namespace MiddleEnd

section Graph

variable {α : Type} {E : α → α → Prop} {root a b c h m : α} {p : List α}

theorem Walk.drop_to (w : Walk E a b p) (hc : c ∈ p) : ∃ q, Walk E c b q ∧ ∀ x ∈ q, x ∈ p := by
  rcases w.last_departure hc with rfl | ⟨d, q, e, hq, -, hsub⟩
  · exact ⟨[c], .single c, fun x hx => List.mem_singleton.1 hx ▸ hc⟩
  · refine ⟨c :: q, .cons e hq, fun x hx => ?_⟩
    rcases List.mem_cons.1 hx with rfl | hx
    · exact hc
    · exact hsub x hx

theorem Around.of_walk (hb : Connects E root b) (w : Walk E b c p) (hn : h ∉ p) :
    Around E root h b c := by
  refine ⟨p, w, fun x hx => ⟨?_, fun he => hn (he ▸ hx)⟩⟩
  clear hn
  induction w with
  | single => exact List.mem_singleton.1 hx ▸ hb
  | cons e _ ih =>
    rcases List.mem_cons.1 hx with rfl | hx
    · exact hb
    · exact ih (hb.step e) hx

theorem Around.trans (j : Around E root h a b) (k : Around E root h b c) : Around E root h a c := by
  obtain ⟨q, hq, hall⟩ := j
  obtain ⟨r, hr, hall'⟩ := k
  obtain ⟨s, hs, hsub⟩ := hq.append hr
  exact ⟨s, hs, fun x hx => (hsub x hx).elim (hall x) (hall' x)⟩

theorem Guards.chain (hb : Guards E root h b) (hb' : Guards E root m b) :
    Guards E root h m ∨ Guards E root m h := by
  obtain ⟨p, hp⟩ := hb.1
  rcases hp.last_departure (hb.2 p hp) with rfl | ⟨c, q, e, hq, hn, -⟩
  · exact .inr hb'
  · by_cases hm : m ∈ q
    · obtain ⟨r, hr, hsub⟩ := hq.drop_to hm
      exact .inl ((Around.of_walk hb'.connects hr fun hx => hn (hsub h hx)).guards hb)
    · by_cases heq : m = h
      · exact .inl (heq ▸ hb'.connects.guards_self)
      · exact .inr ((Around.of_walk hb.connects (.cons e hq) (by simp [heq, hm])).guards hb')

theorem Guards.around (hm : Guards E root h m) (hne : h ≠ m) (hb : Guards E root m b) :
    Around E root h m b := by
  obtain ⟨p, hp⟩ := hb.1
  rcases hp.last_departure (hb.2 p hp) with rfl | ⟨c, q, e, hq, hn, -⟩
  · exact .of_walk hb.1 (.single m) fun hx => hne (List.mem_singleton.1 hx)
  · refine .of_walk hb.connects (.cons e hq) fun hx => ?_
    obtain ⟨r, hr, hsub⟩ := hq.drop_to ((List.mem_cons.1 hx).resolve_left hne)
    exact hne (hm.antisymm ((Around.of_walk hm.connects hr fun hx => hn (hsub m hx)).guards hb))

theorem Encloses.header (hm : Guards E root h m) (j : Encloses E root h b)
    (hb : Guards E root m b) :
    Encloses E root h m := by
  by_cases hne : h = m
  · exact .inl hne.symm
  · rcases j with rfl | ⟨p, hp, j⟩
    · exact absurd (hm.antisymm hb) hne
    · exact .inr ⟨p, hp, (hm.around hne hb).trans j⟩

theorem Encloses.trans (hh : Connects E root h) (j : Encloses E root h m)
    (k : Encloses E root m b) :
    Encloses E root h b := by
  have hg := j.guards hh
  rcases j with rfl | ⟨p, hp, j⟩
  · exact k
  · rcases k with rfl | ⟨p', hp', k⟩
    · exact .inr ⟨p, hp, j⟩
    · have hne : h ≠ m := by
        obtain ⟨q, hq, hall⟩ := j
        exact fun he => (hall m hq.start_mem).2 he.symm
      -- what leads to a latch of the inner loop inside the loop is guarded by the inner header, the
      -- outer one is not
      have havoid : ¬ Guards E root m h := fun hm => hne (hg.antisymm hm)
      obtain ⟨q, hq, hall⟩ := k
      have hq' : Around E root h b p' := by
        refine .of_walk (hall b hq.start_mem).1 hq fun hx => havoid ?_
        obtain ⟨r, hr, hsub⟩ := hq.drop_to hx
        exact Around.guards ⟨r, hr, fun x hx => hall x (hsub x hx)⟩ hp'.2
      have hlatch : p' ≠ h := by
        rintro rfl
        exact havoid hp'.2
      exact .inr ⟨p, hp, hq'.trans (j.cons hp'.2.1 hlatch hp'.1)⟩

end Graph

theorem foldl_best {α β : Type} {R : β → β → Prop} {step : Option β → α → Option β} {xs : List α}
    {best : Option β} (h : xs.foldl step none = best) {g : α → β} (hrefl : ∀ b, R b b)
    (htrans : ∀ {a b c}, R a b → R b c → R a c) (hfirst : ∀ x, step none x = some (g x))
    (hnext : ∀ b x, (step (some b) x = some b ∧ R b (g x)) ∨
      (step (some b) x = some (g x) ∧ R (g x) b)) :
    (xs = [] ∧ best = none) ∨ ∃ x ∈ xs, best = some (g x) ∧ ∀ y ∈ xs, R (g x) (g y) := by
  subst h
  refine foldl_induct (fun pre best => (pre = [] ∧ best = none) ∨
    ∃ x ∈ pre, best = some (g x) ∧ ∀ y ∈ pre, R (g x) (g y)) (.inl ⟨rfl, rfl⟩) ?_
  rintro pre y post best - hbest
  refine .inr ?_
  simp only [List.mem_append, List.mem_singleton, or_imp, forall_and, forall_eq]
  rcases hbest with ⟨rfl, rfl⟩ | ⟨x, hx, rfl, hall⟩
  · exact ⟨y, .inr rfl, hfirst y, fun z hz => absurd hz List.not_mem_nil, hrefl _⟩
  · rcases hnext (g x) y with ⟨hkeep, hle⟩ | ⟨hnew, hle⟩
    · exact ⟨x, .inl hx, hkeep, hall, hle⟩
    · exact ⟨y, .inr rfl, hnew, fun z hz => htrans hle (hall z hz), hrefl _⟩

section Count

variable {α : Type} {p q : α → Bool} {xs : List α} {a : α}

theorem countP_eq_succ {n : Nat} (ha : xs[n]? = some a) (hp : p a = true) (hq : q a = false)
    (h : ∀ {k x}, xs[k]? = some x → k ≠ n → p x = q x) : xs.countP p = xs.countP q + 1 := by
  induction xs generalizing n with
  | nil => cases ha
  | cons x xs ih =>
    cases n with
    | zero =>
      cases ha
      rw [List.countP_cons_of_pos hp,
        List.countP_cons_of_neg (by rw [hq]; exact Bool.false_ne_true)]
      congr 1
      refine List.countP_congr fun y hy => ?_
      obtain ⟨k, hk⟩ := List.mem_iff_getElem?.1 hy
      rw [h (k := k + 1) hk (Nat.succ_ne_zero k)]
    | succ n =>
      have hrest := ih ha fun {k y} hk hne => h (k := k + 1) hk fun he => hne (Nat.succ.inj he)
      rw [List.countP_cons, List.countP_cons, hrest, h (k := 0) rfl (Nat.zero_ne_add_one n)]
      omega

theorem countP_lt (ha : a ∈ xs) (hp : p a = true) (hq : q a = false)
    (h : ∀ x ∈ xs, q x = true → p x = true) :
    xs.countP q < xs.countP p := by
  obtain ⟨pre, post, rfl⟩ := List.append_of_mem ha
  have hpre : pre.countP q ≤ pre.countP p := List.countP_mono_left fun x hx => h x (by simp [hx])
  have hpost : post.countP q ≤ post.countP p := List.countP_mono_left fun x hx => h x (by simp [hx])
  rw [List.countP_append, List.countP_append, List.countP_cons_of_pos hp,
    List.countP_cons_of_neg (by rw [hq]; exact Bool.false_ne_true)]
  omega

end Count

theorem Loop.contains_iff {l : Loop} {b : BlockId} : l.contains b = true ↔ b ∈ l.body :=
  KeySet.contains_iff

/-- All blocks of the first loop lie in the second one, which has more. -/
def Loop.Inside (l m : Loop) : Prop := (∀ b ∈ l.body, b ∈ m.body) ∧ ∃ b ∈ m.body, b ∉ l.body

theorem Loop.Inside.size_lt {l m : Loop} (h : l.Inside m) : l.body.size < m.body.size := by
  obtain ⟨hsub, b, hb, hn⟩ := h
  have hnodup : (b :: l.body.toList).Nodup := List.nodup_cons.2 ⟨hn, KeySet.nodup _⟩
  have hsubset : (b :: l.body.toList) ⊆ m.body.toList := List.cons_subset.2 ⟨hb, hsub⟩
  have := hnodup.length_le_of_subset hsubset
  rwa [List.length_cons] at this

namespace Loops

/-- Of any two loops that share a block one holds the header of the other, and whenever a loop holds
the header of another one, it comes first and holds the whole other loop, but its own header lies
outside of that. -/
structure Laminar (loops : List Loop) : Prop where
  self : ∀ l ∈ loops, l.header ∈ l.body
  around : ∀ {n k : Nat} {l m : Loop}, loops[n]? = some l → loops[k]? = some m → k ≠ n →
    l.header ∈ m.body →
    k < n ∧ m.header ∉ l.body ∧ ∀ b ∈ l.body, b ∈ m.body
  shared : ∀ {l m b}, l ∈ loops → m ∈ loops → b ∈ l.body → b ∈ m.body → l.header ∈ m.body ∨
    m.header ∈ l.body

/-- The number of loops around a block. -/
def count (loops : List Loop) (b : BlockId) : Nat := loops.countP (·.contains b)

section Laminar

variable {loops : List Loop} {n k : Nat} {l m : Loop} {b : BlockId}

theorem Laminar.inside (h : Laminar loops) (hl : loops[n]? = some l)
    (hm : loops[k]? = some m) (hne : k ≠ n) (hin : l.header ∈ m.body) : l.Inside m := by
  obtain ⟨-, hout, hsub⟩ := h.around hl hm hne hin
  exact ⟨hsub, m.header, h.self m (List.mem_of_getElem? hm), hout⟩

/-- The loop at a position is outermost, or has a parent: the loops around its header are itself and
the loops around the header of the parent. -/
theorem Laminar.parentOf?_cases (h : Laminar loops) (hl : loops[n]? = some l) :
    (parentOf? loops n l = none ∧ ∀ {k o}, loops[k]? = some o → (l.header ∈ o.body ↔ k = n)) ∨
    ∃ p m, parentOf? loops n l = some p ∧ p < n ∧ loops[p]? = some m ∧ l.header ∈ m.body ∧
      ∀ {k o}, loops[k]? = some o → (l.header ∈ o.body ↔ k = n ∨ m.header ∈ o.body) := by
  have hmem : ∀ {o k}, (o, k) ∈ loops.zipIdx.filter (fun x => x.2 ≠ n && x.1.contains l.header) ↔
      loops[k]? = some o ∧ k ≠ n ∧ l.header ∈ o.body := by
    intro o k
    simp only [List.mem_filter, List.mem_zipIdx_iff_getElem?, Bool.and_eq_true, decide_eq_true_eq,
      Loop.contains_iff]
  have hself : l.header ∈ l.body := h.self l (List.mem_of_getElem? hl)
  unfold parentOf?
  dsimp only
  generalize hbest : List.foldl _ none _ = best
  have hcases := foldl_best hbest (R := fun a b : Nat × Nat => a.1 ≤ b.1)
    (g := fun (x : Loop × Nat) => (x.1.body.size, x.2)) (fun _ => Nat.le_refl _) Nat.le_trans
    (fun _ => rfl) (by
      intro b x
      dsimp only
      split
      · rename_i hlt
        exact .inr ⟨rfl, Nat.le_of_lt hlt⟩
      · rename_i hlt
        exact .inl ⟨rfl, Nat.le_of_not_lt hlt⟩)
  rcases hcases with ⟨hnil, rfl⟩ | ⟨⟨m, p⟩, hm, rfl, hmin⟩
  · refine .inl ⟨rfl, fun {k o} ho => ⟨fun hin => Classical.byContradiction fun hne => ?_, ?_⟩⟩
    · have := hmem.2 ⟨ho, hne, hin⟩
      rw [hnil] at this
      exact absurd this List.not_mem_nil
    · rintro rfl
      cases hl.symm.trans ho
      exact hself
  · obtain ⟨hm, hpn, hin⟩ := hmem.1 hm
    refine .inr ⟨p, m, rfl, (h.around hl hm hpn hin).1, hm, hin,
      fun {k o} ho => ⟨fun hin' => ?_, ?_⟩⟩
    · by_cases hkn : k = n
      · exact .inl hkn
      · refine .inr ?_
        rcases same_or_ne hm ho with ⟨-, rfl⟩ | hkp
        · exact h.self o (List.mem_of_getElem? ho)
        · -- the loop at `k` is no smaller than the parent, so the parent is not around it
          refine (h.shared (List.mem_of_getElem? hm) (List.mem_of_getElem? ho) hin
            hin').resolve_right fun hin'' => ?_
          have hlt := (h.inside ho hm (Ne.symm hkp) hin'').size_lt
          exact absurd (hmin _ (hmem.2 ⟨ho, hkn, hin'⟩)) (Nat.not_le.2 hlt)
    · rintro (rfl | hin')
      · cases hl.symm.trans ho
        exact hself
      · rcases same_or_ne hm ho with ⟨-, rfl⟩ | hkp
        · exact hin
        · exact (h.around hm ho hkp hin').2.2 _ hin

theorem Laminar.count_header (h : Laminar loops) (hl : loops[n]? = some l) :
    (parentOf? loops n l = none ∧ count loops l.header = 1) ∨
    ∃ p m, parentOf? loops n l = some p ∧ p < n ∧ loops[p]? = some m ∧
      count loops l.header = count loops m.header + 1 := by
  have hself : l.contains l.header = true :=
    Loop.contains_iff.2 (h.self l (List.mem_of_getElem? hl))
  rcases h.parentOf?_cases hl with ⟨hnone, hall⟩ | ⟨p, m, hsome, hlt, hm, hin, hall⟩
  · refine .inl ⟨hnone, ?_⟩
    have hcount := countP_eq_succ (p := (·.contains l.header)) (q := fun _ => false) hl hself rfl
      fun {k o} ho hne =>
      Bool.eq_false_iff.2 fun hc => hne ((hall ho).1 (Loop.contains_iff.1 hc))
    rw [count, hcount, List.countP_false]
    rfl
  · refine .inr ⟨p, m, hsome, hlt, hm,
      countP_eq_succ hl hself (Bool.eq_false_iff.2 fun hc => ?_) fun {k o} ho hne => ?_⟩
    · exact (h.around hl hm (Nat.ne_of_lt hlt) hin).2.1 (Loop.contains_iff.1 hc)
    · rw [Bool.eq_iff_iff, Loop.contains_iff, Loop.contains_iff, hall ho]
      exact or_iff_right hne

def place (loops : List Loop) (n : Nat) (l : Loop) : Loop :=
  { l with parent? := parentOf? loops n l, depth := count loops l.header }

/-- The loops before a position are in their places, the others are as they were. -/
def Placed (loops : List Loop) (n : Nat) (done : List Loop) : Prop :=
  ∀ k : Nat, done[k]? = if k < n then loops[k]?.map (place loops k) else loops[k]?

theorem Placed.getElem? {done : List Loop} (h : Placed loops n done) (hl : loops[n]? = some l) :
    done[n]? = some l := by
  rw [h, if_neg (Nat.lt_irrefl n), hl]

theorem Placed.step {done : List Loop} (h : Placed loops n done) (hl : loops[n]? = some l) :
    Placed loops (n + 1) (done.set n (place loops n l)) := by
  intro k
  rw [List.getElem?_set]
  by_cases hk : n = k
  · subst hk
    rw [if_pos rfl, if_pos (List.getElem?_eq_some_iff.1 (h.getElem? hl)).1,
      if_pos (Nat.lt_succ_self n), hl, Option.map_some]
  · have hlt : k < n + 1 ↔ k < n := by omega
    rw [if_neg hk, h]
    simp only [hlt]

theorem Laminar.nest_placed (h : Laminar loops) (hcore : ∀ l ∈ loops, l.core = l) :
    Placed loops loops.zipIdx.length (nest loops) := by
  refine foldl_induct (fun pre done => Placed loops pre.length done) (fun k =>
    (if_neg (Nat.not_lt_zero k)).symm) ?_
  rintro pre ⟨l, n⟩ post done hsplit hdone
  obtain ⟨hn, hl⟩ := zipIdx_split hsplit
  rw [Nat.zero_add] at hn
  subst hn
  rw [List.length_append, List.length_singleton]
  have hnext := hdone.step hl
  dsimp only
  rcases h.count_header hl with ⟨hnone, hcount⟩ | ⟨p, m, hsome, hlt, hm, hcount⟩
  · -- an outermost loop is in its place already
    have hplace : place loops pre.length l = l := by
      rw [place, hnone, hcount]
      exact hcore l (List.mem_of_getElem? hl)
    obtain ⟨hlen, hget⟩ := List.getElem?_eq_some_iff.1 (hdone.getElem? hl)
    have hkeep := List.set_getElem_self hlen
    rw [hget] at hkeep
    rw [hplace, hkeep] at hnext
    rw [hnone]
    exact hnext
  · have hdepth : (done[p]?.map (·.depth)).getD 1 = count loops m.header := by
      rw [hdone, if_pos hlt, hm]
      rfl
    rw [place, hsome, hcount] at hnext
    rw [hsome]
    dsimp only
    rw [hdepth]
    exact hnext

theorem Laminar.nest_getElem? (h : Laminar loops) (hcore : ∀ l ∈ loops, l.core = l) (n : Nat) :
    (nest loops)[n]? = loops[n]?.map (place loops n) := by
  rw [h.nest_placed hcore, List.length_zipIdx]
  split
  · rfl
  · rw [List.getElem?_eq_none (by omega)]
    rfl

theorem count_of_core {xs ys : List Loop} (hc : ys.map Loop.core = xs.map Loop.core) (b : BlockId) :
    count ys b = count xs b := by
  have := congrArg (List.countP (·.contains b)) hc
  rwa [List.countP_map, List.countP_map] at this

theorem Laminar.of_core {xs ys : List Loop} (h : Laminar xs)
    (hc : ys.map Loop.core = xs.map Loop.core) :
    Laminar ys := by
  have hget : ∀ {k : Nat} {l}, ys[k]? = some l → ∃ m, xs[k]? = some m ∧ l.header = m.header ∧
      l.body = m.body := by
    intro k l hl
    have hk := congrArg (·[k]?) hc
    rw [List.getElem?_map, List.getElem?_map, hl, Option.map_some] at hk
    obtain ⟨m, hm, he⟩ := Option.map_eq_some_iff.1 hk.symm
    exact ⟨m, hm, (congrArg Loop.header he).symm, (congrArg Loop.body he).symm⟩
  refine ⟨fun l hl => ?_, fun {n k l m} hl hm hne => ?_, fun {l m b} hl hm => ?_⟩
  · obtain ⟨k, hk⟩ := List.mem_iff_getElem?.1 hl
    obtain ⟨o, ho, hh, hb⟩ := hget hk
    rw [hh, hb]
    exact h.self o (List.mem_of_getElem? ho)
  · obtain ⟨o, ho, hh, hb⟩ := hget hl
    obtain ⟨o', ho', hh', hb'⟩ := hget hm
    rw [hh, hb, hh', hb']
    exact h.around ho ho' hne
  · obtain ⟨n, hn⟩ := List.mem_iff_getElem?.1 hl
    obtain ⟨k, hk⟩ := List.mem_iff_getElem?.1 hm
    obtain ⟨o, ho, hh, hb⟩ := hget hn
    obtain ⟨o', ho', hh', hb'⟩ := hget hk
    rw [hh, hb, hh', hb']
    exact h.shared (List.mem_of_getElem? ho) (List.mem_of_getElem? ho')

theorem Laminar.count_lt (h : Laminar loops) (hm : loops[n]? = some m)
    (hk : loops[k]? = some l) (hne : k ≠ n) (hin : m.header ∈ l.body) :
    count loops l.header < count loops m.header := by
  refine countP_lt (List.mem_of_getElem? hm)
    (Loop.contains_iff.2 (h.self m (List.mem_of_getElem? hm))) (Bool.eq_false_iff.2 fun hc =>
    (h.around hm hk hne hin).2.1 (Loop.contains_iff.1 hc)) fun o ho hc => ?_
  obtain ⟨j, hj⟩ := List.mem_iff_getElem?.1 ho
  rw [Loop.contains_iff] at hc ⊢
  rcases same_or_ne hk hj with ⟨-, rfl⟩ | hjk
  · exact hin
  · exact (h.around hk hj hjk hc).2.2 _ hin

/-- The deepest loop around a block is the smallest one, and its depth is the number of all of
them. -/
theorem Laminar.innermost?_cases {ls : Loops} (h : Laminar ls.loops)
    (hdepth : ∀ l ∈ ls.loops, l.depth = count ls.loops l.header) (b : BlockId) :
    (ls.innermost? b = none ∧ ∀ l ∈ ls.loops, b ∉ l.body) ∨
    ∃ l, ls.innermost? b = some l ∧ l ∈ ls.loops ∧ b ∈ l.body ∧ l.depth = count ls.loops b ∧
      ∀ m ∈ ls.loops, b ∈ m.body → m = l ∨ l.Inside m := by
  have hmem : ∀ {l}, l ∈ ls.loops.filter (·.contains b) ↔ l ∈ ls.loops ∧ b ∈ l.body := by
    intro l
    rw [List.mem_filter, Loop.contains_iff]
  unfold innermost?
  generalize hbest : List.foldl _ none _ = best
  have hcases := foldl_best hbest (R := fun l m : Loop => m.depth ≤ l.depth) (g := id) (fun _ =>
    Nat.le_refl _) (fun hab hbc => Nat.le_trans hbc hab) (fun _ => rfl) (by
      intro m l
      dsimp only
      split
      · rename_i hle
        exact .inr ⟨rfl, hle⟩
      · rename_i hlt
        exact .inl ⟨rfl, Nat.le_of_not_le hlt⟩)
  rcases hcases with ⟨hnil, rfl⟩ | ⟨l, hl, rfl, hmax⟩
  · refine .inl ⟨rfl, fun l hl hb => ?_⟩
    have := hmem.2 ⟨hl, hb⟩
    rw [hnil] at this
    exact absurd this List.not_mem_nil
  · obtain ⟨hl, hb⟩ := hmem.1 hl
    obtain ⟨n, hn⟩ := List.mem_iff_getElem?.1 hl
    have hall : ∀ {k m}, ls.loops[k]? = some m → b ∈ m.body → k = n ∨ l.header ∈ m.body := by
      intro k m hk hbm
      have hm := List.mem_of_getElem? hk
      refine Classical.byContradiction fun hno => ?_
      obtain ⟨hkn, hout⟩ := not_or.1 hno
      have hin := (h.shared hl hm hb hbm).resolve_left hout
      have hlt := h.count_lt hk hn (Ne.symm hkn) hin
      have hle := hmax m (hmem.2 ⟨hm, hbm⟩)
      rw [id, id, hdepth l hl, hdepth m hm] at hle
      omega
    refine .inr ⟨l, rfl, hl, hb, ?_, fun m hm hbm => ?_⟩
    · rw [hdepth l hl]
      refine List.countP_congr fun m hm => ?_
      obtain ⟨k, hk⟩ := List.mem_iff_getElem?.1 hm
      rw [Loop.contains_iff, Loop.contains_iff]
      rcases same_or_ne hn hk with ⟨-, rfl⟩ | hkn
      · exact iff_of_true (h.self m hl) hb
      · exact ⟨fun hin => (h.around hn hk hkn hin).2.2 b hb,
          fun hbm => (hall hk hbm).resolve_left hkn⟩
    · obtain ⟨k, hk⟩ := List.mem_iff_getElem?.1 hm
      rcases same_or_ne hn hk with ⟨-, hml⟩ | hkn
      · exact .inl hml
      · exact .inr (h.inside hn hk hkn ((hall hk hbm).resolve_left hkn))

end Laminar

variable {f : Func} {entry : BlockId} {t : DominatorTree}

theorem Discovered.body_iff {found : List Loop} (hd : Discovered f entry t found)
    (he : f.entry = .ok entry) {l : Loop} (hl : l ∈ found) {b : BlockId} :
    b ∈ l.body ↔ Encloses f.Leads entry l.header b := by
  rw [(hd.natural l hl).body]
  simp only [(hd.natural l hl).latches, Func.dominates_iff he, Func.reachable_iff he]
  rfl

theorem Discovered.connects {found : List Loop} (hd : Discovered f entry t found) {l : Loop}
    (hl : l ∈ found) :
    Connects f.Leads entry l.header := by
  obtain ⟨p, hp⟩ := (hd.header_iff l.header).1 (List.mem_map_of_mem hl)
  exact hp.2.1.step hp.1

theorem Discovered.earlier {found : List Loop} (hd : Discovered f entry t found)
    (ht : t.Faithful f entry) {n k : Nat} {l m : Loop} (hn : found[n]? = some l)
    (hk : found[k]? = some m) (hne : k ≠ n) (hg : Guards f.Leads entry m.header l.header) :
    k < n := by
  have hpair : (found.map (·.header)).Pairwise fun a b => ¬ Guards f.Leads entry b a := by
    refine List.Pairwise.sublist hd.headers (List.pairwise_iff_getElem.2 fun i j hi hj hij hg => ?_)
    have hti : t.order[i]? = some t.order[i] := List.getElem?_eq_getElem hi
    have htj : t.order[j]? = some t.order[j] := List.getElem?_eq_getElem hj
    have hne : t.order[j] ≠ t.order[i] := by
      intro heq
      rw [heq] at htj
      exact Nat.ne_of_lt hij (getElem?_inj ht.listing.nodup hti htj)
    obtain ⟨k, hk, htk⟩ := ht.strict_earlier hne hg hti
    have := getElem?_inj ht.listing.nodup htk htj
    omega
  have hn' : (found.map (·.header))[n]? = some l.header := by
    rw [List.getElem?_map, hn, Option.map_some]
  have hk' : (found.map (·.header))[k]? = some m.header := by
    rw [List.getElem?_map, hk, Option.map_some]
  obtain ⟨hnlt, hnval⟩ := List.getElem?_eq_some_iff.1 hn'
  obtain ⟨hklt, hkval⟩ := List.getElem?_eq_some_iff.1 hk'
  refine Nat.lt_of_not_le fun hle => ?_
  have := List.pairwise_iff_getElem.1 hpair n k hnlt hklt (Nat.lt_of_le_of_ne hle (Ne.symm hne))
  rw [hnval, hkval] at this
  exact this hg

theorem Discovered.laminar {found : List Loop} (hd : Discovered f entry t found)
    (ht : t.Faithful f entry) (he : f.entry = .ok entry) : Laminar found := by
  refine ⟨fun l hl => (hd.body_iff he hl).2 (.inl rfl), fun {n k l m} hn hk hne hin => ?_,
    fun {l m b} hl hm hbl hbm => ?_⟩
  · have hl := List.mem_of_getElem? hn
    have hm := List.mem_of_getElem? hk
    have hin := (hd.body_iff he hm).1 hin
    have hlt := hd.earlier ht hn hk hne (hin.guards (hd.connects hm))
    refine ⟨hlt, fun hback => ?_, fun b hb => ?_⟩
    · have hlt' := hd.earlier ht hk hn (Ne.symm hne)
        (((hd.body_iff he hl).1 hback).guards (hd.connects hl))
      exact absurd hlt (Nat.lt_asymm hlt')
    · exact (hd.body_iff he hm).2 (hin.trans (hd.connects hm) ((hd.body_iff he hl).1 hb))
  · have hel := (hd.body_iff he hl).1 hbl
    have hem := (hd.body_iff he hm).1 hbm
    have hgl := hel.guards (hd.connects hl)
    have hgm := hem.guards (hd.connects hm)
    rcases hgl.chain hgm with hg | hg
    · exact .inr ((hd.body_iff he hl).2 (hel.header hg hgm))
    · exact .inl ((hd.body_iff he hm).2 (hem.header hg hgl))

/-- The loops are nested, and say so: the parent of a loop is the smallest of the others around its
header, and depths count the loops around a header or a block. -/
structure Nested (ls : Loops) : Prop where
  apart : ∀ l ∈ ls.loops, ∀ m ∈ ls.loops, l = m ∨ l.Inside m ∨ m.Inside l ∨
    ∀ b, ¬ (b ∈ l.body ∧ b ∈ m.body)
  outermost : ∀ l ∈ ls.loops, l.parent? = none → ∀ m ∈ ls.loops, l.header ∈ m.body → m = l
  parent : ∀ {n : Nat} {l : Loop} {p : Nat}, ls.loops[n]? = some l → l.parent? = some p →
    p < n ∧ ∃ m, ls.loops[p]? = some m ∧ l.header ∈ m.body ∧ l.Inside m ∧
      ∀ o ∈ ls.loops, l.header ∈ o.body → o = l ∨ o = m ∨ m.Inside o
  depth : ∀ l ∈ ls.loops, l.depth = count ls.loops l.header
  depth_block : ∀ b, ls.depth b = count ls.loops b
  innermost_none : ∀ b, ls.innermost? b = none ↔ ∀ l ∈ ls.loops, b ∉ l.body
  innermost_some : ∀ {b : BlockId} {l : Loop}, ls.innermost? b = some l →
    l ∈ ls.loops ∧ b ∈ l.body ∧ ∀ m ∈ ls.loops, b ∈ m.body → m = l ∨ l.Inside m

theorem Laminar.apart {loops : List Loop} {l m : Loop} (h : Laminar loops) (hl : l ∈ loops)
    (hm : m ∈ loops) :
    l = m ∨ l.Inside m ∨ m.Inside l ∨ ∀ b, ¬ (b ∈ l.body ∧ b ∈ m.body) := by
  obtain ⟨n, hn⟩ := List.mem_iff_getElem?.1 hl
  obtain ⟨k, hk⟩ := List.mem_iff_getElem?.1 hm
  rcases same_or_ne hk hn with ⟨-, hlm⟩ | hnk
  · exact .inl hlm
  · by_cases hin : l.header ∈ m.body
    · exact .inr (.inl (h.inside hn hk (Ne.symm hnk) hin))
    · by_cases hin' : m.header ∈ l.body
      · exact .inr (.inr (.inl (h.inside hk hn hnk hin')))
      · exact .inr (.inr (.inr fun b hb => (h.shared hl hm hb.1 hb.2).elim hin hin'))

theorem Laminar.nested {found : List Loop} (h : Laminar found)
    (hcore : ∀ l ∈ found, l.core = l) {ls : Loops} (hls : ls.loops = nest found) : ls.Nested := by
  have hlam : Laminar ls.loops := hls ▸ h.of_core (nest_core found)
  have hplaced : ∀ {n : Nat} {l}, ls.loops[n]? = some l → ∃ o, found[n]? = some o ∧
      l = place found n o := by
    intro n l hl
    rw [hls, h.nest_getElem? hcore] at hl
    obtain ⟨o, ho, rfl⟩ := Option.map_eq_some_iff.1 hl
    exact ⟨o, ho, rfl⟩
  have hplace : ∀ {n : Nat} {o}, found[n]? = some o → ls.loops[n]? = some (place found n o) := by
    intro n o ho
    rw [hls, h.nest_getElem? hcore, ho, Option.map_some]
  have hdepth : ∀ l ∈ ls.loops, l.depth = count ls.loops l.header := by
    intro l hl
    obtain ⟨n, hn⟩ := List.mem_iff_getElem?.1 hl
    obtain ⟨o, -, rfl⟩ := hplaced hn
    rw [hls, count_of_core (nest_core found)]
    rfl
  refine
    { apart := fun l hl m hm => hlam.apart hl hm
      outermost := fun l hl hnone m hm hin => ?_
      parent := fun {n l p} hl hp => ?_
      depth := hdepth
      depth_block := fun b => ?_
      innermost_none := fun b => ?_
      innermost_some := fun {b l} hl => ?_ }
  · obtain ⟨n, hn⟩ := List.mem_iff_getElem?.1 hl
    obtain ⟨k, hk⟩ := List.mem_iff_getElem?.1 hm
    obtain ⟨o, ho, rfl⟩ := hplaced hn
    obtain ⟨o', ho', rfl⟩ := hplaced hk
    rcases h.parentOf?_cases ho with ⟨-, hall⟩ | ⟨p, q, hsome, -⟩
    · obtain rfl := (hall ho').1 hin
      cases ho.symm.trans ho'
      rfl
    · exact absurd (hsome.symm.trans hnone) (Option.some_ne_none p)
  · obtain ⟨o, ho, rfl⟩ := hplaced hl
    rcases h.parentOf?_cases ho with ⟨hnone, -⟩ | ⟨p', m, hsome, hlt, hm, hin, hall⟩
    · exact absurd (hp.symm.trans hnone) (Option.some_ne_none p)
    · cases hsome.symm.trans hp
      refine ⟨hlt, place found p m, hplace hm, hin,
        hlam.inside hl (hplace hm) (Nat.ne_of_lt hlt) hin, fun x hx hinx => ?_⟩
      obtain ⟨k, hk⟩ := List.mem_iff_getElem?.1 hx
      obtain ⟨o', ho', rfl⟩ := hplaced hk
      rcases (hall ho').1 hinx with rfl | hinm
      · cases ho.symm.trans ho'
        exact .inl rfl
      · rcases same_or_ne (hplace hm) hk with ⟨-, hxm⟩ | hkp
        · exact .inr (.inl hxm)
        · exact .inr (.inr (hlam.inside (hplace hm) hk hkp hinm))
  · unfold Loops.depth
    rcases hlam.innermost?_cases hdepth b with ⟨hnone, hall⟩ | ⟨l, hsome, -, -, hcount, -⟩
    · rw [hnone]
      exact (List.countP_eq_zero.2 fun l hl hc => hall l hl (Loop.contains_iff.1 hc)).symm
    · rw [hsome]
      exact hcount
  · rcases hlam.innermost?_cases hdepth b with ⟨hnone, hall⟩ | ⟨l, hsome, hl, hb, -⟩
    · exact iff_of_true hnone hall
    · exact iff_of_false (by rw [hsome]; exact Option.some_ne_none l) fun hall => hall l hl hb
  · rcases hlam.innermost?_cases hdepth b with ⟨hnone, -⟩ | ⟨m, hsome, hm, hb, -, hall⟩
    · cases hnone.symm.trans hl
    · cases hsome.symm.trans hl
      exact ⟨hm, hb, hall⟩

/-- The loops that are found form a forest: any two of them lie apart or one in the other, and
parents, depths and innermost loops are those of the forest. -/
theorem loops_nested (he : f.entry = .ok entry) (hc : f.Closed)
    (hk : ∀ b ∈ f.blocks, b.index < f.blockBound) :
    ∃ t ls, DominatorTree.ofFunc f = .ok t ∧ (f.loops t).outcome = .ok ls ∧ ls.Nested := by
  obtain ⟨t, ht, hfaith, hepoch⟩ := DominatorTree.ofFunc_ok he hc hk
  have hcur : t.isCurrent f = true := by
    rw [DominatorTree.isCurrent, hepoch, beq_self_eq_true]
  obtain ⟨found, hls, hd⟩ := discovered_ok hfaith hcur hc he
  obtain ⟨_, hout, rfl⟩ := (loops_yield hls).outcome
  exact ⟨t, _, ht, hout, (hd.laminar hfaith he).nested hd.core rfl⟩

/-- A loop of one block in a loop of three. -/
def ringInRing : Checked Builder :=
  Func.build "rings" ⟨[.int 1], none⟩
    [.block (some "entry"), .block (some "outer"), .block (some "inner"), .block (some "latch"),
    .block (some "exit"),
      .goTo (.append ⟨0⟩), .insert (.jump .br ⟨1⟩) .void,
      .goTo (.append ⟨1⟩), .insert (.jump .br ⟨2⟩) .void,
      .goTo (.append ⟨2⟩), .insert (.branch .brCond ⟨0⟩ ⟨2⟩ ⟨3⟩) .void,
      .goTo (.append ⟨3⟩), .insert (.branch .brCond ⟨0⟩ ⟨1⟩ ⟨4⟩) .void,
      .goTo (.append ⟨4⟩), .insert (.nullary .ret) .void]

theorem ringInRing_nested : ∃ b t ls, ringInRing = .ok b ∧ DominatorTree.ofFunc b.func = .ok t ∧
    (b.func.loops t).outcome = .ok ls ∧ ls.Nested ∧ ls.loops.map
      (·.body.toList) = [[⟨1⟩, ⟨2⟩, ⟨3⟩], [⟨2⟩]] ∧ ls.loops.map (·.parent?) = [none, some 0] ∧
      ls.depth ⟨2⟩ = 2 := by
  obtain ⟨b, entry, t, hb, he, hc, hk, ht, hp⟩ := DominatorTree.built_ok
    (p := fun (f : Func) t => (f.loops t).outcome.toOption.any fun (ls : Loops) => decide (
      ls.loops.map (·.body.toList) = [[⟨1⟩, ⟨2⟩, ⟨3⟩], [⟨2⟩]] ∧
      ls.loops.map (·.parent?) = [none, some 0] ∧
        ls.depth ⟨2⟩ = 2)) (by decide) (show (ringInRing.toOption.any _) = true by decide +kernel)
  obtain ⟨t', ls, ht', hls, hnested⟩ := loops_nested he hc hk
  cases ht.symm.trans ht'
  obtain ⟨ls', hls', hp⟩ := exists_of_any hp
  cases hls.symm.trans hls'
  exact ⟨b, t, ls, hb, ht, hls, hnested, of_decide_eq_true hp⟩

end Loops

end MiddleEnd
