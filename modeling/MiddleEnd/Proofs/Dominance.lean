import MiddleEnd.Proofs.Containers
import MiddleEnd.Proofs.Convergence
import MiddleEnd.Proofs.Placement
import MiddleEnd.Proofs.Traversal

/-!
# The dominator tree is exact

The tree computed for a function with a closed control flow says exactly what the paths from the
entry say: which blocks are reachable, which dominate which, and where the dominance of a block
ends.
-/

namespace MiddleEnd

theorem Dict.mem_of_get? {κ α : Type} [DecidableEq κ] {d : Dict κ α} {k : κ} {a : α}
    (h : d.get? k = some a) :
    (k, a) ∈ d.entries := by
  unfold Dict.get? at h
  generalize d.entries = xs at h ⊢
  induction xs with
  | nil => cases h
  | cons x xs ih =>
    obtain ⟨k', a'⟩ := x
    unfold Dict.find at h
    split at h
    · rename_i hk
      cases h
      exact hk ▸ List.mem_cons_self
    · exact List.mem_cons_of_mem _ (ih h)

theorem Dict.get?_map {κ α : Type} [DecidableEq κ] (xs : List κ) (h : κ → α) (k : κ) :
    (⟨xs.map fun x => (x, h x)⟩ : Dict κ α).get? k = if k ∈ xs then some (h k) else none := by
  unfold Dict.get?
  induction xs with
  | nil => rfl
  | cons x xs ih =>
    simp only [List.map_cons, Dict.find, List.mem_cons]
    by_cases hx : x = k
    · subst hx
      simp
    · have : k ≠ x := fun e => hx e.symm
      simp only [if_neg hx, this, false_or]
      exact ih

namespace Func

theorem successors_ok {f : Func} {b : BlockId} (hb : b ∈ f.blocks) :
    ∃ ss, f.successors b = .ok ss := by
  obtain ⟨xs, hxs⟩ := Layout.mem_blocks_iff.1 hb
  unfold successors terminator? Layout.lastInst?
  rw [hxs]
  simp only [ok_bind]
  cases hl : xs.getLast?.filter f.flow.isTerminator with
  | none => exact ⟨[], rfl⟩
  | some t =>
    have ht := (Option.filter_eq_some_iff.1 hl).2
    unfold DataFlow.isTerminator DataFlow.op? at ht
    unfold DataFlow.inst
    cases hi : f.flow.inst? t with
    | none =>
      rw [hi] at ht
      cases ht
    | some inst =>
      refine ⟨inst.blocks.eraseDups, ?_⟩
      simp only [hi, ofOption_some, ok_bind]

theorem Leads.mem_blocks {f : Func} {a b : BlockId} (h : f.Leads a b) : a ∈ f.blocks := by
  obtain ⟨ss, hs, -⟩ := h
  unfold successors terminator? Layout.lastInst? at hs
  obtain ⟨t, ht, -⟩ := bind_eq_ok.1 hs
  obtain ⟨l, hl, -⟩ := bind_eq_ok.1 ht
  obtain ⟨xs, hxs, -⟩ := bind_eq_ok.1 hl
  exact Layout.mem_blocks_iff.2 ⟨xs, hxs⟩

theorem entry_mem {f : Func} {entry : BlockId} (h : f.entry = .ok entry) : entry ∈ f.blocks := by
  rw [Func.entry, ofOption_eq_ok] at h
  exact List.mem_of_head? h

theorem Closed.connects_mem {f : Func} (h : f.Closed) {entry b : BlockId} (he : f.entry = .ok entry)
    (hb : Connects f.Leads entry b) : b ∈ f.blocks := by
  obtain ⟨p, hp⟩ := hb
  rcases hp.last_step with ⟨rfl, -⟩ | ⟨c, q, -, hc, -⟩
  · exact entry_mem he
  · exact h c hc.mem_blocks b hc

end Func

namespace Edges

/-- A snapshot of the edges of a function with closed control flow. -/
structure Snapshot (f : Func) (e : Edges) : Prop where
  succs : ∀ b ∈ f.blocks, e.succs b = f.successors b
  preds : ∀ b ∈ f.blocks, ∃ ps, e.preds b = .ok ps ∧ ∀ p, p ∈ ps ↔ f.Leads p b
  distinct : ∀ {b ps}, e.preds b = .ok ps → ps.Nodup

theorem ofFunc_ok (f : Func) : ∃ e, ofFunc f = .ok e ∧ Snapshot f e := by
  let next : BlockId → List BlockId := fun b => ((f.successors b).toOption).getD []
  have hnext : ∀ b ∈ f.blocks, f.successors b = .ok (next b) := by
    intro b hb
    obtain ⟨ss, hs⟩ := Func.successors_ok hb
    simp only [next, hs]
    rfl
  have hleads : ∀ {a b}, f.Leads a b ↔ a ∈ f.blocks ∧ b ∈ next a := by
    intro a b
    constructor
    · intro h
      have ha := h.mem_blocks
      obtain ⟨ss, hs, hb⟩ := h
      rw [hnext a ha] at hs
      cases hs
      exact ⟨ha, hb⟩
    · rintro ⟨ha, hb⟩
      exact ⟨next a, hnext a ha, hb⟩
  have hsuccs : f.blocks.mapM (fun b => do return (b, ← f.successors b)) =
      .ok (f.blocks.map fun b => (b, next b)) := by
    refine mapM_of_forall fun b hb => ?_
    rw [hnext b hb]
    rfl
  refine ⟨_, by rw [ofFunc, hsuccs, ok_bind], fun b hb => ?_, fun b hb => ?_, fun {b ps} hps => ?_⟩
  · unfold Edges.succs Dict.get
    rw [Dict.get?_map, if_pos hb, ofOption_some, hnext b hb]
  · unfold Edges.preds Dict.get
    rw [Dict.get?_map, if_pos, ofOption_some]
    · refine ⟨_, rfl, fun p => ?_⟩
      rw [sources, KeySet.mem_toList_ofList, hleads]
      simp only [List.mem_map, List.mem_filter, decide_eq_true_eq]
      constructor
      · rintro ⟨_, ⟨⟨a, ha, rfl⟩, hb⟩, rfl⟩
        exact ⟨ha, hb⟩
      · rintro ⟨ha, hb⟩
        exact ⟨_, ⟨⟨p, ha, rfl⟩, hb⟩, rfl⟩
    · rw [List.mem_eraseDups]
      exact List.mem_append_left _ hb
  · unfold Edges.preds Dict.get at hps
    rw [Dict.get?_map, ofOption_eq_ok] at hps
    split at hps
    · cases hps
      exact KeySet.nodup _
    · cases hps

theorem mem_of_succs {f : Func} {e : Edges} {b : BlockId} {ss : List BlockId} (h : ofFunc f = .ok e)
    (hb : e.succs b = .ok ss) : b ∈ f.blocks := by
  obtain ⟨succs, hsuccs, h⟩ := bind_eq_ok.1 h
  cases h
  obtain ⟨n, hn⟩ := List.mem_iff_getElem?.1 (Dict.mem_of_get? (ofOption_eq_ok.1 hb))
  obtain ⟨c, hc, hpair⟩ := mapM_ok_getElem? hsuccs hn
  obtain ⟨ss', -, hpair⟩ := bind_eq_ok.1 hpair
  cases hpair
  exact List.mem_of_getElem? hc

end Edges

namespace DominatorTree

/-- Control may go from the block at one position straight to the block at the other. -/
def Link (f : Func) (order : List BlockId) (p k : Nat) : Prop :=
  ∃ a b, order[p]? = some a ∧ order[k]? = some b ∧ f.Leads a b

section Transport

variable {f : Func} {order : List BlockId} {i k : Nat} {a b : BlockId}

theorem walk_of_link {w : List Nat} (h : Walk (Link f order) i k w) (ha : order[i]? = some a)
    (hb : order[k]? = some b) :
    ∃ p, Walk f.Leads a b p ∧ ∀ x ∈ p, ∃ m ∈ w, order[m]? = some x := by
  induction h generalizing a with
  | single =>
    rw [ha] at hb
    cases hb
    exact ⟨[b], .single b,
      fun x hx => ⟨_, List.mem_cons_self, by rw [List.mem_singleton.1 hx]; exact ha⟩⟩
  | cons e _ ih =>
    obtain ⟨a', c, ha', hc, hl⟩ := e
    rw [ha] at ha'
    cases ha'
    obtain ⟨p, hp, hs⟩ := ih hc hb
    refine ⟨a :: p, .cons hl hp, fun x hx => ?_⟩
    rcases List.mem_cons.1 hx with rfl | hx
    · exact ⟨_, List.mem_cons_self, ha⟩
    · obtain ⟨m, hm, hx⟩ := hs x hx
      exact ⟨m, List.mem_cons_of_mem _ hm, hx⟩

theorem link_of_walk {p : List BlockId} (h : Walk f.Leads a b p) (hn : order.Nodup)
    (hclosed : ∀ {x y}, x ∈ order → f.Leads x y → y ∈ order) (ha : order[i]? = some a)
    (hb : order[k]? = some b) :
    ∃ w, Walk (Link f order) i k w ∧ ∀ m ∈ w, ∃ x ∈ p, order[m]? = some x := by
  induction h generalizing i with
  | single =>
    rw [getElem?_inj hn ha hb]
    exact ⟨[k], .single k,
      fun m hm => ⟨_, List.mem_cons_self, by rw [List.mem_singleton.1 hm]; exact hb⟩⟩
  | @cons a' c' b' p e _ ih =>
    obtain ⟨j, hj⟩ := List.mem_iff_getElem?.1 (hclosed (List.mem_of_getElem? ha) e)
    obtain ⟨w, hw, hs⟩ := ih hj hb
    refine ⟨i :: w, .cons ⟨a', c', ha, hj, e⟩ hw, fun m hm => ?_⟩
    rcases List.mem_cons.1 hm with rfl | hm
    · exact ⟨a', List.mem_cons_self, ha⟩
    · obtain ⟨x, hx, hmx⟩ := hs m hm
      exact ⟨x, List.mem_cons_of_mem _ hx, hmx⟩

/-- The order lists exactly what is reached from the entry, the entry first. -/
structure Listing (f : Func) (entry : BlockId) (order : List BlockId) : Prop where
  nodup : order.Nodup
  head : order[0]? = some entry
  mem : ∀ b, b ∈ order ↔ Connects f.Leads entry b

theorem Listing.closed {entry : BlockId} (h : Listing f entry order) {x y : BlockId}
    (hx : x ∈ order) (e : f.Leads x y) : y ∈ order :=
  (h.mem y).2 (((h.mem x).1 hx).step e)

theorem Listing.guards_iff {entry : BlockId} (h : Listing f entry order) (ha : order[i]? = some a)
    (hb : order[k]? = some b) : Guards (Link f order) 0 i k ↔ Guards f.Leads entry a b := by
  constructor
  · rintro ⟨-, hall⟩
    refine ⟨(h.mem b).1 (List.mem_of_getElem? hb), fun p hp => ?_⟩
    obtain ⟨w, hw, hs⟩ := link_of_walk hp h.nodup h.closed h.head hb
    obtain ⟨x, hx, hix⟩ := hs i (hall w hw)
    rw [ha] at hix
    cases hix
    exact hx
  · rintro ⟨⟨p, hp⟩, hall⟩
    obtain ⟨w, hw, -⟩ := link_of_walk hp h.nodup h.closed h.head hb
    refine ⟨⟨w, hw⟩, fun v hv => ?_⟩
    obtain ⟨q, hq, hs⟩ := walk_of_link hv h.head hb
    obtain ⟨m, hm, hma⟩ := hs a (hall q hq)
    rw [getElem?_inj h.nodup ha hma]
    exact hm

end Transport

/-- The search along the snapshot is a search along the edges of the function. -/
theorem reversePostOrder_ok {f : Func} {entry : BlockId} {e : Edges}
    (hc : ∀ {b}, Connects f.Leads entry b → b ∈ f.blocks) (hs : Edges.Snapshot f e) :
    ∃ order, Search.reversePostOrder e.succs (f.blocks.length + 1) [entry] = .ok order ∧
      Listing f entry order ∧
      ∀ {k}, 0 < k → k < order.length → ∃ p, Link f order p k ∧ p < k := by
  have hedge : ∀ {x y}, Connects f.Leads entry x → (Search.Edge e.succs x y ↔ f.Leads x y) := by
    intro x y hx
    unfold Search.Edge Func.Leads
    rw [hs.succs x (hc hx)]
  have hreach : ∀ {x}, Connects (Search.Edge e.succs) entry x ↔ Connects f.Leads entry x := by
    have hto : ∀ {a x p}, Walk (Search.Edge e.succs) a x p → Connects f.Leads entry a →
        Connects f.Leads entry x := by
      intro a x p hw
      induction hw with
      | single => exact id
      | cons h _ ih => exact fun ha => ih (ha.step ((hedge ha).1 h))
    have hfrom : ∀ {a x p}, Walk f.Leads a x p → Connects f.Leads entry a →
        Connects (Search.Edge e.succs) entry a → Connects (Search.Edge e.succs) entry x := by
      intro a x p hw
      induction hw with
      | single => exact fun _ h => h
      | cons h _ ih => exact fun ha h' => ih (ha.step h) (h'.step ((hedge ha).2 h))
    intro x
    constructor
    · rintro ⟨p, hp⟩
      exact hto hp (Connects.refl _ _)
    · rintro ⟨p, hp⟩
      exact hfrom hp (Connects.refl _ _) (Connects.refl _ _)
  classical
  let reached := f.blocks.filter fun b => Connects f.Leads entry b
  have hwithin : Search.Within e.succs reached := by
    intro x hx
    obtain ⟨hxb, hxr⟩ := List.mem_filter.1 hx
    have hxr := of_decide_eq_true hxr
    obtain ⟨ss, hss⟩ := Func.successors_ok hxb
    refine ⟨ss, by rw [hs.succs x hxb, hss], fun y hy => ?_⟩
    have hyr := hxr.step ⟨ss, hss, hy⟩
    exact List.mem_filter.2 ⟨hc hyr, decide_eq_true hyr⟩
  have hroot : entry ∈ reached :=
    List.mem_filter.2 ⟨hc (Connects.refl _ _), decide_eq_true (Connects.refl _ _)⟩
  obtain ⟨s, hrun, hsane, hfin, hmem⟩ := Search.visits_ok [entry] hwithin
    (Nat.le_succ_of_le (List.length_filter_le _ _)) (fun r hr => List.mem_singleton.1 hr ▸ hroot)
  have hmem' : ∀ b, b ∈ s.finished ↔ Connects f.Leads entry b := by
    intro b
    rw [hmem, ← hreach]
    simp
  have hled : ∀ pre x post, s.finished = pre ++ x :: post →
      x = entry ∨ ∃ p ∈ pre, f.Leads p x := by
    intro pre x post hsplit
    rcases hsane.led pre x post hsplit with hx | ⟨p, hp, e⟩ | ⟨p, hp, hn, -⟩
    · exact .inl (List.mem_singleton.1 hx)
    · refine .inr ⟨p, hp, (hedge ((hmem' p).1 ?_)).1 e⟩
      rw [hsplit]
      exact List.mem_append_left _ hp
    · exact absurd (hfin p hp) hn
  have hhead : s.finished[0]? = some entry := by
    have hin : entry ∈ s.finished := (hmem' entry).2 (Connects.refl _ _)
    cases hf : s.finished with
    | nil =>
      rw [hf] at hin
      cases hin
    | cons x post =>
      rcases hled [] x post hf with rfl | ⟨p, hp, -⟩
      · rfl
      · cases hp
  refine ⟨s.finished, ?_, ⟨hsane.finished_nodup, hhead, hmem'⟩, ?_⟩
  · unfold Search.reversePostOrder
    rw [hrun, ok_bind]
  · intro k hk hlt
    have hsplit := List.take_append_drop k s.finished
    rw [List.drop_eq_getElem_cons hlt] at hsplit
    have hget : s.finished[k]? = some s.finished[k] := List.getElem?_eq_getElem hlt
    rcases hled _ _ _ hsplit.symm with hx | ⟨p, hp, e⟩
    · rw [hx] at hget
      have := getElem?_inj hsane.finished_nodup hget hhead
      omega
    · obtain ⟨m, hm⟩ := List.mem_iff_getElem?.1 hp
      obtain ⟨hml, -⟩ := List.getElem?_eq_some_iff.1 hm
      rw [List.getElem?_take] at hm
      split at hm
      · exact ⟨m, ⟨p, _, hm, hget, e⟩, by assumption⟩
      · cases hm

/-- The ranking of a function: its blocks, their predecessors and exact parents. -/
structure Ranking.Faithful (f : Func) (entry : BlockId) (r : Ranking) : Prop where
  listing : Listing f entry r.order
  preds : ∃ ps : BlockId → List BlockId, r.preds = r.order.map ps ∧
    ∀ b ∈ r.order, ∀ p, p ∈ ps b ↔ f.Leads p b ∧ p ∈ r.order
  size : r.parents.size = r.order.length
  falls : Falls r.parents
  up : ∀ {i k a b}, r.order[i]? = some a → r.order[k]? = some b →
    (Up r.parents i k ↔ Guards f.Leads entry a b)

theorem rank_ok {f : Func} {entry : BlockId} {e : Edges}
    (hc : ∀ {b}, Connects f.Leads entry b → b ∈ f.blocks) (hs : Edges.Snapshot f e) :
    ∃ r, rank e entry (f.blocks.length + 1) = .ok r ∧ r.Faithful f entry := by
  obtain ⟨order, horder, hl, hearlier⟩ := reversePostOrder_ok hc hs
  let ps : BlockId → List BlockId := fun b => (((e.preds b).toOption).getD []).filter (· ∈ order)
  have hps : ∀ b ∈ order, (do return (← e.preds b).filter (· ∈ order) : Checked (List BlockId)) =
      .ok (ps b) ∧
      ∀ p, p ∈ ps b ↔ f.Leads p b ∧ p ∈ order := by
    intro b hb
    obtain ⟨qs, hqs, hmem⟩ := hs.preds b (hc ((hl.mem b).1 hb))
    have hpsb : ps b = qs.filter (· ∈ order) := by
      simp only [ps, hqs]
      rfl
    refine ⟨by rw [hqs, hpsb]; rfl, fun p => ?_⟩
    rw [hpsb, List.mem_filter, hmem]
    simp
  have hpreds : order.mapM (fun b => do return (← e.preds b).filter (· ∈ order)) =
      .ok (order.map ps) :=
    mapM_of_forall fun b hb => (hps b hb).1
  let at' : Nat → List Nat := fun k =>
    ((order[k]?.map ps).getD []).filterMap fun p => order.idxOf? p
  have hpos : 0 < order.length := (List.getElem?_eq_some_iff.1 hl.head).1
  have hranked : Ranked (Link f order) order.length at' :=
    { pos := hpos
      bounded := by
        rintro p k ⟨a, b, ha, hb, -⟩
        exact ⟨(List.getElem?_eq_some_iff.1 ha).1, (List.getElem?_eq_some_iff.1 hb).1⟩
      preds_iff := by
        intro p k _ hk
        have hget : order[k]? = some order[k] := List.getElem?_eq_getElem hk
        have hbk := List.mem_of_getElem? hget
        simp only [at', hget, Option.map_some, Option.getD_some, List.mem_filterMap]
        constructor
        · rintro ⟨a, ha, hidx⟩
          exact ⟨a, _, (idxOf?_eq_some hl.nodup).1 hidx, hget, (((hps _ hbk).2 a).1 ha).1⟩
        · rintro ⟨a, b, ha, hb, hlead⟩
          rw [hget] at hb
          cases hb
          exact ⟨a, ((hps _ hbk).2 a).2 ⟨hlead, List.mem_of_getElem? ha⟩,
            (idxOf?_eq_some hl.nodup).2 ha⟩
      earlier := hearlier }
  have hlen : (joins order (order.map ps)).length + 1 = order.length := by
    simp only [joins, List.length_map, List.length_tail, List.length_zipIdx, List.length_zip]
    omega
  have hjoins : ∀ m j, (joins order (order.map ps))[m]? = some j →
      j.position = m + 1 ∧ j.preds = at' (m + 1) := by
    intro m j hj
    simp only [joins, List.getElem?_map, List.getElem?_tail, List.getElem?_zipIdx,
      List.getElem?_zip_eq_some, Option.map_eq_some_iff] at hj
    obtain ⟨⟨⟨b, qs⟩, n⟩, ⟨⟨b', qs'⟩, ⟨hb, c, hc', hqs⟩, hpair⟩, rfl⟩ := hj
    simp only [Prod.mk.injEq] at hpair
    obtain ⟨⟨rfl, rfl⟩, rfl⟩ := hpair
    simp only at hb hqs
    rw [hb] at hc'
    cases hc'
    subst hqs
    refine ⟨by simp, ?_⟩
    simp only [at', hb, Option.map_some, Option.getD_some]
  obtain ⟨P, m, hP, hm, hprog⟩ := Progress.converge_ok hranked hlen hjoins
    ((order.length + 1) * (order.length + 1)) 1 _ (Nat.le_refl 1) (Progress.start hpos)
  have hbig : order.length + 1 ≤ (order.length + 1) * (order.length + 1) := Nat.le_mul_self _
  refine ⟨{ order, preds := order.map ps, parents := P }, ?_, hl,
    ⟨ps, rfl, fun b hb => (hps b hb).2⟩, hprog.size, hprog.falls, ?_⟩
  · unfold rank
    rw [horder, ok_bind, hpreds, ok_bind]
    simp only [hP, ok_bind, pure_eq_ok]
  · intro i k a b ha hb
    have hk := (List.getElem?_eq_some_iff.1 hb).1
    rw [hprog.up_iff_guards hranked (by omega) (by omega) hk, hl.guards_iff ha hb]

def depthOf (P : Parents) (k : Nat) : Nat := ((levels P)[k]?).getD 0

theorem levels_spec {P : Parents} (hP : Falls P) :
    (levels P).size = P.size ∧
      ∀ k, k < P.size → depthOf P k = if k = 0 then 0 else depthOf P (parentOf P k) + 1 := by
  let grow : Array Nat → Nat → Array Nat := fun ls n =>
    ls.push (if n = 0 then 0 else (ls[parentOf P n]?).getD 0 + 1)
  have main : ∀ n, ((List.range n).foldl grow #[]).size = n ∧
      ∀ k, k < n → (((List.range n).foldl grow #[])[k]?).getD 0 =
        if k = 0 then 0 else (((List.range n).foldl grow #[])[parentOf P k]?).getD 0 + 1 := by
    intro n
    induction n with
    | zero => exact ⟨rfl, fun k hk => absurd hk (Nat.not_lt_zero k)⟩
    | succ n ih =>
      obtain ⟨hsize, hval⟩ := ih
      rw [List.range_succ, List.foldl_append, List.foldl_cons, List.foldl_nil]
      generalize (List.range n).foldl grow #[] = ls at hsize hval
      have hpush : ∀ j, (grow ls n)[j]? = if j =
          n then some (if n = 0 then 0 else (ls[parentOf P n]?).getD 0 + 1)
          else ls[j]? := by
        intro j
        simp only [grow, Array.getElem?_push, hsize]
      refine ⟨by simp only [grow, Array.size_push, hsize], fun k hk => ?_⟩
      have hpar : k ≠ 0 → (grow ls n)[parentOf P k]? = ls[parentOf P k]? := by
        intro hk0
        have := hP k (Nat.pos_of_ne_zero hk0)
        rw [hpush, if_neg (by omega)]
      by_cases hkn : k = n
      · subst hkn
        rw [hpush, if_pos rfl, Option.getD_some]
        by_cases hk0 : k = 0
        · rw [if_pos hk0, if_pos hk0]
        · rw [if_neg hk0, if_neg hk0, hpar hk0]
      · rw [hpush, if_neg hkn, hval k (by omega)]
        by_cases hk0 : k = 0
        · rw [if_pos hk0, if_pos hk0]
        · rw [if_neg hk0, if_neg hk0, hpar hk0]
  exact main P.size

theorem Up.depth_le {P : Parents} (hP : Falls P) {j k : Nat} (h : Up P j k) (hk : k < P.size) :
    depthOf P j ≤ depthOf P k := by
  induction h with
  | refl => exact Nat.le_refl _
  | @climb k h0 _ ih =>
    have hlt := hP k h0
    have := (levels_spec hP).2 k hk
    rw [if_neg (by omega)] at this
    have := ih (by omega)
    omega

namespace Ranking

variable {f : Func} {entry : BlockId} {r : Ranking}

theorem Faithful.position?_eq (h : r.Faithful f entry) {b : BlockId} {k : Nat} :
    r.position? b = some k ↔ r.order[k]? = some b :=
  idxOf?_eq_some h.listing.nodup

theorem Faithful.idom?_eq (h : r.Faithful f entry) {b : BlockId} {k : Nat}
    (hk : r.order[k]? = some b) :
    r.idom? b = if k = 0 then none else r.order[parentOf r.parents k]? := by
  unfold idom?
  rw [h.position?_eq.2 hk]
  cases k <;> rfl

theorem Faithful.idom?_none (h : r.Faithful f entry) {b : BlockId} (hb : b ∉ r.order) :
    r.idom? b = none := by
  unfold idom?
  cases hp : r.position? b with
  | none => rfl
  | some k => exact absurd (List.mem_of_getElem? (h.position?_eq.1 hp)) hb

theorem Faithful.parent_block (h : r.Faithful f entry) {k : Nat} (hk : k < r.order.length)
    (h0 : 0 < k) :
    ∃ d, r.order[parentOf r.parents k]? = some d := by
  have := h.falls k h0
  exact ⟨_, List.getElem?_eq_getElem (by omega)⟩

/-- The immediate dominator of a block is its strict dominator that all its strict dominators
dominate. -/
theorem Faithful.idom?_iff (h : r.Faithful f entry) {b d : BlockId} :
    r.idom? b = some d ↔ d ≠ b ∧ Guards f.Leads entry d b ∧
      ∀ x, x ≠ b → Guards f.Leads entry x b → Guards f.Leads entry x d := by
  have parent : ∀ {k}, r.order[k]? = some b → 0 < k → ∃ d', r.idom? b = some d' ∧ d' ≠ b ∧
      Guards f.Leads entry d' b ∧ ∀ x, x ≠ b → Guards f.Leads entry x b →
      Guards f.Leads entry x d' := by
    intro k hk h0
    have hlt := h.falls k h0
    obtain ⟨d', hd'⟩ := h.parent_block (List.getElem?_eq_some_iff.1 hk).1 h0
    refine ⟨d', by rw [h.idom?_eq hk, if_neg (by omega), hd'], ?_, ?_, ?_⟩
    · rintro rfl
      have := getElem?_inj h.listing.nodup hd' hk
      omega
    · exact (h.up hd' hk).1 (.climb h0 (.refl _))
    · intro x hx hg
      obtain ⟨i, hi⟩ := List.mem_iff_getElem?.1 ((h.listing.mem x).2 hg.connects)
      rcases up_iff.1 ((h.up hi hk).2 hg) with rfl | ⟨-, hup⟩
      · rw [hk] at hi
        exact absurd (Option.some.inj hi).symm hx
      · exact (h.up hi hd').1 hup
  constructor
  · intro hd
    by_cases hb : b ∈ r.order
    · obtain ⟨k, hk⟩ := List.mem_iff_getElem?.1 hb
      have h0 : 0 < k := by
        refine Nat.pos_of_ne_zero fun hk0 => ?_
        rw [h.idom?_eq hk, if_pos hk0] at hd
        cases hd
      obtain ⟨d', hd', hrest⟩ := parent hk h0
      rw [hd] at hd'
      cases hd'
      exact hrest
    · rw [h.idom?_none hb] at hd
      cases hd
  · rintro ⟨hne, hg, hall⟩
    obtain ⟨k, hk⟩ := List.mem_iff_getElem?.1 ((h.listing.mem b).2 hg.1)
    have h0 : 0 < k := by
      refine Nat.pos_of_ne_zero fun hk0 => ?_
      subst hk0
      rw [h.listing.head] at hk
      cases hk
      exact hne hg.root_eq
    obtain ⟨d', hd', hne', hg', hall'⟩ := parent hk h0
    rw [hd', (hall d' hne' hg').antisymm (hall' d hne hg)]

/-- The blocks on the way up, as far as a stop that lies on it. -/
theorem Faithful.mem_climb (h : r.Faithful f entry) {b s : BlockId} {j i : Nat}
    (hb : r.order[j]? = some b) (hs : r.order[i]? = some s) :
    ∀ k fuel {p}, k < fuel → r.order[k]? = some p → Up r.parents i k →
      (b ∈ climb r.idom? (some s) fuel p ↔ Up r.parents j k ∧ ¬ Up r.parents j i) := by
  intro k
  induction k using Nat.strongRecOn with
  | ind k ih =>
    intro fuel p hfuel hp hup
    obtain ⟨fuel, rfl⟩ : ∃ m, fuel = m + 1 := ⟨fuel - 1, by omega⟩
    unfold climb
    by_cases hps : p = s
    · subst hps
      have hik := getElem?_inj h.listing.nodup hs hp
      subst hik
      simp
    · have hsome : ¬ some p = some s := fun e => hps (Option.some.inj e)
      rw [if_neg hsome]
      have hik : i ≠ k := by
        rintro rfl
        rw [hs] at hp
        exact hps (Option.some.inj hp).symm
      obtain ⟨h0, hup'⟩ := (up_iff.1 hup).resolve_left hik
      have hlt := h.falls k h0
      obtain ⟨d, hd⟩ := h.parent_block (List.getElem?_eq_some_iff.1 hp).1 h0
      rw [h.idom?_eq hp, if_neg (by omega), hd]
      simp only [List.mem_cons]
      rw [ih _ hlt fuel (by omega) hd hup', up_iff (a := j) (k := k)]
      constructor
      · rintro (rfl | ⟨hj, hn⟩)
        · have hjk := getElem?_inj h.listing.nodup hb hp
          subst hjk
          refine ⟨.inl rfl, fun hji => ?_⟩
          have h₁ := hji.le h.falls
          have h₂ := hup.le h.falls
          omega
        · exact ⟨.inr ⟨h0, hj⟩, hn⟩
      · rintro ⟨rfl | ⟨-, hj⟩, hn⟩
        · rw [hb] at hp
          exact .inl (Option.some.inj hp)
        · exact .inr ⟨hj, hn⟩

theorem Faithful.mem_climb_all (h : r.Faithful f entry) {b : BlockId} {j : Nat}
    (hb : r.order[j]? = some b) :
    ∀ k fuel {p}, k < fuel → r.order[k]? = some p →
      (b ∈ climb r.idom? none fuel p ↔ Up r.parents j k) := by
  intro k
  induction k using Nat.strongRecOn with
  | ind k ih =>
    intro fuel p hfuel hp
    obtain ⟨fuel, rfl⟩ : ∃ m, fuel = m + 1 := ⟨fuel - 1, by omega⟩
    unfold climb
    have hjk : b = p ↔ j = k := by
      constructor
      · rintro rfl
        exact getElem?_inj h.listing.nodup hb hp
      · rintro rfl
        rw [hb] at hp
        exact Option.some.inj hp
    rw [if_neg (by simp), h.idom?_eq hp, up_iff]
    by_cases h0 : k = 0
    · subst h0
      simp [hjk]
    · have hlt := h.falls k (Nat.pos_of_ne_zero h0)
      obtain ⟨d, hd⟩ := h.parent_block (List.getElem?_eq_some_iff.1 hp).1 (Nat.pos_of_ne_zero h0)
      rw [if_neg h0, hd]
      simp only [List.mem_cons]
      rw [ih _ hlt fuel (by omega) hd, hjk]
      simp [Nat.pos_of_ne_zero h0]

end Ranking

theorem Ranking.Faithful.mem_walks_iff {f : Func} {entry : BlockId} {r : Ranking}
    (h : r.Faithful f entry) {b y : BlockId} :
    y ∈ (r.walks.filter (b ∈ ·.2)).map (·.1) ↔
      y ∈ r.order ∧ ∃ p, f.Leads p y ∧ p ∈ r.order ∧ b ∈ climb r.idom?
        (r.idom? y) r.order.length p := by
  obtain ⟨ps, hpreds, hps⟩ := h.preds
  have hwalks : r.walks = r.order.map fun y =>
      (y, (ps y).flatMap (climb r.idom? (r.idom? y) r.order.length)) := by
    unfold Ranking.walks
    rw [hpreds, List.zip_map_right, List.map_map]
    refine List.ext_getElem? fun n => ?_
    simp only [List.getElem?_map, Function.comp_def]
    cases hn : r.order[n]? with
    | none =>
      rw [List.getElem?_eq_none]
      · rfl
      · rw [List.length_zip]
        have := List.getElem?_eq_none_iff.1 hn
        omega
    | some c =>
      have hz : (r.order.zip r.order)[n]? = some (c, c) := List.getElem?_zip_eq_some.2 ⟨hn, hn⟩
      rw [hz]
      rfl
  rw [hwalks]
  simp only [List.mem_map, List.mem_filter, decide_eq_true_eq]
  constructor
  · rintro ⟨_, ⟨⟨y, hy, rfl⟩, hm⟩, rfl⟩
    obtain ⟨p, hp, hc⟩ := List.mem_flatMap.1 hm
    exact ⟨hy, p, ((hps y hy p).1 hp).1, ((hps y hy p).1 hp).2, hc⟩
  · rintro ⟨hy, p, hl, hp, hc⟩
    exact ⟨_, ⟨⟨y, hy, rfl⟩, List.mem_flatMap.2 ⟨p, (hps y hy p).2 ⟨hl, hp⟩, hc⟩⟩, rfl⟩

/-- On the frontier lie the blocks with a predecessor that the block dominates, unless the block
dominates them strictly. -/
theorem Ranking.Faithful.mem_walks {f : Func} {entry : BlockId} {r : Ranking}
    (h : r.Faithful f entry) {b y : BlockId} (hb : b ∈ r.order) :
    y ∈ (r.walks.filter (b ∈ ·.2)).map (·.1) ↔
      (∃ p, f.Leads p y ∧ Guards f.Leads entry b p) ∧ ¬ (b ≠ y ∧ Guards f.Leads entry b y) := by
  obtain ⟨j, hj⟩ := List.mem_iff_getElem?.1 hb
  have hpos : ∀ {p}, p ∈ r.order → ∃ m, r.order[m]? = some p ∧ m < r.order.length := by
    intro p hp
    obtain ⟨m, hm⟩ := List.mem_iff_getElem?.1 hp
    exact ⟨m, hm, (List.getElem?_eq_some_iff.1 hm).1⟩
  have hfront : ∀ {y}, y ∈ r.order → ((∃ p, f.Leads p y ∧ p ∈ r.order ∧
      b ∈ climb r.idom? (r.idom? y) r.order.length p) ↔
      (∃ p, f.Leads p y ∧ Guards f.Leads entry b p) ∧ ¬ (b ≠ y ∧ Guards f.Leads entry b y)) := by
    intro y hy
    obtain ⟨k, hk⟩ := List.mem_iff_getElem?.1 hy
    cases hd : r.idom? y with
    | none =>
      have hk0 : k = 0 := by
        refine Classical.byContradiction fun hk0 => ?_
        obtain ⟨d, hd'⟩ := h.parent_block (List.getElem?_eq_some_iff.1 hk).1
          (Nat.pos_of_ne_zero hk0)
        rw [h.idom?_eq hk, if_neg hk0, hd'] at hd
        cases hd
      subst hk0
      rw [h.listing.head] at hk
      cases hk
      have hnot : ¬ (b ≠ entry ∧ Guards f.Leads entry b entry) := fun ⟨hne, hg⟩ => hne hg.root_eq
      simp only [hnot, not_false_iff, and_true]
      constructor
      · rintro ⟨p, hl, hp, hc⟩
        obtain ⟨m, hm, hlt⟩ := hpos hp
        exact ⟨p, hl, (h.up hj hm).1 ((h.mem_climb_all hj m _ hlt hm).1 hc)⟩
      · rintro ⟨p, hl, hg⟩
        have hp := (h.listing.mem p).2 hg.1
        obtain ⟨m, hm, hlt⟩ := hpos hp
        exact ⟨p, hl, hp, (h.mem_climb_all hj m _ hlt hm).2 ((h.up hj hm).2 hg)⟩
    | some s =>
      obtain ⟨hne, hgs, hall⟩ := h.idom?_iff.1 hd
      obtain ⟨i, hi⟩ := List.mem_iff_getElem?.1 ((h.listing.mem s).2 hgs.connects)
      -- The immediate dominator of `y` dominates all predecessors of `y`.
      have hsp : ∀ {p m}, f.Leads p y → r.order[m]? = some p → Up r.parents i m := by
        intro p m hl hm
        exact (h.up hi hm).2 (hgs.of_step hne ((h.listing.mem p).1 (List.mem_of_getElem? hm)) hl)
      have hstrict : ¬ Up r.parents j i ↔ ¬ (b ≠ y ∧ Guards f.Leads entry b y) := by
        rw [h.up hj hi]
        refine not_congr ⟨fun hg => ⟨?_, hg.trans hgs⟩, fun ⟨hby, hg⟩ => hall b hby hg⟩
        rintro rfl
        exact hne (hgs.antisymm hg)
      constructor
      · rintro ⟨p, hl, hp, hc⟩
        obtain ⟨m, hm, hlt⟩ := hpos hp
        obtain ⟨hup, hn⟩ := (h.mem_climb hj hi m _ hlt hm (hsp hl hm)).1 hc
        exact ⟨⟨p, hl, (h.up hj hm).1 hup⟩, hstrict.1 hn⟩
      · rintro ⟨⟨p, hl, hg⟩, hn⟩
        have hp := (h.listing.mem p).2 hg.1
        obtain ⟨m, hm, hlt⟩ := hpos hp
        exact ⟨p, hl, hp, (h.mem_climb hj hi m _ hlt hm (hsp hl hm)).2 ⟨(h.up hj hm).2 hg,
          hstrict.2 hn⟩⟩
  rw [h.mem_walks_iff]
  constructor
  · rintro ⟨hy, hright⟩
    exact (hfront hy).1 hright
  · intro hright
    obtain ⟨⟨p, hl, hg⟩, -⟩ := id hright
    have hy : y ∈ r.order := (h.listing.mem y).2 (hg.1.step hl)
    exact ⟨hy, (hfront hy).2 hright⟩

/-- What the tree says about the blocks of a function is what the paths from the entry say. -/
structure Faithful (f : Func) (entry : BlockId) (t : DominatorTree) : Prop where
  listing : Listing f entry t.order
  isReachable_iff : ∀ b, t.isReachable b = true ↔ Connects f.Leads entry b
  dominates_iff : ∀ d b, t.dominates d b = true ↔ Guards f.Leads entry d b
  idom?_iff : ∀ b d, t.idom? b = some d ↔ d ≠ b ∧ Guards f.Leads entry d b ∧
    ∀ x, x ≠ b → Guards f.Leads entry x b → Guards f.Leads entry x d
  idom?_ok : ∀ {b}, Connects f.Leads entry b → b ≠ entry → ∃ d, t.idom? b = some d
  idom?_earlier : ∀ {b d} {k : Nat}, t.idom? b = some d → t.order[k]? = some b → ∃ j, j < k ∧
    t.order[j]? = some d
  children : ∀ {b}, Connects f.Leads entry b →
    ∃ cs, t.children b = .ok cs ∧ cs.Nodup ∧ ∀ c, c ∈ cs ↔ t.idom? c = some b
  frontier : ∀ {b}, Connects f.Leads entry b →
    ∃ ys, t.frontier b = .ok ys ∧ ys.Nodup ∧ ∀ y, y ∈ ys ↔
      (∃ p, f.Leads p y ∧ Guards f.Leads entry b p) ∧ ¬ (b ≠ y ∧ Guards f.Leads entry b y)

theorem Faithful.root_ok {f : Func} {entry : BlockId} {t : DominatorTree} (h : t.Faithful f entry) :
    t.root = .ok entry := by
  rw [root, Checked.nth, h.listing.head, ofOption_some]

theorem Faithful.guards_iff {f : Func} {entry : BlockId} {t : DominatorTree}
    (h : t.Faithful f entry) {b d : BlockId} (hb : Connects f.Leads entry b) :
    Guards f.Leads entry b d ↔ d = b ∨ ∃ c, t.idom? c = some b ∧ Guards f.Leads entry c d := by
  constructor
  · intro hg
    obtain ⟨k, hk⟩ := List.mem_iff_getElem?.1 ((h.listing.mem d).2 hg.1)
    induction k using Nat.strongRecOn generalizing d with
    | ind k ih =>
      by_cases hdb : d = b
      · exact .inl hdb
      · have hde : d ≠ entry := by
          rintro rfl
          exact hdb hg.root_eq.symm
        obtain ⟨e, he⟩ := h.idom?_ok hg.1 hde
        obtain ⟨-, hge, hall⟩ := (h.idom?_iff d e).1 he
        obtain ⟨j, hj, hje⟩ := h.idom?_earlier he hk
        rcases ih j hj (hall b (Ne.symm hdb) hg) hje with rfl | ⟨c, hc, hgc⟩
        · exact .inr ⟨d, he, hg.1.guards_self⟩
        · exact .inr ⟨c, hc, hgc.trans hge⟩
  · rintro (rfl | ⟨c, hc, hg⟩)
    · exact hb.guards_self
    · exact ((h.idom?_iff c b).1 hc).2.1.trans hg

theorem Faithful.children_apart {f : Func} {entry : BlockId} {t : DominatorTree}
    (h : t.Faithful f entry) {b c c' d : BlockId} (hc : t.idom? c = some b)
    (hc' : t.idom? c' = some b) (hd : Guards f.Leads entry c d) (hd' : Guards f.Leads entry c' d) :
    c = c' := by
  have hchain : ∀ {k : Nat} {d}, t.order[k]? = some d → Guards f.Leads entry c d →
      Guards f.Leads entry c' d →
      Guards f.Leads entry c c' ∨ Guards f.Leads entry c' c := by
    intro k
    induction k using Nat.strongRecOn with
    | ind k ih =>
      intro d hk hd hd'
      by_cases hdc : d = c
      · exact .inr (hdc ▸ hd')
      · by_cases hdc' : d = c'
        · exact .inl (hdc' ▸ hd)
        · have hde : d ≠ entry := by
            rintro rfl
            exact hdc hd.root_eq.symm
          obtain ⟨e, he⟩ := h.idom?_ok hd.1 hde
          obtain ⟨-, -, hall⟩ := (h.idom?_iff d e).1 he
          obtain ⟨j, hj, hje⟩ := h.idom?_earlier he hk
          exact ih j hj hje (hall c (Ne.symm hdc) hd) (hall c' (Ne.symm hdc') hd')
  obtain ⟨k, hk⟩ := List.mem_iff_getElem?.1 ((h.listing.mem d).2 hd.1)
  obtain ⟨hbc, hgb, hall⟩ := (h.idom?_iff c b).1 hc
  obtain ⟨hbc', hgb', hall'⟩ := (h.idom?_iff c' b).1 hc'
  refine Classical.byContradiction fun hne => ?_
  rcases hchain hk hd hd' with hg | hg
  · exact hbc (hgb.antisymm (hall' c hne hg))
  · exact hbc' (hgb'.antisymm (hall c' (Ne.symm hne) hg))

theorem Faithful.induct {f : Func} {entry : BlockId} {t : DominatorTree} (h : t.Faithful f entry)
    {P : Nat → BlockId → Prop} (step : ∀ {n b}, Connects f.Leads entry b →
      (∀ c, t.idom? c = some b → P n c) → P (n + 1) b) {n k : Nat} {b : BlockId}
        (hk : t.order[k]? = some b)
    (hn : t.order.length ≤ k + n) : P n b := by
  induction n generalizing k b with
  | zero =>
    have := (List.getElem?_eq_some_iff.1 hk).1
    omega
  | succ n ih =>
    refine step ((h.listing.mem b).1 (List.mem_of_getElem? hk)) fun c hc => ?_
    obtain ⟨m, hm⟩ := List.mem_iff_getElem?.1 ((h.listing.mem c).2 ((h.idom?_iff c b).1 hc).2.1.1)
    obtain ⟨j, hj, hjb⟩ := h.idom?_earlier hc hm
    have : j = k := getElem?_inj h.listing.nodup hjb hk
    exact ih hm (by omega)

section Nodes

variable {f : Func} {entry : BlockId} {r : Ranking} {t : DominatorTree}

/-- The node of every block that has one is read off the ranking. -/
structure ReadOff (r : Ranking) (bound : Nat) (t : DominatorTree) : Prop where
  order : t.order = r.order
  node? : ∀ b : BlockId, t.node? b =
    if b.index < bound then some (r.node (levels r.parents) r.walks b) else none

theorem ReadOff.order?_eq (ht : ReadOff r f.blockBound t)
    (hr : ∀ b ∈ r.order, b.index < f.blockBound) (h : r.Faithful f entry) (b : BlockId) :
    t.order? b = r.position? b := by
  unfold DominatorTree.order?
  rw [ht.node?]
  by_cases hb : b.index < f.blockBound
  · rw [if_pos hb, Option.bind_some, Ranking.node]
    cases r.position? b <;> rfl
  · rw [if_neg hb]
    cases hp : r.position? b with
    | none => rfl
    | some k => exact absurd (hr b (List.mem_of_getElem? (h.position?_eq.1 hp))) hb

theorem ReadOff.idom?_eq (ht : ReadOff r f.blockBound t)
    (hr : ∀ b ∈ r.order, b.index < f.blockBound) (h : r.Faithful f entry) (b : BlockId) :
    t.idom? b = r.idom? b := by
  unfold DominatorTree.idom?
  rw [ht.node?]
  by_cases hb : b.index < f.blockBound
  · rw [if_pos hb, Option.bind_some, Ranking.node]
    cases hp : r.position? b with
    | none =>
      unfold Ranking.idom?
      rw [hp]
    | some k => rfl
  · rw [if_neg hb, h.idom?_none fun hm => hb (hr b hm)]
    rfl

theorem ReadOff.node_of_order (ht : ReadOff r f.blockBound t)
    (hr : ∀ b ∈ r.order, b.index < f.blockBound) (h : r.Faithful f entry) {b : BlockId} {k : Nat}
    (hk : r.order[k]? = some b) :
    t.node? b = some
      { order? := some k
        idom? := r.idom? b
        children := r.order.filter fun c => r.idom? c = some b
        frontier := KeySet.ofList ((r.walks.filter (b ∈ ·.2)).map (·.1))
        level := depthOf r.parents k } := by
  rw [ht.node?, if_pos (hr b (List.mem_of_getElem? hk)), Ranking.node, h.position?_eq.2 hk]
  rfl

/-- Going up as many steps as two levels differ leads to the ancestor on the upper level. -/
theorem ReadOff.ancestor?_iff (ht : ReadOff r f.blockBound t)
    (hr : ∀ b ∈ r.order, b.index < f.blockBound) (h : r.Faithful f entry) {d : BlockId} {j : Nat}
    (hd : r.order[j]? = some d) :
    ∀ k {b}, r.order[k]? = some b →
      (t.ancestor? (depthOf r.parents k - depthOf r.parents j) b = some d ↔ Up r.parents j k) := by
  have hsound : ∀ m k {b}, r.order[k]? = some b → t.ancestor? m b = some d → Up r.parents j k := by
    intro m
    induction m with
    | zero =>
      intro k b hb ha
      cases ha
      rw [getElem?_inj h.listing.nodup hb hd]
      exact .refl j
    | succ m ih =>
      intro k b hb ha
      unfold ancestor? at ha
      rw [ht.idom?_eq hr h, h.idom?_eq hb] at ha
      by_cases h0 : k = 0
      · rw [if_pos h0] at ha
        cases ha
      · rw [if_neg h0] at ha
        obtain ⟨c, hc, ha⟩ := Option.bind_eq_some_iff.1 ha
        exact .climb (Nat.pos_of_ne_zero h0) (ih _ hc ha)
  intro k b hb
  refine ⟨hsound _ k hb, fun hup => ?_⟩
  have hk : k < r.parents.size := by
    rw [h.size]
    exact (List.getElem?_eq_some_iff.1 hb).1
  clear hsound
  induction hup generalizing b with
  | refl =>
    rw [hd] at hb
    rw [Nat.sub_self, ancestor?, hb]
  | @climb k h0 hup ih =>
    have hlt := h.falls k h0
    have hdepth := (levels_spec h.falls).2 k hk
    rw [if_neg (by omega)] at hdepth
    have hle := hup.depth_le h.falls (by omega)
    obtain ⟨c, hc⟩ := h.parent_block (List.getElem?_eq_some_iff.1 hb).1 h0
    have hsucc : depthOf r.parents k - depthOf r.parents j =
        (depthOf r.parents (parentOf r.parents k) - depthOf r.parents j) + 1 := by omega
    rw [hsucc, ancestor?, ht.idom?_eq hr h, h.idom?_eq hb, if_neg (by omega), hc, Option.bind_some]
    exact ih hc (by omega)

theorem ReadOff.faithful (ht : ReadOff r f.blockBound t)
    (hr : ∀ b ∈ r.order, b.index < f.blockBound) (h : r.Faithful f entry) : t.Faithful f entry := by
  have hreach : ∀ b, t.isReachable b = true ↔ b ∈ r.order := by
    intro b
    rw [isReachable, ht.order?_eq hr h, Option.isSome_iff_exists, List.mem_iff_getElem?]
    simp only [h.position?_eq]
  have hlevel : ∀ {b k}, r.order[k]? = some b → t.levelOf b = depthOf r.parents k := by
    intro b k hk
    rw [levelOf, ht.node_of_order hr h hk]
    rfl
  refine
    { listing := ht.order ▸ h.listing
      isReachable_iff := fun b => (hreach b).trans (h.listing.mem b)
      dominates_iff := ?_
      idom?_iff := fun b d => by rw [ht.idom?_eq hr h]; exact h.idom?_iff
      idom?_ok := ?_
      idom?_earlier := ?_
      children := ?_
      frontier := ?_ }
  · intro d b
    unfold dominates
    rw [Bool.and_eq_true, Bool.and_eq_true, hreach, hreach, beq_iff_eq]
    constructor
    · rintro ⟨⟨hd, hb⟩, ha⟩
      obtain ⟨j, hj⟩ := List.mem_iff_getElem?.1 hd
      obtain ⟨k, hk⟩ := List.mem_iff_getElem?.1 hb
      rw [hlevel hj, hlevel hk] at ha
      exact (h.up hj hk).1 ((ht.ancestor?_iff hr h hj k hk).1 ha)
    · intro hg
      have hd := (h.listing.mem d).2 hg.connects
      have hb := (h.listing.mem b).2 hg.1
      obtain ⟨j, hj⟩ := List.mem_iff_getElem?.1 hd
      obtain ⟨k, hk⟩ := List.mem_iff_getElem?.1 hb
      refine ⟨⟨hd, hb⟩, ?_⟩
      rw [hlevel hj, hlevel hk]
      exact (ht.ancestor?_iff hr h hj k hk).2 ((h.up hj hk).2 hg)
  · intro b hb hne
    obtain ⟨k, hk⟩ := List.mem_iff_getElem?.1 ((h.listing.mem b).2 hb)
    have h0 : k ≠ 0 := by
      rintro rfl
      rw [h.listing.head] at hk
      exact hne (Option.some.inj hk).symm
    obtain ⟨d, hd⟩ := h.parent_block (List.getElem?_eq_some_iff.1 hk).1 (by omega)
    exact ⟨d, by rw [ht.idom?_eq hr h, h.idom?_eq hk, if_neg h0, hd]⟩
  · intro b d k hd hk
    rw [ht.order] at hk ⊢
    rw [ht.idom?_eq hr h, h.idom?_eq hk] at hd
    by_cases h0 : k = 0
    · rw [if_pos h0] at hd
      cases hd
    · rw [if_neg h0] at hd
      exact ⟨_, h.falls k (Nat.pos_of_ne_zero h0), hd⟩
  · intro b hb
    obtain ⟨k, hk⟩ := List.mem_iff_getElem?.1 ((h.listing.mem b).2 hb)
    refine ⟨_, by rw [children, node, ht.node_of_order hr h hk, ofOption_some, ok_bind],
      h.listing.nodup.filter _, fun c => ?_⟩
    rw [ht.idom?_eq hr h, List.mem_filter, decide_eq_true_eq]
    refine ⟨fun hc => hc.2, fun hc => ⟨?_, hc⟩⟩
    exact (h.listing.mem c).2 (h.idom?_iff.1 hc).2.1.1
  · intro b hb
    have hbo := (h.listing.mem b).2 hb
    obtain ⟨k, hk⟩ := List.mem_iff_getElem?.1 hbo
    refine ⟨_, by rw [frontier, node, ht.node_of_order hr h hk, ofOption_some, ok_bind],
      KeySet.nodup _,
      fun y => ?_⟩
    rw [KeySet.mem_toList_ofList]
    exact h.mem_walks hbo

end Nodes

theorem readOff_ranking (r : Ranking) (bound epoch : Nat) :
    ReadOff r bound
      { order := r.order
        nodes := (Array.range bound).map fun n => r.node (levels r.parents) r.walks ⟨n⟩
        epoch } := by
  refine ⟨rfl, fun b => ?_⟩
  unfold node?
  simp only [Array.getElem?_map, Array.getElem?_range]
  by_cases hb : b.index < bound
  · rw [if_pos hb, if_pos hb]
    rfl
  · rw [if_neg hb, if_neg hb]
    rfl

theorem readOff_of_reached {f : Func} {entry : BlockId} (he : f.entry = .ok entry)
    (hc : ∀ {b}, Connects f.Leads entry b → b ∈ f.blocks)
    (hk : ∀ b ∈ f.blocks, b.index < f.blockBound) :
    ∃ t r, ofFunc f = .ok t ∧ t.epoch = f.flow.epoch ∧ ReadOff r f.blockBound t ∧
      r.Faithful f entry ∧
      ∀ b ∈ r.order, b.index < f.blockBound := by
  obtain ⟨e, hofFunc, hs⟩ := Edges.ofFunc_ok f
  obtain ⟨r, hrank, h⟩ := rank_ok hc hs
  have hr : ∀ b ∈ r.order, b.index < f.blockBound := fun b hb =>
    hk b (hc ((h.listing.mem b).1 hb))
  refine ⟨_, r, ?_, rfl, readOff_ranking r f.blockBound f.flow.epoch, h, hr⟩
  unfold ofFunc ofEdges
  rw [hofFunc, ok_bind, he, ok_bind, hrank, ok_bind]
  rfl

theorem ofFunc_readOff {f : Func} {entry : BlockId} (he : f.entry = .ok entry) (hc : f.Closed)
    (hk : ∀ b ∈ f.blocks, b.index < f.blockBound) :
    ∃ t r, ofFunc f = .ok t ∧ t.epoch = f.flow.epoch ∧ ReadOff r f.blockBound t ∧
      r.Faithful f entry ∧
      ∀ b ∈ r.order, b.index < f.blockBound :=
  readOff_of_reached he (hc.connects_mem he) hk

theorem reached_of_ofFunc {f : Func} {t : DominatorTree} (h : ofFunc f = .ok t) :
    ∃ entry, f.entry = .ok entry ∧ ∀ {b}, Connects f.Leads entry b → b ∈ f.blocks := by
  obtain ⟨e, hofFunc, hs⟩ := Edges.ofFunc_ok f
  obtain ⟨e', hofFunc', h⟩ := bind_eq_ok.1 h
  cases hofFunc.symm.trans hofFunc'
  obtain ⟨entry, he, h⟩ := bind_eq_ok.1 h
  obtain ⟨r, hr, -⟩ := bind_eq_ok.1 h
  obtain ⟨order, horder, -⟩ := bind_eq_ok.1 hr
  refine ⟨entry, he, ?_⟩
  -- the search asked every block it met, and only blocks that are there know their successors
  rintro b ⟨p, hp⟩
  have hsearched : Connects (Search.Edge e.succs) entry b := by
    refine ⟨p, hp.mono fun {x y} hl => ?_⟩
    obtain ⟨ss, hss, hy⟩ := id hl
    exact ⟨ss, (hs.succs x hl.mem_blocks).trans hss, hy⟩
  obtain ⟨ss, hss⟩ := Search.asked_of_reversePostOrder horder List.mem_cons_self hsearched
  exact Edges.mem_of_succs hofFunc hss

theorem ofFunc_ok {f : Func} {entry : BlockId} (he : f.entry = .ok entry) (hc : f.Closed)
    (hk : ∀ b ∈ f.blocks, b.index < f.blockBound) :
    ∃ t, ofFunc f = .ok t ∧ t.Faithful f entry ∧ t.epoch = f.flow.epoch := by
  obtain ⟨t, r, ht, hepoch, hread, h, hr⟩ := ofFunc_readOff he hc hk
  exact ⟨t, ht, hread.faithful hr h, hepoch⟩

end DominatorTree

theorem Func.dominators_yield {f : Func} {t : DominatorTree} (ht : DominatorTree.ofFunc f = .ok t) :
    f.dominators.Yields (· = t) := by
  unfold Func.dominators
  refine (Run.yields_lift ⟨t, ht, rfl⟩).bind ?_
  rintro _ rfl
  exact (Run.yields_lines _).bind fun _ _ => Run.yields_pure rfl

theorem Func.dominators_succeed {f : Func} {t : DominatorTree} {C : Prop}
    (ht : DominatorTree.ofFunc f = .ok t) :
    f.dominators.Succeeds C (· = t) := by
  unfold Func.dominators
  refine (Run.succeeds_lift (P := (· = t)) ⟨t, ht, rfl⟩).bind ?_
  rintro _ rfl
  exact (Run.succeeds_lines _).bind fun _ _ => Run.succeeds_pure rfl

theorem Func.dominators_ok {f : Func} {entry : BlockId} (he : f.entry = .ok entry) (hc : f.Closed)
    (hk : ∀ b ∈ f.blocks, b.index < f.blockBound) :
    f.dominators.Yields fun t => t.Faithful f entry := by
  obtain ⟨t, ht, hfaith, -⟩ := DominatorTree.ofFunc_ok he hc hk
  exact (Func.dominators_yield ht).mono fun _ h => h ▸ hfaith

end MiddleEnd
