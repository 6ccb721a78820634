import MiddleEnd.Proofs.DominatorSearch
import Mathlib.Data.List.Nodup

/-!
# The orders of the blocks

The search for the tree lists the blocks that control comes to in reverse post-order, and a walk
over the tree with a stack lists them in preorder. A block other than the entry comes after one of
its predecessors in the first order, and after its immediate dominator in both.
-/

namespace MiddleEnd

/-- One element of the list stands somewhere before the other. -/
def Precedes {α : Type} (xs : List α) (a b : α) : Prop :=
  ∃ pre post, xs = pre ++ b :: post ∧ a ∈ pre

namespace Precedes

variable {α : Type} {xs ys : List α} {a b : α} {i j : Nat}

theorem of_getElem? (ha : xs[i]? = some a) (hb : xs[j]? = some b) (hij : i < j) :
    Precedes xs a b := by
  obtain ⟨hlt, rfl⟩ := List.getElem?_eq_some_iff.1 hb
  refine ⟨xs.take j, xs.drop (j + 1), ?_, List.mem_of_getElem? (i := i) ?_⟩
  · rw [← List.drop_eq_getElem_cons hlt, List.take_append_drop]
  · rw [List.getElem?_take_of_lt hij, ha]

theorem of_mem (ha : a ∈ xs) (hb : b ∈ ys) : Precedes (xs ++ ys) a b := by
  obtain ⟨pre, post, rfl⟩ := List.append_of_mem hb
  exact ⟨xs ++ pre, post, by rw [List.append_assoc], List.mem_append_left _ ha⟩

theorem append_left (h : Precedes ys a b) : Precedes (xs ++ ys) a b := by
  obtain ⟨pre, post, rfl, ha⟩ := h
  exact ⟨xs ++ pre, post, by rw [List.append_assoc], List.mem_append_right _ ha⟩

theorem append_right (h : Precedes xs a b) : Precedes (xs ++ ys) a b := by
  obtain ⟨pre, post, rfl, ha⟩ := h
  exact ⟨pre, post ++ ys, by rw [List.append_assoc, List.cons_append], ha⟩

theorem flatMap {β : Type} {f : β → List α} {zs : List β} {z : β} (hz : z ∈ zs)
    (h : Precedes (f z) a b) :
    Precedes (zs.flatMap f) a b := by
  obtain ⟨pre, post, rfl⟩ := List.append_of_mem hz
  rw [List.flatMap_append, List.flatMap_cons]
  exact h.append_right.append_left

end Precedes

namespace DominatorTree

variable {f : Func} {entry : BlockId} {t : DominatorTree} {b : BlockId}

/-- The list holds what the tree holds from a block down, every block once and before what lies
below it, and the walk with a stack finds it. -/
structure Unfolded (f : Func) (entry : BlockId) (t : DominatorTree) (b : BlockId)
    (xs : List BlockId) : Prop where
  nodup : xs.Nodup
  mem : ∀ x, x ∈ xs ↔ Guards f.Leads entry b x
  idom : ∀ {c d}, t.idom? c = some d → c ∈ xs → c ≠ b → Precedes xs d c
  found : ∀ stack done, descend t (b :: stack) done = descend t stack (done ++ xs)

theorem descend_nil (done : List BlockId) : descend t [] done = pure done :=
  Looping.loop_end rfl

theorem descend_cons {cs : List BlockId} (h : t.children b = .ok cs) (stack done : List BlockId) :
    descend t (b :: stack) done = descend t (cs ++ stack) (done ++ [b]) :=
  Looping.loop_next (by dsimp only; rw [h, Looping.lift_ok, pure_bind])

theorem descend_nodes {P : BlockId → List BlockId} {cs : List BlockId}
    (h : ∀ c ∈ cs, ∀ stack done, descend t (c :: stack) done = descend t stack (done ++ P c))
    (stack done : List BlockId) :
    descend t (cs ++ stack) done = descend t stack (done ++ cs.flatMap P) := by
  induction cs generalizing done with
  | nil => rw [List.flatMap_nil, List.nil_append, List.append_nil]
  | cons c cs ih =>
    rw [List.cons_append, h c List.mem_cons_self, ih fun d hd => h d (List.mem_cons_of_mem _ hd),
      List.flatMap_cons, List.append_assoc]

theorem Unfolded.step (h : t.Faithful f entry) (hb : Connects f.Leads entry b)
    {P : BlockId → List BlockId} {cs : List BlockId} (hcs : t.children b = .ok cs) (hn : cs.Nodup)
    (hmem : ∀ c, c ∈ cs ↔ t.idom? c = some b)
    (hP : ∀ c, t.idom? c = some b → Unfolded f entry t c (P c)) :
    Unfolded f entry t b (b :: cs.flatMap P) := by
  have hin : ∀ x, x ∈ cs.flatMap P ↔ ∃ c, t.idom? c = some b ∧ Guards f.Leads entry c x := by
    intro x
    rw [List.mem_flatMap]
    constructor
    · rintro ⟨c, hc, hx⟩
      exact ⟨c, (hmem c).1 hc, ((hP c ((hmem c).1 hc)).mem x).1 hx⟩
    · rintro ⟨c, hc, hx⟩
      exact ⟨c, (hmem c).2 hc, ((hP c hc).mem x).2 hx⟩
  refine ⟨List.nodup_cons.2 ⟨fun hm => ?_,
    List.nodup_flatMap.2 ⟨fun c hc => (hP c ((hmem c).1 hc)).nodup, ?_⟩⟩,
    fun x => ?_, fun {c d} hd hc hne => ?_, fun stack done => ?_⟩
  · obtain ⟨c, hc, hg⟩ := (hin b).1 hm
    obtain ⟨hne, hbc, -⟩ := (h.idom?_iff c b).1 hc
    exact hne (hbc.antisymm hg)
  · refine hn.imp_of_mem fun {c c'} hc hc' hne x hx hx' => hne ?_
    have hc := (hmem c).1 hc
    have hc' := (hmem c').1 hc'
    exact h.children_apart hc hc' (((hP c hc).mem x).1 hx) (((hP c' hc').mem x).1 hx')
  · rw [List.mem_cons, hin, h.guards_iff hb]
  · -- the immediate dominator is the block itself, or lies below the same child
    obtain ⟨e, he, hg⟩ := (hin c).1 ((List.mem_cons.1 hc).resolve_left hne)
    by_cases hce : c = e
    · subst hce
      cases he.symm.trans hd
      exact show Precedes ([b] ++ cs.flatMap P) b c from .of_mem List.mem_cons_self
        ((hin c).2 ⟨c, he, hg⟩)
    · have hprec := (hP e he).idom hd (((hP e he).mem c).2 hg) hce
      exact show Precedes ([b] ++ cs.flatMap P) d c from
        (Precedes.flatMap ((hmem e).2 he) hprec).append_left
  · rw [descend_cons hcs, descend_nodes fun c hc stack done =>
      (hP c ((hmem c).1 hc)).found stack done]
    rw [List.append_assoc, List.singleton_append]

theorem Faithful.unfolded (h : t.Faithful f entry) {n k : Nat} (hk : t.order[k]? = some b)
    (hn : t.order.length ≤ k + n) : Unfolded f entry t b (t.preorderFrom n b) := by
  refine h.induct (P := fun n b => Unfolded f entry t b (t.preorderFrom n b))
    (fun {n b} hb ih => ?_) hk hn
  obtain ⟨cs, hcs, hnodup, hmem⟩ := h.children hb
  have hfrom : t.preorderFrom (n + 1) b = b :: cs.flatMap (t.preorderFrom n) := by
    obtain ⟨nd, hnd, he⟩ := bind_eq_ok.1 hcs
    cases he
    rw [preorderFrom, ofOption_eq_ok.1 hnd]
    rfl
  rw [hfrom]
  exact Unfolded.step h hb hcs hnodup hmem ih

theorem Faithful.preorder_ok (h : t.Faithful f entry) :
    t.preorderSearch = pure t.preorder ∧ Unfolded f entry t entry t.preorder := by
  have hpre : t.preorder = t.preorderFrom t.order.length entry := by
    rw [preorder, List.head?_eq_getElem?, h.listing.head, Option.toList_some,
      List.flatMap_singleton]
  have hunf := h.unfolded h.listing.head (n := t.order.length) (by omega)
  refine ⟨?_, hpre ▸ hunf⟩
  rw [preorderSearch, h.root_ok, Looping.lift_ok, pure_bind, hunf.found, descend_nil, hpre]
  rfl

/-- The search for the tree comes to its end without a fault, and so does the walk over the tree.
Both list the blocks that control comes to, each once: the first one the entry first, every other
block after one of its predecessors and after all its strict dominators, the second one every block
after its immediate dominator. -/
theorem search_ends (he : f.entry = .ok entry) (hc : f.Closed)
    (hk : ∀ b ∈ f.blocks, b.index < f.blockBound) :
    ∃ t, search f = pure t ∧ ofFunc f = .ok t ∧ t.preorderSearch = pure t.preorder ∧
      (t.order.Nodup ∧ t.order.head? = some entry ∧ (∀ b, b ∈ t.order ↔ f.Reachable b) ∧
        (∀ b ∈ t.order, b ≠ entry → ∃ p, f.Leads p b ∧ Precedes t.order p b) ∧
        ∀ d b, f.StrictlyDominates d b → Precedes t.order d b) ∧
      t.preorder.Nodup ∧ (∀ b, b ∈ t.preorder ↔ f.Reachable b) ∧
        ∀ d b, t.idom? b = some d → Precedes t.preorder d b := by
  obtain ⟨t, hsearch, hofFunc, h, hearlier⟩ := search_ok he hc hk
  obtain ⟨hrun, hunf⟩ := h.preorder_ok
  refine ⟨t, hsearch, hofFunc, hrun, ⟨h.listing.nodup, ?_, fun b => ?_, fun b hb hne => ?_,
    fun d b hd => ?_⟩, hunf.nodup, fun b => ?_, fun d b hd => ?_⟩
  · rw [List.head?_eq_getElem?, h.listing.head]
  · rw [h.listing.mem, Func.reachable_iff he]
  · obtain ⟨k, hk⟩ := List.mem_iff_getElem?.1 hb
    have h0 : k ≠ 0 := by
      rintro rfl
      rw [h.listing.head] at hk
      exact hne (Option.some.inj hk).symm
    obtain ⟨p, ⟨a, b', ha, hb', hl⟩, hpk⟩ :=
      hearlier (Nat.pos_of_ne_zero h0) (List.getElem?_eq_some_iff.1 hk).1
    rw [hk] at hb'
    cases hb'
    exact ⟨a, hl, .of_getElem? ha hk hpk⟩
  · obtain ⟨hne, hg⟩ := hd
    have hg := (Func.dominates_iff he).1 hg
    obtain ⟨k, hk⟩ := List.mem_iff_getElem?.1 ((h.listing.mem b).2 hg.1)
    obtain ⟨j, hjk, hj⟩ := h.strict_earlier hne hg hk
    exact .of_getElem? hj hk hjk
  · rw [hunf.mem, Func.reachable_iff he]
    exact ⟨fun hg => hg.1, fun hb => hb.guards_root⟩
  · obtain ⟨hne, hg, -⟩ := (h.idom?_iff b d).1 hd
    refine hunf.idom hd ((hunf.mem b).2 hg.1.guards_root) ?_
    rintro rfl
    exact hne hg.root_eq

theorem tangled_search :
    ∃ b t, tangled = .ok b ∧ search b.func = pure t ∧ t.preorderSearch = pure t.preorder ∧
      Precedes t.order ⟨1⟩ ⟨3⟩ ∧ t.idom? ⟨3⟩ = some ⟨1⟩ ∧ Precedes t.preorder ⟨1⟩ ⟨3⟩ := by
  obtain ⟨b, entry, t, hb, he, hc, hk, ht, hp⟩ := tangled_ok
    (p := fun _ t => t.dominates ⟨1⟩ ⟨3⟩ && t.idom? ⟨3⟩ == some ⟨1⟩) (by decide +kernel)
  rw [Bool.and_eq_true, beq_iff_eq] at hp
  obtain ⟨hdom, hidom⟩ := hp
  obtain ⟨t', ht', hfaith, -⟩ := ofFunc_ok he hc hk
  cases ht.symm.trans ht'
  obtain ⟨t', hsearch, ht', hrun, ⟨-, -, -, -, hbefore⟩, -, -, hpre⟩ := search_ends he hc hk
  cases ht.symm.trans ht'
  have hstrict : b.func.StrictlyDominates ⟨1⟩ ⟨3⟩ :=
    ⟨by decide, (Func.dominates_iff he).2 ((hfaith.dominates_iff _ _).1 hdom)⟩
  exact ⟨b, t, hb, hsearch, hrun, hbefore _ _ hstrict, hidom, hpre _ _ hidom⟩

end DominatorTree

end MiddleEnd
