import Mathlib.Data.List.Perm.Subperm
import MiddleEnd.Proofs.DominatorTree

/-!
# Iterated frontiers

Where paths with different stores to an address meet: on the frontier of the blocks that store to
it, and on the frontier of those frontiers in turn. A list of blocks still to be looked at finds
this set if every block whose frontier counts is put on it once.
-/

namespace MiddleEnd

namespace Func

/-- Control may come to the block, and it stores to the address. -/
def StoresTo (f : Func) (address : ValueId) (b : BlockId) : Prop :=
  f.Reachable b ∧ ∃ xs i inst, f.insts b = .ok xs ∧ i ∈ xs ∧ f.flow.inst? i = some inst ∧
    inst.op = .store ∧ inst.args.head? = some address

/-- The least set of blocks that holds the frontier of every block that stores to the address and of
every block in the set. -/
inductive MergesAt (f : Func) (address : ValueId) : BlockId → Prop where
  | store {b c : BlockId} : f.StoresTo address b → f.OnFrontier b c → MergesAt f address c
  | again {b c : BlockId} : MergesAt f address b → f.OnFrontier b c → MergesAt f address c

variable {f : Func} {address : ValueId} {b c : BlockId}

theorem OnFrontier.reachable (h : f.OnFrontier b c) : f.Reachable c := by
  obtain ⟨⟨a, hl, hd⟩, -⟩ := h
  exact hd.1.step hl

theorem MergesAt.least {S : BlockId → Prop}
    (hstore : ∀ {b c}, f.StoresTo address b → f.OnFrontier b c → S c)
    (hagain : ∀ {b c}, S b → f.OnFrontier b c → S c) (h : f.MergesAt address c) : S c := by
  induction h with
  | store hb hc => exact hstore hb hc
  | again _ hc ih => exact hagain ih hc

end Func

namespace Promotion

open Func

/-- What is known while the frontiers are followed: the blocks that store to the address and the
merge points found so far were on the stack, and the frontiers of those that left it are merge
points that were found. -/
structure Following (f : Func) (address : ValueId) (stack visited merging : List BlockId) :
    Prop where
  reachable : ∀ b ∈ visited, f.Reachable b
  stacked : ∀ b ∈ stack, b ∈ visited
  stores : ∀ b, f.StoresTo address b → b ∈ visited
  kept : ∀ b ∈ merging, b ∈ visited
  source : ∀ b ∈ visited, f.StoresTo address b ∨ b ∈ merging
  found : ∀ c ∈ merging, f.MergesAt address c
  done : ∀ b ∈ visited, b ∉ stack → ∀ c, f.OnFrontier b c → c ∈ merging

variable {f : Func} {address : ValueId} {b : BlockId} {stack visited merging ys : List BlockId}

theorem Following.start {stores : List BlockId} (h : ∀ b, b ∈ stores ↔ f.StoresTo address b) :
    Following f address stores.reverse stores [] where
  reachable b hb := ((h b).1 hb).1
  stacked _ hb := List.mem_reverse.1 hb
  stores b hb := (h b).2 hb
  kept _ hb := absurd hb List.not_mem_nil
  source b hb := .inl ((h b).1 hb)
  found _ hc := absurd hc List.not_mem_nil
  done _ hb hn := absurd (List.mem_reverse.2 hb) hn

theorem Following.finish (h : Following f address [] visited merging) {c : BlockId} :
    c ∈ merging ↔ f.MergesAt address c := by
  refine ⟨h.found c, fun hc => hc.least (S := (· ∈ merging)) (fun hb hc => ?_) fun hb hc => ?_⟩
  · exact h.done _ (h.stores _ hb) List.not_mem_nil _ hc
  · exact h.done _ (h.kept _ hb) List.not_mem_nil _ hc

theorem Following.frontier_mergesAt
    (h : Following f address (b :: stack) visited merging) {c : BlockId} (hc : f.OnFrontier b c) :
    f.MergesAt address c := by
  rcases h.source b (h.stacked b List.mem_cons_self) with hb | hb
  · exact .store hb hc
  · exact .again (h.found b hb) hc

/-- One block leaves the stack, and the new blocks of its frontier come onto it. -/
theorem Following.advance (h : Following f address (b :: stack) visited merging)
    (hys : ∀ y, y ∈ ys ↔ f.OnFrontier b y) :
    Following f address (((ys.filter (· ∉ merging)).filter (· ∉ visited)).reverse ++ stack)
      ((ys.filter (· ∉ merging)).filter (· ∉ visited) ++ visited)
        (ys.filter (· ∉ merging) ++ merging) := by
  have hfresh : ∀ {y}, y ∈ ys.filter (· ∉ merging) ↔ f.OnFrontier b y ∧ y ∉ merging := by
    intro y
    rw [List.mem_filter, hys, decide_eq_true_eq]
  have hnew : ∀ {y}, y ∈ (ys.filter (· ∉ merging)).filter (· ∉ visited) ↔
      (f.OnFrontier b y ∧ y ∉ merging) ∧ y ∉ visited := by
    intro y
    rw [List.mem_filter, hfresh, decide_eq_true_eq]
  have hall : ∀ {y}, f.OnFrontier b y → y ∈ ys.filter (· ∉ merging) ++ merging := by
    intro y hy
    by_cases hm : y ∈ merging
    · exact List.mem_append_right _ hm
    · exact List.mem_append_left _ (hfresh.2 ⟨hy, hm⟩)
  refine ⟨fun x hx => ?_, fun x hx => ?_, fun x hx => List.mem_append_right _ (h.stores x hx),
    fun x hx => ?_,
    fun x hx => ?_, fun c hc => ?_, fun x hx hn c hc => ?_⟩
  · rcases List.mem_append.1 hx with hx | hx
    · exact (hnew.1 hx).1.1.reachable
    · exact h.reachable x hx
  · rcases List.mem_append.1 hx with hx | hx
    · exact List.mem_append_left _ (List.mem_reverse.1 hx)
    · exact List.mem_append_right _ (h.stacked x (List.mem_cons_of_mem _ hx))
  · rcases List.mem_append.1 hx with hx | hx
    · by_cases hv : x ∈ visited
      · exact List.mem_append_right _ hv
      · exact List.mem_append_left _ (hnew.2 ⟨hfresh.1 hx, hv⟩)
    · exact List.mem_append_right _ (h.kept x hx)
  · rcases List.mem_append.1 hx with hx | hx
    · exact .inr (List.mem_append_left _ (hfresh.2 (hnew.1 hx).1))
    · exact (h.source x hx).imp_right (List.mem_append_right _)
  · rcases List.mem_append.1 hc with hc | hc
    · exact h.frontier_mergesAt (hfresh.1 hc).1
    · exact h.found c hc
  · -- a block that is off the stack is the one that just left it, or left it before
    rw [List.mem_append, not_or, List.mem_reverse] at hn
    rcases List.mem_append.1 hx with hx | hx
    · exact absurd hx hn.1
    · by_cases hxb : x = b
      · rw [hxb] at hc
        exact hall hc
      · have hoff : x ∉ b :: stack := by
          rw [List.mem_cons, not_or]
          exact ⟨hxb, hn.2⟩
        exact List.mem_append_right _ (h.done x hx hoff c hc)

theorem unvisited_length {order xs : List BlockId} (hn : order.Nodup) (hxs : xs.Nodup)
    (hsub : ∀ x ∈ xs, x ∈ order ∧ x ∉ visited) :
    xs.length + (order.filter (· ∉ xs ++ visited)).length ≤
      (order.filter (· ∉ visited)).length := by
  have hrest : (order.filter (· ∉ xs ++ visited)).Nodup := hn.filter _
  have hboth : (xs ++ order.filter (· ∉ xs ++ visited)).Nodup := by
    refine List.nodup_append.2 ⟨hxs, hrest, ?_⟩
    rintro x hx _ hy rfl
    have hout := of_decide_eq_true (List.mem_filter.1 hy).2
    exact hout (List.mem_append_left _ hx)
  rw [← List.length_append]
  refine (List.subperm_of_subset hboth fun x hx => ?_).length_le
  rcases List.mem_append.1 hx with hx | hx
  · obtain ⟨ho, hv⟩ := hsub x hx
    exact List.mem_filter.2 ⟨ho, decide_eq_true hv⟩
  · obtain ⟨ho, hout⟩ := List.mem_filter.1 hx
    refine List.mem_filter.2 ⟨ho, decide_eq_true fun hv => ?_⟩
    exact of_decide_eq_true hout (List.mem_append_right _ hv)

end Promotion

end MiddleEnd
