import MiddleEnd.Transform.ParallelCopy
import Mathlib.Data.List.Basic
import Mathlib.Data.List.Cycle
import Mathlib.Data.List.Iterate
import Mathlib.Data.List.Nodup
import Mathlib.Dynamics.PeriodicPts.Lemmas

/-!
# Parallel copies in sequence

What ordering does to the copies that are left, step by step: a copy whose target nobody reads any
more is written, or, if there is none, a target is saved in a place that no copy mentions. However
the steps are chosen, the copies done one after the other have the effect of all of them at once.
Copies none of which can be written form rings; a step that saves a target breaks up the ring it is
on and no other, so that one place is used for each ring.
-/

namespace MiddleEnd.ParallelCopy

open scoped List

variable {α β : Type}

theorem eq_iterate_of_isChain {f : α → α} {x : α} {l : List α}
    (h : List.IsChain (fun x y => f x = y) (x :: l)) :
    x :: l = List.iterate f x (l.length + 1) := by
  induction l generalizing x with
  | nil => rfl
  | cons y l ih =>
    obtain ⟨rfl, hl⟩ := List.isChain_cons_cons.1 h
    show x :: f x :: l = x :: List.iterate f (f x) (l.length + 1)
    rw [ih hl]

theorem exists_eq_cons {ring : Cycle α} {x : α} (hx : x ∈ ring) :
    ∃ l : List α, ring = (x :: l : List α) := by
  induction ring using Quotient.inductionOn with
  | h whole =>
    obtain ⟨before, after, rfl⟩ := List.append_of_mem hx
    exact ⟨after ++ before, Cycle.coe_eq_coe.2 List.isRotated_append⟩

open Function in
theorem eq_periodicOrbit {f : α → α} {ring : Cycle α} (hn : ring.Nodup)
    (hc : ring.Chain fun x y => f x = y) {x : α} (hx : x ∈ ring) :
    x ∈ periodicPts f ∧ ring = periodicOrbit f x := by
  obtain ⟨l, rfl⟩ := exists_eq_cons hx
  rw [Cycle.nodup_coe_iff] at hn
  rw [Cycle.chain_coe_cons] at hc
  have hround := eq_iterate_of_isChain hc
  rw [← List.cons_append] at hc
  have hl : x :: l = List.iterate f x (l.length + 1) := eq_iterate_of_isChain hc.left_of_append
  have hat : ∀ k, k < l.length + 1 → (x :: l)[k]? = some (f^[k] x) := by
    intro k hk
    rw [hl, List.getElem?_iterate f x _ k hk]
  have hback : IsPeriodicPt f (l.length + 1) x := by
    have h := List.getElem?_iterate f x (l.length + 2) (l.length + 1) (by omega)
    rw [List.length_append, List.length_singleton] at hround
    rw [← hround, List.getElem?_cons_succ, List.getElem?_concat_length] at h
    exact (Option.some.inj h).symm
  have hpos := hback.minimalPeriod_pos (Nat.succ_pos _)
  have hperiod : minimalPeriod f x = l.length + 1 := by
    refine (hback.minimalPeriod_le (Nat.succ_pos _)).antisymm (Nat.le_of_not_lt fun hlt => ?_)
    refine List.nodup_iff_getElem?_ne_getElem?.1 hn 0 (minimalPeriod f x) hpos hlt ?_
    rw [hat 0 (by omega), hat _ hlt, iterate_minimalPeriod, iterate_zero_apply]
  refine ⟨mk_mem_periodicPts (Nat.succ_pos _) hback, ?_⟩
  rw [periodicOrbit_def, hperiod, List.range_map_iterate, ← hl]

variable [DecidableEq α]

theorem isFree_iff {pending : List (α × α)} {c : α × α} :
    isFree pending c = true ↔ ∀ d ∈ pending, d.2 ≠ c.1 := by
  simp [isFree]

theorem isFree_eq_false {pending : List (α × α)} {c : α × α} :
    isFree pending c = false ↔ ∃ d ∈ pending, d.2 = c.1 := by
  simp [isFree]

theorem mem_redirect {old new : α} {copies : List (α × α)} {c : α × α} :
    c ∈ redirect old new copies ↔ ∃ d ∈ copies, c = (d.1, if d.2 = old then new else d.2) := by
  simp only [redirect, List.mem_map, eq_comm]

theorem targets_redirect (old new : α) (copies : List (α × α)) :
    (redirect old new copies).map (·.1) = copies.map (·.1) := by
  simp [redirect]

theorem length_redirect (old new : α) (copies : List (α × α)) :
    (redirect old new copies).length = copies.length :=
  List.length_map _

theorem isFree_redirect (pending : List (α × α)) {c : α × α} {saved : α} (hs : saved ≠ c.1) :
    isFree (redirect c.1 saved pending) (c.1, if c.2 = c.1 then saved else c.2) = true := by
  rw [isFree_iff]
  intro d hd
  obtain ⟨e, -, rfl⟩ := mem_redirect.1 hd
  dsimp only
  split
  · exact hs
  · assumption

theorem atOnce_of_mem {copies : List (α × α)} {c : α × α} (hn : (copies.map (·.1)).Nodup)
    (hc : c ∈ copies) (regs : α → β) : atOnce copies regs c.1 = regs c.2 := by
  have hfind : copies.find? (·.1 = c.1) = some c := by
    cases h : copies.find? (·.1 = c.1) with
    | none => exact absurd (List.find?_eq_none.1 h c hc) (by simp)
    | some d =>
      have hd : d.1 = c.1 := by simpa using List.find?_some h
      rw [List.inj_on_of_nodup_map hn (List.mem_of_find?_eq_some h) hc hd]
  simp only [atOnce, hfind]

theorem atOnce_of_not_mem {copies : List (α × α)} {x : α} (hx : ∀ c ∈ copies, c.1 ≠ x)
    (regs : α → β) :
    atOnce copies regs x = regs x := by
  have hfind : copies.find? (·.1 = x) = none :=
    List.find?_eq_none.2 fun c hc => by simpa using hx c hc
  simp only [atOnce, hfind]

/-- The copies that are not of a place to itself. -/
def moves (copies : List (α × α)) : List (α × α) := copies.filter fun c => c.1 ≠ c.2

theorem mem_moves {copies : List (α × α)} {c : α × α} :
    c ∈ moves copies ↔ c ∈ copies ∧ c.1 ≠ c.2 := by
  rw [moves, List.mem_filter, decide_eq_true_eq]

theorem length_moves_le (copies : List (α × α)) : (moves copies).length ≤ copies.length :=
  List.length_filter_le _ _

theorem nodup_targets_moves {copies : List (α × α)} (hn : (copies.map (·.1)).Nodup) :
    ((moves copies).map (·.1)).Nodup :=
  hn.sublist (List.filter_sublist.map _)

theorem atOnce_moves {copies : List (α × α)} (hn : (copies.map (·.1)).Nodup)
    (regs : α → β) (x : α) :
    atOnce (moves copies) regs x = atOnce copies regs x := by
  by_cases ht : ∃ d ∈ copies, d.1 = x
  · obtain ⟨d, hd, rfl⟩ := ht
    rw [atOnce_of_mem hn hd]
    by_cases hself : d.1 = d.2
    · rw [atOnce_of_not_mem fun e he heq => ?_, ← hself]
      obtain ⟨he, hne⟩ := mem_moves.1 he
      rw [List.inj_on_of_nodup_map hn he hd heq] at hne
      exact hne hself
    · exact atOnce_of_mem (nodup_targets_moves hn) (mem_moves.2 ⟨hd, hself⟩) regs
  · have hnot : ∀ d ∈ copies, d.1 ≠ x := fun d hd he => ht ⟨d, hd, he⟩
    rw [atOnce_of_not_mem hnot, atOnce_of_not_mem fun d hd => hnot d (mem_moves.1 hd).1]

theorem nodup_targets_erase {pending : List (α × α)} {c : α × α} (hn : (pending.map (·.1)).Nodup) :
    ((pending.erase c).map (·.1)).Nodup :=
  hn.sublist (List.erase_sublist.map _)

theorem atOnce_erase {pending : List (α × α)} {c : α × α} (hn : (pending.map (·.1)).Nodup)
    (hc : c ∈ pending) (hfree : isFree pending c = true) (regs : α → β) (x : α) :
    atOnce (pending.erase c) (fun y => if y = c.1 then regs c.2 else regs y) x =
      atOnce pending regs x := by
  rw [isFree_iff] at hfree
  have hgone : ∀ d ∈ pending.erase c, d.1 ≠ c.1 := fun d hd he => by
    have hd' := ((hn.of_map _).mem_erase_iff).1 hd
    exact hd'.1 (List.inj_on_of_nodup_map hn hd'.2 hc he)
  by_cases hxc : x = c.1
  · subst hxc
    rw [atOnce_of_not_mem hgone, atOnce_of_mem hn hc, if_pos rfl]
  · by_cases ht : ∃ d ∈ pending, d.1 = x
    · obtain ⟨d, hd, rfl⟩ := ht
      have hd' : d ∈ pending.erase c :=
        ((hn.of_map _).mem_erase_iff).2 ⟨fun he => hxc (he ▸ rfl), hd⟩
      rw [atOnce_of_mem (nodup_targets_erase hn) hd', atOnce_of_mem hn hd, if_neg (hfree d hd)]
    · have hnot : ∀ d ∈ pending, d.1 ≠ x := fun d hd he => ht ⟨d, hd, he⟩
      rw [atOnce_of_not_mem hnot, atOnce_of_not_mem fun d hd =>
        hnot d (List.mem_of_mem_erase hd), if_neg hxc]

theorem nodup_targets_redirect {pending : List (α × α)} {old new : α}
    (hn : (pending.map (·.1)).Nodup) :
    ((redirect old new pending).map (·.1)).Nodup := by
  rw [targets_redirect]
  exact hn

theorem atOnce_redirect {pending : List (α × α)} {old saved : α} (hn : (pending.map (·.1)).Nodup)
    (hfresh : ∀ d ∈ pending, saved ≠ d.2) {regs : α → β} {x : α} (hx : x ≠ saved) :
    atOnce (redirect old saved pending) (fun y => if y = saved then regs old else regs y) x =
      atOnce pending regs x := by
  by_cases ht : ∃ d ∈ pending, d.1 = x
  · obtain ⟨d, hd, rfl⟩ := ht
    have hd' : (d.1, if d.2 = old then saved else d.2) ∈ redirect old saved pending :=
      mem_redirect.2 ⟨d, hd, rfl⟩
    rw [atOnce_of_mem (nodup_targets_redirect hn) hd', atOnce_of_mem hn hd]
    dsimp only
    by_cases hread : d.2 = old
    · rw [if_pos hread, if_pos rfl, hread]
    · rw [if_neg hread, if_neg fun he => hfresh d hd he.symm]
  · have hnot : ∀ d ∈ pending, d.1 ≠ x := fun d hd he => ht ⟨d, hd, he⟩
    rw [atOnce_of_not_mem hnot, atOnce_of_not_mem fun e he => ?_, if_neg hx]
    obtain ⟨d, hd, rfl⟩ := mem_redirect.1 he
    exact hnot d hd

/-- The copies in the last list do the pending ones, with `saves` of targets on the way. -/
inductive Sequenced : List (α × α) → List (α × α) → List (α × α) → Prop where
  | done : Sequenced [] [] []
  | write {pending saves later : List (α × α)} {c : α × α} : c ∈ pending → isFree pending c = true →
      Sequenced (pending.erase c) saves later → Sequenced pending saves (c :: later)
  | save {pending saves later : List (α × α)} {c : α × α} {saved : α} : c ∈ pending →
      (∀ d ∈ pending, isFree pending d = false) → (∀ d ∈ pending, saved ≠ d.1 ∧ saved ≠ d.2) →
      Sequenced (redirect c.1 saved pending) saves later →
      Sequenced pending ((saved, c.1) :: saves) ((saved, c.1) :: later)

theorem Sequenced.effect {pending saves seq : List (α × α)} (h : Sequenced pending saves seq)
    (hn : (pending.map (·.1)).Nodup) (regs : α → β) {x : α} (hx : x ∉ saves.map (·.1)) :
    inSequence seq regs x = atOnce pending regs x := by
  induction h generalizing regs with
  | done => rfl
  | write hc hfree _ ih =>
    rw [inSequence_cons, ih (nodup_targets_erase hn) _ hx, atOnce_erase hn hc hfree]
  | save _ _ hfresh _ ih =>
    rw [List.map_cons, List.mem_cons, not_or] at hx
    rw [inSequence_cons, ih (nodup_targets_redirect hn) _ hx.2,
      atOnce_redirect hn (fun d hd => (hfresh d hd).2) hx.1]

theorem Sequenced.targets {pending saves seq : List (α × α)} (h : Sequenced pending saves seq) :
    seq.map (·.1) ~ pending.map (·.1) ++ saves.map (·.1) := by
  induction h with
  | done => exact .refl _
  | @write pending saves later c hc _ _ ih =>
    calc c.1 :: later.map (·.1)
      _ ~ c.1 :: ((pending.erase c).map (·.1) ++ saves.map (·.1)) := ih.cons _
      _ = (c :: pending.erase c).map (·.1) ++ saves.map (·.1) := rfl
      _ ~ pending.map (·.1) ++ saves.map (·.1) :=
        ((List.perm_cons_erase hc).symm.map _).append_right _
  | @save pending saves later c saved _ _ _ _ ih =>
    rw [targets_redirect] at ih
    exact (ih.cons saved).trans List.perm_middle.symm

theorem Sequenced.sources {pending saves seq : List (α × α)} (h : Sequenced pending saves seq) :
    ∀ p ∈ seq, (∃ c ∈ pending, p.2 = c.2) ∨ ∃ c ∈ saves, p.2 = c.1 := by
  induction h with
  | done => exact fun _ hp => absurd hp List.not_mem_nil
  | write hc _ _ ih =>
    refine List.forall_mem_cons.2 ⟨.inl ⟨_, hc, rfl⟩, fun p hp => (ih p hp).imp_left ?_⟩
    rintro ⟨d, hd, he⟩
    exact ⟨d, List.mem_of_mem_erase hd, he⟩
  | save hc hblocked _ _ ih =>
    obtain ⟨d, hd, hread⟩ := isFree_eq_false.1 (hblocked _ hc)
    refine List.forall_mem_cons.2 ⟨.inl ⟨d, hd, hread.symm⟩, fun p hp => ?_⟩
    rcases ih p hp with ⟨e, he, hpe⟩ | ⟨e, he, hpe⟩
    · obtain ⟨d', hd', rfl⟩ := mem_redirect.1 he
      dsimp only at hpe
      split at hpe
      · exact .inr ⟨_, List.mem_cons_self, hpe⟩
      · exact .inl ⟨d', hd', hpe⟩
    · exact .inr ⟨e, List.mem_cons_of_mem _ he, hpe⟩

theorem Sequenced.saved {pending saves seq : List (α × α)} (h : Sequenced pending saves seq) :
    ∀ p ∈ saves, ∃ c ∈ pending, p.2 = c.1 := by
  induction h with
  | done => exact fun _ hp => absurd hp List.not_mem_nil
  | write _ _ _ ih =>
    intro p hp
    obtain ⟨c, hc, he⟩ := ih p hp
    exact ⟨c, List.mem_of_mem_erase hc, he⟩
  | save hc _ _ _ ih =>
    refine List.forall_mem_cons.2 ⟨⟨_, hc, rfl⟩, fun p hp => ?_⟩
    obtain ⟨d, hd, he⟩ := ih p hp
    obtain ⟨e, hmem, rfl⟩ := mem_redirect.1 hd
    exact ⟨e, hmem, he⟩

theorem Sequenced.alike {pending saves seq : List (α × α)} (h : Sequenced pending saves seq)
    {kind : α → β} (hpending : ∀ c ∈ pending, kind c.1 = kind c.2)
    (hsaves : ∀ c ∈ saves, kind c.1 = kind c.2) :
    ∀ p ∈ seq, kind p.1 = kind p.2 := by
  induction h with
  | done => exact fun _ hp => absurd hp List.not_mem_nil
  | write hc _ _ ih =>
    exact List.forall_mem_cons.2 ⟨hpending _ hc,
      ih (fun d hd => hpending d (List.mem_of_mem_erase hd)) hsaves⟩
  | save _ _ _ _ ih =>
    obtain ⟨hsave, hrest⟩ := List.forall_mem_cons.1 hsaves
    refine List.forall_mem_cons.2 ⟨hsave, ih (fun e he => ?_) hrest⟩
    obtain ⟨d, hd, rfl⟩ := mem_redirect.1 he
    dsimp only
    split
    · rename_i hread
      rw [hpending d hd, hread]
      exact hsave.symm
    · exact hpending d hd

/-- Distinct places, at least two of them, each of which is copied from the next one, all around. -/
structure IsRing (copies : List (α × α)) (ring : Cycle α) : Prop where
  distinct : ring.Nodup
  long : 2 ≤ ring.length
  copied : ring.Chain fun x y => (x, y) ∈ copies

namespace IsRing

open Function

variable {copies copies' : List (α × α)} {ring : Cycle α} {x : α}

theorem orbit (h : IsRing copies ring) (hn : (copies.map (·.1)).Nodup) (hx : x ∈ ring) :
    x ∈ periodicPts (atOnce copies id) ∧ ring = periodicOrbit (atOnce copies id) x :=
  eq_periodicOrbit h.distinct (h.copied.imp fun _ _ hc => atOnce_of_mem hn hc id) hx

theorem unique {ring' : Cycle α} (h : IsRing copies ring) (h' : IsRing copies ring')
    (hn : (copies.map (·.1)).Nodup) (hx : x ∈ ring) (hx' : x ∈ ring') : ring = ring' :=
  (h.orbit hn hx).2.trans (h'.orbit hn hx').2.symm

omit [DecidableEq α] in
theorem exists_mem (h : IsRing copies ring) : ∃ x, x ∈ ring := by
  obtain ⟨-, hl, -⟩ := h
  induction ring using Quotient.inductionOn with
  | h l =>
    obtain ⟨x, hx⟩ := List.exists_mem_of_length_pos (Nat.lt_of_lt_of_le Nat.zero_lt_two hl)
    exact ⟨x, hx⟩

theorem read (h : IsRing copies ring) (hn : (copies.map (·.1)).Nodup) (hx : x ∈ ring) :
    ∃ c ∈ copies, c.2 = x := by
  obtain ⟨hper, rfl⟩ := h.orbit hn hx
  have hstep := (periodicOrbit_chain' _ hper).1 h.copied (minimalPeriod (atOnce copies id) x - 1)
  rw [Nat.sub_add_cancel (minimalPeriod_pos_of_mem_periodicPts hper),
    iterate_minimalPeriod] at hstep
  exact ⟨_, hstep, rfl⟩

theorem written (h : IsRing copies ring) (hn : (copies.map (·.1)).Nodup) (hx : x ∈ ring) :
    ∃ c ∈ copies, c.1 = x := by
  obtain ⟨hper, rfl⟩ := h.orbit hn hx
  exact ⟨_, (periodicOrbit_chain' _ hper).1 h.copied 0, rfl⟩

theorem ne (h : IsRing copies ring) (hn : (copies.map (·.1)).Nodup) {c : α × α} (hc : c ∈ copies)
    (hx : c.1 ∈ ring) :
    c.1 ≠ c.2 := by
  intro he
  obtain ⟨hper, rfl⟩ := h.orbit hn hx
  have hfix : IsPeriodicPt (atOnce copies id) 1 c.1 := (atOnce_of_mem hn hc id).trans he.symm
  have hle := hfix.minimalPeriod_le Nat.one_pos
  have hlong := h.long
  rw [periodicOrbit_length] at hlong
  omega

theorem congr (h : IsRing copies ring) (hn : (copies.map (·.1)).Nodup)
    (hc : ∀ c ∈ copies, c.1 ∈ ring → c.2 ∈ ring → c ∈ copies') : IsRing copies' ring := by
  obtain ⟨x, hx⟩ := h.exists_mem
  obtain ⟨hper, rfl⟩ := h.orbit hn hx
  have hstep := (periodicOrbit_chain' _ hper).1 h.copied
  refine ⟨h.distinct, h.long, (periodicOrbit_chain' _ hper).2 fun k => ?_⟩
  exact hc _ (hstep k) (iterate_mem_periodicOrbit hper k) (iterate_mem_periodicOrbit hper (k + 1))

end IsRing

section

variable {pending : List (α × α)} {c : α × α} {saved : α} {ring : Cycle α}

theorem exists_isRing (hn : (pending.map (·.1)).Nodup) (hmove : ∀ d ∈ pending, d.1 ≠ d.2)
    (hblocked : ∀ d ∈ pending, isFree pending d = false) (hc : c ∈ pending) :
    ∃ ring, IsRing pending ring ∧ c.1 ∈ ring := by
  -- As many places are written as are read, so that the same ones are.
  have hperm : pending.map (·.1) ~ pending.map (·.2) := by
    refine (hn.subperm fun x hx => ?_).perm_of_length_le (by simp)
    obtain ⟨d, hd, rfl⟩ := List.mem_map.1 hx
    obtain ⟨e, he, hread⟩ := isFree_eq_false.1 (hblocked d hd)
    exact List.mem_map.2 ⟨e, he, hread⟩
  have hmaps : Set.MapsTo (atOnce pending id) {x | x ∈ pending.map (·.1)}
      {x | x ∈ pending.map (·.1)} := by
    intro x hx
    obtain ⟨d, hd, rfl⟩ := List.mem_map.1 hx
    rw [atOnce_of_mem hn hd]
    exact hperm.mem_iff.2 (List.mem_map_of_mem hd)
  have hinj : Set.InjOn (atOnce pending id) {x | x ∈ pending.map (·.1)} := by
    intro x hx y hy he
    obtain ⟨d, hd, rfl⟩ := List.mem_map.1 hx
    obtain ⟨e, he', rfl⟩ := List.mem_map.1 hy
    rw [atOnce_of_mem hn hd, atOnce_of_mem hn he'] at he
    rw [List.inj_on_of_nodup_map (hperm.nodup_iff.1 hn) hd he' he]
  have hfinite : Finite {x | x ∈ pending.map (·.1)} := List.finite_toSet _
  have hx : c.1 ∈ pending.map (·.1) := List.mem_map_of_mem hc
  have hsemi : Function.Semiconj Subtype.val (hmaps.restrict _ _ _) (atOnce pending id) :=
    fun _ => rfl
  have hper : c.1 ∈ Function.periodicPts (atOnce pending id) :=
    hsemi.mapsTo_periodicPts ((hmaps.restrict_inj.2 hinj).mem_periodicPts ⟨c.1, hx⟩)
  refine ⟨Function.periodicOrbit (atOnce pending id) c.1, ⟨Function.nodup_periodicOrbit, ?_, ?_⟩,
    Function.self_mem_periodicOrbit hper⟩
  · have hpos := Function.minimalPeriod_pos_of_mem_periodicPts hper
    have hone : Function.minimalPeriod (atOnce pending id) c.1 ≠ 1 := by
      rw [Ne, Function.minimalPeriod_eq_one_iff_isFixedPt]
      intro hfix
      exact hmove c hc (hfix.symm.trans (atOnce_of_mem hn hc id))
    rw [Function.periodicOrbit_length]
    omega
  · refine (Function.periodicOrbit_chain' _ hper).2 fun k => ?_
    obtain ⟨d, hd, hk⟩ := List.mem_map.1 (hmaps.iterate k hx)
    rw [Function.iterate_succ_apply', ← hk, atOnce_of_mem hn hd]
    exact hd

theorem isRing_moves (hn : (pending.map (·.1)).Nodup) :
    IsRing (moves pending) ring ↔ IsRing pending ring := by
  constructor
  · intro h
    exact h.congr (nodup_targets_moves hn) fun d hd _ _ => (mem_moves.1 hd).1
  · intro h
    exact h.congr hn fun d hd hx _ => mem_moves.2 ⟨hd, h.ne hn hd hx⟩

theorem isRing_erase (hn : (pending.map (·.1)).Nodup) (hfree : isFree pending c = true) :
    IsRing (pending.erase c) ring ↔ IsRing pending ring := by
  constructor
  · intro h
    exact h.congr (nodup_targets_erase hn) fun d hd _ _ => List.mem_of_mem_erase hd
  · intro h
    refine h.congr hn fun d hd hx _ => ?_
    rw [(hn.of_map _).mem_erase_iff]
    refine ⟨?_, hd⟩
    rintro rfl
    obtain ⟨e, he, hread⟩ := h.read hn hx
    exact isFree_iff.1 hfree e he hread

theorem isRing_redirect (hn : (pending.map (·.1)).Nodup) (hc : c ∈ pending)
    (hfresh : ∀ d ∈ pending, saved ≠ d.1 ∧ saved ≠ d.2) :
    IsRing (redirect c.1 saved pending) ring ↔ IsRing pending ring ∧ c.1 ∉ ring := by
  have hn' : ((redirect c.1 saved pending).map (·.1)).Nodup := nodup_targets_redirect hn
  constructor
  · intro h
    refine ⟨h.congr hn' fun d hd _ hx => ?_, fun hx => ?_⟩
    · obtain ⟨e, he, rfl⟩ := mem_redirect.1 hd
      dsimp only at hx ⊢
      split at hx
      · obtain ⟨a, ha, hsaved⟩ := h.written hn' hx
        obtain ⟨b, hb, rfl⟩ := mem_redirect.1 ha
        exact absurd hsaved.symm (hfresh b hb).1
      · rw [if_neg ‹_›]
        exact he
    · obtain ⟨d, hd, hread⟩ := h.read hn' hx
      exact isFree_iff.1 (isFree_redirect pending (hfresh c hc).1) d hd hread
  · rintro ⟨h, hx⟩
    refine h.congr hn fun d hd _ hy => mem_redirect.2 ⟨d, hd, ?_⟩
    rw [if_neg]
    intro he
    exact hx (he ▸ hy)

end

theorem Sequenced.rings {pending saves seq : List (α × α)} (h : Sequenced pending saves seq)
    (hn : (pending.map (·.1)).Nodup) (hmove : ∀ d ∈ pending, d.1 ≠ d.2) :
    ∃ rings : List (Cycle α), rings.Nodup ∧ (∀ ring, ring ∈ rings ↔ IsRing pending ring) ∧
      List.Forall₂ (fun save ring => save.2 ∈ ring) saves rings := by
  induction h with
  | done =>
    refine ⟨[], List.nodup_nil, fun ring => ⟨fun hr => absurd hr List.not_mem_nil,
      fun hr => ?_⟩, .nil⟩
    obtain ⟨x, hx⟩ := hr.exists_mem
    obtain ⟨c, hc, -⟩ := hr.written hn hx
    cases hc
  | @write pending saves later c hc hfree _ ih =>
    obtain ⟨rings, hnodup, hmem, hall⟩ := ih (nodup_targets_erase hn)
      fun d hd => hmove d (List.mem_of_mem_erase hd)
    exact ⟨rings, hnodup, fun ring => (hmem ring).trans (isRing_erase hn hfree), hall⟩
  | @save pending saves later c saved hc hblocked hfresh _ ih =>
    obtain ⟨rings, hnodup, hmem, hall⟩ := ih (nodup_targets_redirect hn) fun d hd => by
      obtain ⟨e, he, rfl⟩ := mem_redirect.1 hd
      dsimp only
      split
      · exact (hfresh e he).1.symm
      · exact hmove e he
    obtain ⟨ring₀, hring₀, hc₀⟩ := exists_isRing hn hmove hblocked hc
    simp only [isRing_redirect hn hc hfresh] at hmem
    refine ⟨ring₀ :: rings, List.nodup_cons.2 ⟨fun hr => ((hmem ring₀).1 hr).2 hc₀, hnodup⟩,
      fun ring => ?_, .cons hc₀ hall⟩
    rw [List.mem_cons, hmem]
    constructor
    · rintro (rfl | ⟨hr, -⟩)
      · exact hring₀
      · exact hr
    · intro hr
      by_cases hx : c.1 ∈ ring
      · exact .inl (hr.unique hring₀ hn hx hc₀)
      · exact .inr ⟨hr, hx⟩

section

variable {σ : Type} {m : Type → Type} [Monad m]

/-- However it is asked so many times, `temp` yields a place that is not taken and that it has not
yielded before. -/
def Fresh (temp : α → StateT σ m α) : Nat → List α → σ → Prop
  | 0, _, _ => True
  | k + 1, taken, s => ∀ x, ∃ t s', (temp x).run s = pure (t, s') ∧ t ∉ taken ∧
    Fresh temp k (t :: taken) s'

/-- From the state `s`, ordering takes the steps of `seq` and ends in the state `s'`, if it may take
as many steps as the bound says. The places used on the way are those that `temp` yields, one after
the other. -/
structure Ordered (temp : α → StateT σ m α) (pending : List (α × α)) (taken : List α)
    (bound : Nat) (s : σ) (saves seq : List (α × α)) (s' : σ) : Prop where
  sequenced : Sequenced pending saves seq
  asked : ((saves.map (·.2)).mapM temp).run s = pure (saves.map (·.1), s')
  fresh : ∀ t ∈ saves.map (·.1), t ∉ taken
  distinct : (saves.map (·.1)).Nodup
  runs : ∀ fuel, bound ≤ fuel → (orderWithin temp fuel pending).run s = pure (seq, s')

variable [LawfulMonad m] {temp : α → StateT σ m α} {pending saves seq : List (α × α)}
  {taken : List α} {bound : Nat} {s s' : σ} {c : α × α}

omit [LawfulMonad m] in
theorem ordered_nil (s : σ) : Ordered temp [] taken 0 s [] [] s where
  sequenced := .done
  asked := rfl
  fresh t ht := absurd ht List.not_mem_nil
  distinct := List.nodup_nil
  runs fuel _ := by cases fuel <;> rfl

theorem Ordered.write (h : Ordered temp (pending.erase c) taken bound s saves seq s')
    (hfind : pending.find? (isFree pending) = some c) :
    Ordered temp pending taken (bound + 1) s saves (c :: seq) s' where
  sequenced := .write (List.mem_of_find?_eq_some hfind) (List.find?_some hfind) h.sequenced
  asked := h.asked
  fresh := h.fresh
  distinct := h.distinct
  runs fuel hfuel := by
    obtain ⟨k, rfl⟩ := Nat.exists_eq_add_of_le' hfuel
    cases pending with
    | nil => cases hfind
    | cons d rest =>
      rw [← Nat.add_assoc, orderWithin, hfind]
      simp only [StateT.run_bind, h.runs (k + bound) (Nat.le_add_left _ _), pure_bind,
        StateT.run_pure]

theorem Ordered.save {rest : List (α × α)} {saved : α} {s₁ : σ}
    (h : Ordered temp (redirect c.1 saved (c :: rest)) (saved :: taken) bound s₁ saves seq s')
    (hfind : (c :: rest).find? (isFree (c :: rest)) = none)
    (hask : (temp c.1).run s = pure (saved, s₁)) (hsaved : saved ∉ taken)
    (htaken : ∀ d ∈ c :: rest, d.1 ∈ taken ∧ d.2 ∈ taken) :
    Ordered temp (c :: rest) taken (bound + 1) s ((saved, c.1) :: saves)
      ((saved, c.1) :: seq) s' where
  sequenced := by
    refine .save List.mem_cons_self (fun d hd => ?_) (fun d hd => ⟨?_, ?_⟩) h.sequenced
    · exact Bool.not_eq_true _ ▸ List.find?_eq_none.1 hfind d hd
    · rintro rfl
      exact hsaved (htaken d hd).1
    · rintro rfl
      exact hsaved (htaken d hd).2
  asked := by
    simp only [List.map_cons, List.mapM_cons, StateT.run_bind, hask, pure_bind, h.asked,
      StateT.run_pure]
  fresh t ht := by
    rcases List.mem_cons.1 ht with rfl | ht
    · exact hsaved
    · exact fun hm => h.fresh t ht (List.mem_cons_of_mem _ hm)
  distinct := List.nodup_cons.2 ⟨fun hm => h.fresh saved hm List.mem_cons_self, h.distinct⟩
  runs fuel hfuel := by
    obtain ⟨k, rfl⟩ := Nat.exists_eq_add_of_le' hfuel
    rw [← Nat.add_assoc, orderWithin, hfind]
    simp only [StateT.run_bind, hask, h.runs (k + bound) (Nat.le_add_left _ _), pure_bind,
      StateT.run_pure]

/-- Two steps for each copy are enough: once a target is saved, a copy can be written. It is enough
that `temp` yields a place that is not taken when it is asked for one that is, and leaves what `I`
says of the next time. -/
theorem orderWithin_supplied {I : Nat → List α → σ → Prop}
    (hsupply : ∀ {k taken s}, I (k + 1) taken s → ∀ x ∈ taken, ∃ t s', (temp x).run s =
      pure (t, s') ∧ t ∉ taken ∧ I k (t :: taken) s')
    {k : Nat} (hfresh : I k taken s) (hk : pending.length ≤ k)
    (htaken : ∀ d ∈ pending, d.1 ∈ taken ∧ d.2 ∈ taken) :
    ∃ saves seq s', Ordered temp pending taken (2 * pending.length) s saves seq s' := by
  induction hlen : pending.length generalizing pending k taken s with
  | zero =>
    rw [List.length_eq_zero_iff.1 hlen]
    exact ⟨[], [], s, ordered_nil s⟩
  | succ n ih =>
    rw [hlen] at hk
    cases hfind : pending.find? (isFree pending) with
    | some c =>
      have hc := List.mem_of_find?_eq_some hfind
      have hlen' : (pending.erase c).length = n := by
        rw [List.length_erase_of_mem hc, hlen]
        rfl
      obtain ⟨saves, seq, s', h⟩ :=
        ih hfresh (by omega) (fun d hd => htaken d (List.mem_of_mem_erase hd)) hlen'
      have hw := h.write hfind
      exact ⟨saves, c :: seq, s', { hw with runs := fun fuel hfuel => hw.runs fuel (by omega) }⟩
    | none =>
      cases pending with
      | nil => cases hlen
      | cons c rest =>
        obtain ⟨k, rfl⟩ := Nat.exists_eq_add_of_le' (Nat.le_of_add_left_le hk)
        obtain ⟨saved, s₁, hask, hsaved, hfresh₁⟩ :=
          hsupply hfresh c.1 (htaken c List.mem_cons_self).1
        have hne : saved ≠ c.1 := fun he => hsaved (he ▸ (htaken c List.mem_cons_self).1)
        -- The copy to the saved target is free now, so the step after the save is a write and the
        -- list gets shorter.
        obtain ⟨d, hd⟩ := Option.isSome_iff_exists.1 (List.find?_isSome.2
          ⟨_, mem_redirect.2 ⟨c, List.mem_cons_self, rfl⟩, isFree_redirect (c :: rest) hne⟩)
        have hmem := List.mem_of_find?_eq_some hd
        have hlen' : ((redirect c.1 saved (c :: rest)).erase d).length = n := by
          rw [List.length_erase_of_mem hmem, length_redirect]
          omega
        have htaken' : ∀ e ∈ (redirect c.1 saved (c :: rest)).erase d, e.1 ∈ saved :: taken ∧
            e.2 ∈ saved :: taken := by
          intro e he
          obtain ⟨e, he', rfl⟩ := mem_redirect.1 (List.mem_of_mem_erase he)
          refine ⟨List.mem_cons_of_mem _ (htaken e he').1, ?_⟩
          dsimp only
          split
          · exact List.mem_cons_self
          · exact List.mem_cons_of_mem _ (htaken e he').2
        obtain ⟨saves, seq, s', h⟩ := ih hfresh₁ (by omega) htaken' hlen'
        exact ⟨_, _, s', (h.write hd).save hfind hask hsaved htaken⟩

theorem orderWithin_ok {k : Nat} (hfresh : Fresh temp k taken s) (hk : pending.length ≤ k)
    (htaken : ∀ d ∈ pending, d.1 ∈ taken ∧ d.2 ∈ taken) :
    ∃ saves seq s', Ordered temp pending taken (2 * pending.length) s saves seq s' :=
  orderWithin_supplied (I := Fresh temp) (fun h x _ => h x) hfresh hk htaken

end

/-- Copies to distinct targets are put into an order that has the effect of all at once, for every
register that is not one of the places used on the way. Each copy that is not of a place to itself
is written once, and one place is used for each ring. -/
theorem order_ok {σ : Type} {temp : α → StateM σ α} {copies : List (α × α)} {s : σ}
    (hn : (copies.map (·.1)).Nodup)
    (hfresh : Fresh temp copies.length (copies.map (·.1) ++ copies.map (·.2)) s) :
    ∃ (seq saves : List (α × α)) (s' : σ), (order temp copies).run s = (seq, s') ∧
      (∀ fuel, 2 * (moves copies).length ≤ fuel →
        (orderWithin temp fuel (moves copies)).run s = (seq, s')) ∧
      ((saves.map (·.2)).mapM temp).run s = (saves.map (·.1), s') ∧ (saves.map (·.1)).Nodup ∧
      (∀ (β : Type) (regs : α → β) (x : α), x ∉ saves.map (·.1) →
        inSequence seq regs x = atOnce copies regs x) ∧
      seq.map (·.1) ~ (moves copies).map (·.1) ++ saves.map (·.1) ∧
      (∀ c ∈ copies, c.1 ≠ c.2 → (seq.map (·.1)).count c.1 = 1) ∧
      ∃ rings : List (Cycle α), rings.Nodup ∧ (∀ ring, ring ∈ rings ↔ IsRing copies ring) ∧
        List.Forall₂ (fun save ring => save.2 ∈ ring) saves rings := by
  have htaken : ∀ d ∈ moves copies, d.1 ∈ copies.map (·.1) ++ copies.map (·.2) ∧
      d.2 ∈ copies.map (·.1) ++ copies.map (·.2) := by
    intro d hd
    have hd := (mem_moves.1 hd).1
    exact ⟨List.mem_append_left _ (List.mem_map_of_mem hd),
      List.mem_append_right _ (List.mem_map_of_mem hd)⟩
  obtain ⟨saves, seq, s', h⟩ := orderWithin_ok hfresh (length_moves_le copies) htaken
  have hn' := nodup_targets_moves hn
  have hperm := h.sequenced.targets
  obtain ⟨rings, hnodup, hrings, hsaves⟩ := h.sequenced.rings hn' fun d hd => (mem_moves.1 hd).2
  refine ⟨seq, saves, s', h.runs (4 * (moves copies).length) (by omega), h.runs,
    h.asked, h.distinct,
    fun β regs x hx => ?_, hperm, fun c hc hne => ?_,
    rings, hnodup, fun ring => (hrings ring).trans (isRing_moves hn), hsaves⟩
  · rw [h.sequenced.effect hn' regs hx, atOnce_moves hn]
  · have honce : ((moves copies).map (·.1)).count c.1 = 1 :=
      List.count_eq_one_of_mem hn' (List.mem_map_of_mem (mem_moves.2 ⟨hc, hne⟩))
    have hnot : (saves.map (·.1)).count c.1 = 0 :=
      List.count_eq_zero.2 fun hm =>
        h.fresh c.1 hm (List.mem_append_left _ (List.mem_map_of_mem hc))
    rw [hperm.count_eq, List.count_append, honce, hnot]

/-- Places with ever higher numbers. -/
def nextPlace (_ : Nat) : StateM Nat Nat := fun last => (last + 1, last + 1)

theorem nextPlace_fresh (k : Nat) {taken : List Nat} {last : Nat} (h : ∀ t ∈ taken, t ≤ last) :
    Fresh nextPlace k taken last := by
  induction k generalizing taken last with
  | zero => trivial
  | succ k ih =>
    refine fun _ => ⟨last + 1, last + 1, rfl, fun hm => absurd (h _ hm) (by omega),
      ih fun t ht => ?_⟩
    rcases List.mem_cons.1 ht with rfl | ht
    · exact Nat.le_refl _
    · exact Nat.le_succ_of_le (h t ht)

/-- A swap with a copy that hangs on it, a rotation of three places and a copy of a place to
itself. -/
def twoRings : List (Nat × Nat) := [(3, 1), (1, 2), (2, 1), (4, 5), (5, 6), (6, 4), (7, 7)]

theorem twoRings_ordered :
    ∃ seq saves : List (Nat × Nat), (order nextPlace twoRings).run 100 = (seq, 102) ∧
      (∀ (regs : Nat → Nat) (x : Nat), x ∉ saves.map (·.1) →
        inSequence seq regs x = atOnce twoRings regs x) ∧
    (seq.map (·.1)).count 3 = 1 ∧ ∃ rings : List (Cycle Nat), rings.Nodup ∧
      (∀ ring, ring ∈ rings ↔ IsRing twoRings ring) ∧ List.Forall₂
        (fun save ring => save.2 ∈ ring) saves rings := by
  obtain ⟨seq, saves, s', hrun, -, -, -, heffect, -, hcount, hrings⟩ :=
    order_ok (by decide) (nextPlace_fresh twoRings.length (by decide : ∀ t ∈ _, t ≤ 100))
  have hend : ((order nextPlace twoRings).run 100).2 = 102 := by decide +kernel
  rw [hrun] at hend
  cases hend
  exact ⟨seq, saves, hrun, heffect Nat, hcount (3, 1) (by decide) (by decide), hrings⟩

end MiddleEnd.ParallelCopy
