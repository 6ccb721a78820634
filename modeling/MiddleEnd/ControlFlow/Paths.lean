import MiddleEnd.Func.Basic

/-!
# Paths

Where control may go, said in terms of paths through the blocks of a function. Dominance is a
property of all paths from the entry; every block dominates itself, and blocks dominate each other
only if they are the same. Walks and what guards a node are first looked at in any graph, since the
edges that a run takes are fewer than those a function has.
-/

namespace MiddleEnd

/-- The nodes on a walk along edges, both ends included. -/
inductive Walk {α : Type} (E : α → α → Prop) : α → α → List α → Prop where
  | single (a : α) : Walk E a a [a]
  | cons {a b c : α} {p : List α} : E a b → Walk E b c p → Walk E a c (a :: p)

namespace Walk

variable {α : Type} {E : α → α → Prop} {a b c d : α} {p q : List α}

theorem start_mem (h : Walk E a b p) : a ∈ p := by
  cases h <;> exact List.mem_cons_self

theorem end_mem (h : Walk E a b p) : b ∈ p := by
  induction h with
  | single => exact List.mem_cons_self
  | cons _ _ ih => exact List.mem_cons_of_mem _ ih

theorem snoc (h : Walk E a b p) (e : E b c) : Walk E a c (p ++ [c]) := by
  induction h with
  | single => exact .cons e (.single c)
  | cons e' _ ih => exact .cons e' (ih e)

theorem append (h : Walk E a b p) (h' : Walk E b c q) :
    ∃ r, Walk E a c r ∧ ∀ x ∈ r, x ∈ p ∨ x ∈ q := by
  induction h with
  | single => exact ⟨q, h', fun _ hx => .inr hx⟩
  | cons e _ ih =>
    obtain ⟨r, hr, hs⟩ := ih h'
    refine ⟨_, .cons e hr, fun x hx => ?_⟩
    rcases List.mem_cons.1 hx with rfl | hx
    · exact .inl List.mem_cons_self
    · exact (hs x hx).imp (List.mem_cons_of_mem _) id

theorem mono {E' : α → α → Prop} (h : Walk E a b p) (sub : ∀ {x y}, E x y → E' x y) :
    Walk E' a b p := by
  induction h with
  | single a => exact .single a
  | cons e _ ih => exact .cons (sub e) ih

theorem last_step (h : Walk E a b p) :
    (a = b ∧ p = [a]) ∨ ∃ c q, Walk E a c q ∧ E c b ∧ p = q ++ [b] := by
  induction h with
  | single a => exact .inl ⟨rfl, rfl⟩
  | @cons a' b' c' p e h ih =>
    refine .inr ?_
    rcases ih with ⟨rfl, rfl⟩ | ⟨c, q, hq, hc, rfl⟩
    · exact ⟨a', [a'], .single a', e, rfl⟩
    · exact ⟨c, a' :: q, .cons e hq, hc, rfl⟩

/-- The part of a walk up to one of its nodes is shorter, unless the node is the end. -/
theorem upTo (h : Walk E a b p) (hd : d ∈ p) :
    ∃ q, Walk E a d q ∧ (d = b ∨ q.length < p.length) ∧ ∀ x ∈ q, x ∈ p := by
  induction h with
  | single =>
    obtain rfl := List.mem_singleton.1 hd
    exact ⟨_, .single d, .inl rfl, fun _ hx => hx⟩
  | @cons a' b' c' p e h ih =>
    rcases List.mem_cons.1 hd with rfl | hd
    · refine ⟨_, .single d, .inr ?_, by simp⟩
      have := List.length_pos_of_mem h.start_mem
      simp only [List.length_cons, List.length_nil]
      omega
    · obtain ⟨q, hq, hl, hs⟩ := ih hd
      refine ⟨_, .cons e hq, ?_, ?_⟩
      · rcases hl with hl | hl
        · exact .inl hl
        · exact .inr (by simp only [List.length_cons]; omega)
      · intro x hx
        rcases List.mem_cons.1 hx with rfl | hx
        · exact List.mem_cons_self
        · exact List.mem_cons_of_mem _ (hs x hx)

/-- A walk comes to each of its nodes for the first time. -/
theorem first_arrival (h : Walk E a b p) (hd : d ∈ p) :
    d = a ∨ ∃ c q, Walk E a c q ∧ E c d ∧ d ∉ q ∧ ∀ x ∈ q, x ∈ p := by
  induction h with
  | single => exact .inl (List.mem_singleton.1 hd)
  | @cons a' b' c' p e h ih =>
    by_cases hda : d = a'
    · exact .inl hda
    refine .inr ?_
    rcases ih ((List.mem_cons.1 hd).resolve_left hda) with rfl | ⟨c, q, hq, hc, hn, hs⟩
    · exact ⟨a', [a'], .single a', e, fun hm => hda (List.mem_singleton.1 hm), by simp⟩
    · refine ⟨c, a' :: q, .cons e hq, hc, fun hm => ?_, fun x hx => ?_⟩
      · rcases List.mem_cons.1 hm with h | h
        · exact hda h
        · exact hn h
      · rcases List.mem_cons.1 hx with rfl | hx
        · exact List.mem_cons_self
        · exact List.mem_cons_of_mem _ (hs x hx)

theorem last_departure (h : Walk E a b p) (hd : d ∈ p) :
    d = b ∨ ∃ c q, E d c ∧ Walk E c b q ∧ d ∉ q ∧ ∀ x ∈ q, x ∈ p := by
  induction h with
  | single => exact .inl (List.mem_singleton.1 hd)
  | @cons a' b' c' p e h ih =>
    by_cases hdp : d ∈ p
    · rcases ih hdp with rfl | ⟨c, q, hc, hq, hn, hs⟩
      · exact .inl rfl
      · exact .inr ⟨c, q, hc, hq, hn, fun x hx => List.mem_cons_of_mem _ (hs x hx)⟩
    · obtain rfl := (List.mem_cons.1 hd).resolve_right hdp
      exact .inr ⟨b', p, e, h, hdp, fun x hx => List.mem_cons_of_mem _ hx⟩

theorem drop_to_nodup (h : Walk E a b p) (hn : p.Nodup) (hd : d ∈ p) :
    ∃ q, Walk E d b q ∧ q.Nodup ∧ ∀ x ∈ q, x ∈ p := by
  induction h with
  | single =>
    obtain rfl := List.mem_singleton.1 hd
    exact ⟨_, .single d, hn, fun _ hx => hx⟩
  | cons e h ih =>
    rcases List.mem_cons.1 hd with rfl | hd
    · exact ⟨_, .cons e h, hn, fun _ hx => hx⟩
    · obtain ⟨q, hq, hn', hs⟩ := ih (List.nodup_cons.1 hn).2 hd
      exact ⟨q, hq, hn', fun x hx => List.mem_cons_of_mem _ (hs x hx)⟩

theorem exists_nodup (h : Walk E a b p) : ∃ q, Walk E a b q ∧ q.Nodup ∧ ∀ x ∈ q, x ∈ p := by
  induction h with
  | single a =>
    exact ⟨[a], .single a, List.nodup_cons.2 ⟨List.not_mem_nil, List.nodup_nil⟩, fun _ hx => hx⟩
  | @cons a' b' c' p e h ih =>
    obtain ⟨q, hq, hn, hs⟩ := ih
    by_cases ha : a' ∈ q
    · obtain ⟨r, hr, hn', hs'⟩ := hq.drop_to_nodup hn ha
      exact ⟨r, hr, hn', fun x hx => List.mem_cons_of_mem _ (hs x (hs' x hx))⟩
    · refine ⟨a' :: q, .cons e hq, List.nodup_cons.2 ⟨ha, hn⟩, fun x hx => ?_⟩
      rcases List.mem_cons.1 hx with rfl | hx
      · exact List.mem_cons_self
      · exact List.mem_cons_of_mem _ (hs x hx)

end Walk

section Guards

variable {α : Type} {E : α → α → Prop} {root a b c d : α}

def Connects (E : α → α → Prop) (root b : α) : Prop := ∃ p, Walk E root b p

/-- A walk leads from the root to `b`, and every such walk leads through `d`. -/
def Guards (E : α → α → Prop) (root d b : α) : Prop :=
  Connects E root b ∧ ∀ p, Walk E root b p → d ∈ p

theorem Connects.refl (E : α → α → Prop) (a : α) : Connects E a a := ⟨_, .single a⟩

theorem Connects.step (h : Connects E root b) (e : E b c) : Connects E root c := by
  obtain ⟨p, hp⟩ := h
  exact ⟨_, hp.snoc e⟩

theorem Connects.trans (h : Connects E root b) (h' : Connects E b c) : Connects E root c := by
  obtain ⟨p, hp⟩ := h
  obtain ⟨q, hq⟩ := h'
  obtain ⟨r, hr, -⟩ := hp.append hq
  exact ⟨r, hr⟩

theorem Connects.guards_self (h : Connects E root b) : Guards E root b b :=
  ⟨h, fun _ hp => hp.end_mem⟩

theorem Connects.guards_root (h : Connects E root b) : Guards E root root b :=
  ⟨h, fun _ hp => hp.start_mem⟩

theorem Guards.connects (h : Guards E root d b) : Connects E root d := by
  obtain ⟨⟨p, hp⟩, hd⟩ := h
  obtain ⟨q, hq, _⟩ := hp.upTo (hd p hp)
  exact ⟨q, hq⟩

theorem Guards.trans (h : Guards E root d c) (j : Guards E root c b) : Guards E root d b := by
  refine ⟨j.1, fun p hp => ?_⟩
  obtain ⟨q, hq, _, hs⟩ := hp.upTo (j.2 p hp)
  exact hs d (h.2 q hq)

/-- Nodes that guard each other are the same: the part of a walk up to one node and the part of that
up to the other cannot become shorter for ever. -/
theorem Guards.antisymm (h : Guards E root d b) (j : Guards E root b d) : d = b := by
  have shrink : ∀ n p, p.length ≤ n → Walk E root b p → d = b := by
    intro n
    induction n with
    | zero =>
      intro p hn hp
      have := List.length_pos_of_mem hp.start_mem
      omega
    | succ n ih =>
      intro p hn hp
      obtain ⟨q, hq, hl, _⟩ := hp.upTo (h.2 p hp)
      rcases hl with hl | hl
      · exact hl
      obtain ⟨r, hr, hl', _⟩ := hq.upTo (j.2 q hq)
      rcases hl' with hl' | hl'
      · exact hl'.symm
      exact ih r (by omega) hr
  obtain ⟨p, hp⟩ := h.1
  exact shrink p.length p (Nat.le_refl _) hp

theorem not_guards_of_sole (hne : d ≠ root) (hsole : ∀ {a}, E a d → a = b) :
    ¬ Guards E root d b := by
  rintro ⟨⟨p, hp⟩, hall⟩
  rcases hp.first_arrival (hall p hp) with he | ⟨c, q, hq, hl, hout, -⟩
  · exact hne he
  · rw [hsole hl] at hq
    exact hout (hall q hq)

theorem Guards.of_step (h : Guards E root d b) (hne : d ≠ b) (ha : Connects E root a) (e : E a b) :
    Guards E root d a := by
  refine ⟨ha, fun p hp => ?_⟩
  rcases List.mem_append.1 (h.2 _ (hp.snoc e)) with hm | hm
  · exact hm
  · exact absurd (List.mem_singleton.1 hm) hne

theorem Guards.root_eq (h : Guards E root d root) : d = root :=
  List.mem_singleton.1 (h.2 _ (.single root))

end Guards

namespace Func

def Leads (f : Func) (a b : BlockId) : Prop :=
  ∃ succs, f.successors a = .ok succs ∧ b ∈ succs

abbrev Path (f : Func) : BlockId → BlockId → List BlockId → Prop := Walk f.Leads

def Closed (f : Func) : Prop :=
  ∀ a ∈ f.blocks, ∀ b, f.Leads a b → b ∈ f.blocks

def Reachable (f : Func) (b : BlockId) : Prop :=
  ∃ entry p, f.entry = .ok entry ∧ f.Path entry b p

def Dominates (f : Func) (d b : BlockId) : Prop :=
  f.Reachable b ∧ ∀ entry p, f.entry = .ok entry → f.Path entry b p → d ∈ p

def StrictlyDominates (f : Func) (d b : BlockId) : Prop :=
  d ≠ b ∧ f.Dominates d b

/-- Block `b` is where the dominance of block `d` ends: control may come to it from a block that `d`
dominates, but in another way as well. -/
def OnFrontier (f : Func) (d b : BlockId) : Prop :=
  (∃ a, f.Leads a b ∧ f.Dominates d a) ∧ ¬ f.StrictlyDominates d b

variable {f : Func} {b c d entry : BlockId}

theorem reachable_iff (he : f.entry = .ok entry) : f.Reachable b ↔ Connects f.Leads entry b := by
  constructor
  · rintro ⟨entry', p, he', hp⟩
    rw [he] at he'
    cases he'
    exact ⟨p, hp⟩
  · rintro ⟨p, hp⟩
    exact ⟨entry, p, he, hp⟩

theorem dominates_iff (he : f.entry = .ok entry) : f.Dominates d b ↔ Guards f.Leads entry d b := by
  unfold Dominates Guards
  rw [reachable_iff he]
  refine and_congr_right fun _ => ⟨fun h p hp => h entry p he hp, fun h entry' p he' hp => ?_⟩
  rw [he] at he'
  cases he'
  exact h p hp

theorem Reachable.step (h : f.Reachable b) (e : f.Leads b c) : f.Reachable c := by
  obtain ⟨entry, p, he, hp⟩ := h
  exact ⟨entry, _, he, hp.snoc e⟩

theorem Reachable.dominates_self (h : f.Reachable b) : f.Dominates b b :=
  ⟨h, fun _ _ _ hp => hp.end_mem⟩

theorem Dominates.reachable (h : f.Dominates d b) : f.Reachable d := by
  obtain ⟨entry, p, he, hp⟩ := h.1
  exact (reachable_iff he).2 ((dominates_iff he).1 h).connects

end Func

end MiddleEnd
