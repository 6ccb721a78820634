import MiddleEnd.ControlFlow.DominatorSearch
import MiddleEnd.Proofs.DominatorTree

/-!
# The search for the dominator tree ends

Every loop of the search comes to an end, no index is out of bounds, and what is found is the tree
of the paths. A search with a stack follows the recursive one. Fingers climb to smaller and smaller
positions since parents come before their children, even while the parents still change; and the
parents stop changing since after as many rounds as there are blocks the ancestors of a block are
its dominators, which leaves no choice of its parent.
-/

namespace MiddleEnd

section Lawful

variable {m : Type → Type} [Monad m] [LawfulMonad m] {α β : Type}

theorem foldlM_pures {f : β → α → m β} {l : List α} {b : β} (I : List α → β → Prop) (start : I [] b)
    (step : ∀ pre x post c, l = pre ++ x :: post → I pre c → ∃ d, f c x = pure d ∧
      I (pre ++ [x]) d) :
    ∃ d, l.foldlM f b = pure d ∧ I l d := by
  induction l generalizing b I with
  | nil => exact ⟨b, rfl, start⟩
  | cons x l ih =>
    obtain ⟨c, hc, hI⟩ := step [] x l b rfl start
    obtain ⟨d, hd, hId⟩ := ih (b := c) (fun pre => I (x :: pre)) hI (by
      intro pre y post c' he hI'
      exact step (x :: pre) y post c' (by rw [he, List.cons_append]) hI')
    exact ⟨d, by rw [List.foldlM_cons, hc, pure_bind, hd], hId⟩

theorem mapM_pures {f : α → m β} {g : α → β} {xs : List α} (h : ∀ x ∈ xs, f x = pure (g x)) :
    xs.mapM f = pure (xs.map g) := by
  induction xs with
  | nil => rfl
  | cons x xs ih =>
    rw [List.mapM_cons, h x List.mem_cons_self, pure_bind,
      ih fun y hy => h y (List.mem_cons_of_mem _ hy), pure_bind]
    rfl

end Lawful

namespace Looping

variable {α : Type} {xs : Array α} {n : Nat} {a : α}

theorem lift_ok (a : α) : (liftM (Except.ok a : Checked α) : Looping α) = pure a := rfl

theorem read_ok (h : xs[n]? = some a) : read xs n = pure a := by
  unfold read
  rw [h]
  rfl

theorem modify_ok (g : α → α) (h : xs[n]? = some a) :
    modify xs n g = pure (xs.setIfInBounds n (g a)) := by
  unfold modify
  rw [read_ok h, pure_bind]

theorem write_ok (a : α) (h : n < xs.size) : write xs n a = pure (xs.setIfInBounds n a) :=
  modify_ok (fun _ => a) (Array.getElem?_eq_getElem h)

section Loop

variable {α β : Type} [Nonempty β] {f : α → Looping (α ⊕ β)} {a a' : α} {b : β}

theorem loop_eq (a : α) : repeatM f a = f a >>= Sum.elim (repeatM f) pure := by
  rw [repeatM_eq_of_monadTail]
  refine congrArg (f a >>= ·) (funext fun x => ?_)
  cases x <;> rfl

theorem loop_next (h : f a = pure (.inl a')) : repeatM f a = repeatM f a' := by
  rw [loop_eq, h, pure_bind]
  rfl

theorem loop_end (h : f a = pure (.inr b)) : repeatM f a = pure b := by
  rw [loop_eq, h, pure_bind]
  rfl

end Loop

end Looping

namespace DominatorTree

section Stack

variable {succs : BlockId → Checked (List BlockId)} {s c : Search.State BlockId}

theorem traverse_nil : traverse succs [] s = pure s :=
  Looping.loop_end rfl

theorem traverse_finished {b : BlockId} (stack : List BlockId) (hs : b ∈ s.seen)
    (hf : b ∈ s.finished) :
    traverse succs (b :: stack) s = traverse succs stack s :=
  Looping.loop_next (by dsimp only; rw [if_pos hs, if_pos hf])

theorem traverse_open {b : BlockId} (stack : List BlockId) (hs : b ∈ s.seen) (hf : b ∉ s.finished) :
    traverse succs (b :: stack) s = traverse succs stack { s with finished := b :: s.finished } :=
  Looping.loop_next (by dsimp only; rw [if_pos hs, if_neg hf])

theorem traverse_new {b : BlockId} {ys : List BlockId} (stack : List BlockId) (hs : b ∉ s.seen)
    (h : succs b = .ok ys) :
    traverse succs (b :: stack) s =
      traverse succs (ys.filter (· ∉ b :: s.seen) ++ b :: stack) { s with seen := b :: s.seen } :=
  Looping.loop_next (by dsimp only; rw [if_neg hs, h, Looping.lift_ok, pure_bind])

/-- Working off the nodes that are not met yet, of some that are to be visited, does what the visits
do. What is met in between is finished by the time it comes up. -/
theorem traverse_visits {depth : Nat} {met : List BlockId} (stack : List BlockId)
    (visit : ∀ {s c : Search.State BlockId} {b : BlockId} (stack : List BlockId),
      Search.visit succs depth s b = .ok c → (∀ y ∈ s.finished, y ∈ s.seen) →
      (b ∈ s.seen → b ∈ s.finished) →
        traverse succs (b :: stack) s = traverse succs stack c)
    {ys : List BlockId} (h : ys.foldlM (Search.visit succs depth) s = .ok c)
    (hs : ∀ y ∈ s.finished, y ∈ s.seen) (hmet : ∀ y ∈ met, y ∈ s.seen)
    (hnew : ∀ y ∈ s.seen, y ∉ met → y ∈ s.finished) :
    traverse succs (ys.filter (· ∉ met) ++ stack) s = traverse succs stack c := by
  induction ys generalizing s with
  | nil =>
    cases h
    rfl
  | cons y ys ih =>
    rw [List.foldlM_cons] at h
    obtain ⟨d, hd, h⟩ := bind_eq_ok.1 h
    by_cases hy : y ∈ met
    · rw [Search.visit_of_seen (hmet y hy)] at hd
      cases hd
      rw [List.filter_cons_of_neg (by simpa using hy)]
      exact ih h hs hmet hnew
    · obtain ⟨hadv, hfin⟩ := Search.visit_advance hd hs
      rw [List.filter_cons_of_pos (by simpa using hy), List.cons_append,
        visit _ hd hs fun hm => hnew y hm hy]
      refine ih h hfin (fun z hz => hadv.seen z (hmet z hz)) fun z hz hn => ?_
      rcases hadv.settled z hz with hz | hz
      · obtain ⟨new, hnew', -⟩ := hadv.finished
        rw [hnew']
        exact List.mem_append_right _ (hnew z hz hn)
      · exact hz

theorem traverse_visit {depth : Nat} {b : BlockId} (stack : List BlockId)
    (h : Search.visit succs depth s b = .ok c) (hs : ∀ y ∈ s.finished, y ∈ s.seen)
    (hb : b ∈ s.seen → b ∈ s.finished) :
    traverse succs (b :: stack) s = traverse succs stack c := by
  induction depth generalizing s c b stack with
  | zero =>
    unfold Search.visit at h
    split at h
    · rename_i hseen
      cases h
      exact traverse_finished stack hseen (hb hseen)
    · cases h
  | succ depth ih =>
    unfold Search.visit at h
    split at h
    · rename_i hseen
      cases h
      exact traverse_finished stack hseen (hb hseen)
    · rename_i hnew
      obtain ⟨ys, hys, h⟩ := bind_eq_ok.1 h
      obtain ⟨d, hd, h⟩ := bind_eq_ok.1 h
      cases h
      have hopen : b ∉ s.finished := fun hm => hnew (hs b hm)
      have hs' : ∀ y ∈ s.finished, y ∈ b :: s.seen := fun y hy => List.mem_cons_of_mem _ (hs y hy)
      obtain ⟨hadv, -⟩ := Search.visits_advance Search.visit_advance hd hs'
      obtain ⟨hseen, hunfinished⟩ := hadv.open (x := b) List.mem_cons_self hopen
      rw [traverse_new stack hnew hys]
      rw [traverse_visits (b :: stack) ih hd hs' (fun y hy => hy) fun y hy hn => absurd hy hn]
      exact traverse_open stack hseen hunfinished

theorem traverse_ok {depth : Nat} {root : BlockId} {order : List BlockId}
    (h : Search.reversePostOrder succs depth [root] = .ok order) :
    ∃ found, traverse succs [root] {} = pure found ∧ found.finished = order := by
  obtain ⟨s, hs, h⟩ := bind_eq_ok.1 h
  cases h
  rw [List.foldlM_cons] at hs
  obtain ⟨s', hs', h⟩ := bind_eq_ok.1 hs
  cases h
  refine ⟨s, ?_, rfl⟩
  rw [traverse_visit [] hs' (fun _ hy => absurd hy List.not_mem_nil) (fun hy =>
    absurd hy List.not_mem_nil), traverse_nil]

end Stack

/-- The array holds what a function says of every block with a number below a bound. -/
def Tabled {α : Type} (bound : Nat) (xs : Array α) (g : BlockId → α) : Prop :=
  ∀ b : BlockId, b.index < bound → xs[b.index]? = some (g b)

theorem tabled_replicate {α : Type} (bound : Nat) (a : α) :
    Tabled bound (Array.replicate bound a) fun _ => a :=
  fun b hb => by rw [Array.getElem?_replicate, if_pos hb]

theorem Tabled.modify {α : Type} {bound : Nat} {xs : Array α} {g : BlockId → α}
    (h : Tabled bound xs g) {b : BlockId} (hb : b.index < bound) (u : α → α) :
    ∃ ys, Looping.modify xs b.index u = pure ys ∧ Tabled bound ys fun c => if c = b then u
      (g b) else g c := by
  refine ⟨_, Looping.modify_ok u (h b hb), fun c hc => ?_⟩
  rw [Array.getElem?_setIfInBounds]
  dsimp only
  by_cases hcb : c = b
  · subst hcb
    rw [if_pos rfl, if_pos rfl, if_pos (Array.getElem?_eq_some_iff.1 (h c hb)).1]
  · have hne : b.index ≠ c.index := fun he => hcb (Key.index_inj he).symm
    rw [if_neg hcb, if_neg hne, h c hc]

theorem Tabled.write {α : Type} {bound : Nat} {xs : Array α} {g : BlockId → α}
    (h : Tabled bound xs g) {b : BlockId} (hb : b.index < bound) (a : α) :
    ∃ ys, Looping.write xs b.index a = pure ys ∧ Tabled bound ys fun c =>
      if c = b then a else g c :=
  h.modify hb fun _ => a

theorem Tabled.congr {α : Type} {bound : Nat} {xs : Array α} {g g' : BlockId → α}
    (h : Tabled bound xs g) (he : ∀ b, g b = g' b) : Tabled bound xs g' :=
  fun b hb => by rw [h b hb, he]

theorem positions_ok {bound : Nat} {order : List BlockId} (hn : order.Nodup)
    (hb : ∀ b ∈ order, b.index < bound) :
    ∃ index, positions bound order = pure index ∧ Tabled bound index (order.idxOf? ·) := by
  obtain ⟨index, hindex, htab⟩ := foldlM_pures (m := Looping) (l := order.zipIdx)
    (f := fun index (x : BlockId × Nat) => Looping.write index x.1.index (some x.2))
    (b := Array.replicate bound none) (fun pre index => Tabled bound index fun b =>
    if b ∈ pre.map Prod.fst then order.idxOf? b else none) (tabled_replicate bound none) (by
      rintro pre ⟨b, n⟩ post index hsplit htab
      have hget : order[n]? = some b :=
        List.mem_zipIdx_iff_getElem?.1 (hsplit ▸ List.mem_append_right _ List.mem_cons_self)
      obtain ⟨index', hwrite, htab'⟩ := htab.write (hb b (List.mem_of_getElem? hget)) (some n)
      refine ⟨index', hwrite, htab'.congr fun c => ?_⟩
      rw [List.map_append, List.map_singleton]
      by_cases hcb : c = b
      · subst hcb
        rw [if_pos rfl, if_pos (List.mem_append_right _ List.mem_cons_self),
          (idxOf?_eq_some hn).2 hget]
      · simp only [hcb, if_false, List.mem_append, List.mem_singleton, or_false])
  refine ⟨index, hindex, htab.congr fun b => ?_⟩
  rw [List.zipIdx_map_fst]
  by_cases hm : b ∈ order
  · rw [if_pos hm]
  · rw [if_neg hm]
    exact (List.idxOf?_eq_none_iff.2 hm).symm

section Fingers

variable {P : Parents} {i j : Nat}

theorem retreat_ok (hP : Grounded P) (hi : Chosen P i) :
    ∃ i', retreat P (some j) (some i) = pure (some i') ∧ Chosen P i' ∧ i' ≤ j ∧ i' ≤ i ∧
      (j < i → i' < i) ∧
      ∀ a, a ≤ j → (Up P a i' ↔ Up P a i) := by
  induction i using Nat.strongRecOn with
  | ind i ih =>
    by_cases hlt : j < i
    · obtain ⟨p, hp⟩ := id hi
      obtain ⟨hpi, hpc⟩ := hP hp (by omega)
      obtain ⟨i', hrun, hc, hj, hle, -, hup⟩ := ih p hpi hpc
      refine ⟨i', ?_, hc, hj, by omega, fun _ => by omega, fun a ha => ?_⟩
      · rw [← hrun]
        refine Looping.loop_next ?_
        rw [if_pos (by simpa [isAfter] using hlt)]
        simp only [lookup]
        rw [Looping.read_ok hp, pure_bind]
      · rw [hup a ha, up_iff (k := i), parentOf_eq hp]
        constructor
        · exact fun h => .inr ⟨by omega, h⟩
        · rintro (rfl | ⟨-, h⟩)
          · omega
          · exact h
    · refine ⟨i, Looping.loop_end ?_, hi, by omega, Nat.le_refl i, fun h => absurd h hlt,
        fun _ _ => Iff.rfl⟩
      rw [if_neg (by simpa [isAfter] using hlt)]

theorem join_ok (hP : Grounded P) (hi : Chosen P i) (hj : Chosen P j) :
    ∃ k, join P (some i) (some j) = pure (some k) ∧ Chosen P k ∧ ∀ a, Up P a k ↔ Up P a i ∧
      Up P a j := by
  induction hs : i + j using Nat.strongRecOn generalizing i j with
  | ind s ih =>
    by_cases hij : i = j
    · subst hij
      exact ⟨i, Looping.loop_end (if_pos rfl), hi, fun a => by rw [and_self]⟩
    · obtain ⟨i', hrun, hi', hle, hle', hlt, hup⟩ := retreat_ok (j := j) hP hi
      obtain ⟨j', hrun', hj', hle₂, hle₂', hlt₂, hup₂⟩ := retreat_ok (j := i') hP hj
      obtain ⟨k, hk, hkc, hkup⟩ := ih (i' + j') (by omega) hi' hj' rfl
      refine ⟨k, ?_, hkc, fun a => ?_⟩
      · rw [← hk]
        refine Looping.loop_next ?_
        dsimp only
        rw [if_neg fun he => hij (Option.some.inj he), hrun, pure_bind, hrun', pure_bind]
      · rw [hkup]
        constructor
        · rintro ⟨h, h'⟩
          exact ⟨(hup a (Nat.le_trans (h.le hP.falls) hle)).1 h, (hup₂ a (h.le hP.falls)).1 h'⟩
        · rintro ⟨h, h'⟩
          have hai := (hup a (h'.le hP.falls)).2 h
          exact ⟨hai, (hup₂ a (hai.le hP.falls)).2 h'⟩

theorem joins_ok (hP : Grounded P) {ps : List Nat} {p : Nat} (hall : ∀ q ∈ p :: ps, Chosen P q) :
    ∃ k, (ps.map some).foldlM (join P) (some p) = pure (some k) ∧ ∀ a, Up P a k ↔
      ∀ q ∈ p :: ps, Up P a q := by
  induction ps generalizing p with
  | nil => exact ⟨p, rfl, fun a => by simp⟩
  | cons q ps ih =>
    obtain ⟨k, hk, hkc, hup⟩ := join_ok hP (hall p List.mem_cons_self) (hall q (by simp))
    obtain ⟨m, hm, hmup⟩ := ih (p := k) fun x hx => by
      rcases List.mem_cons.1 hx with rfl | hx
      · exact hkc
      · exact hall x (by simp [hx])
    refine ⟨m, by rw [List.map_cons, List.foldlM_cons, hk, pure_bind, hm], fun a => ?_⟩
    rw [hmup]
    simp only [List.forall_mem_cons, hup, and_assoc]

end Fingers

theorem Up.antisymm {P : Parents} (hP : Falls P) {i j : Nat} (h : ∀ a, Up P a i ↔ Up P a j) :
    i = j :=
  Nat.le_antisymm (((h i).1 (.refl i)).le hP) (((h j).2 (.refl j)).le hP)

theorem parentOf_unique {P Q : Parents} (hP : Falls P) (hQ : Falls Q) {k : Nat} (hk : 0 < k)
    (h : ∀ a, Up P a k ↔ Up Q a k) : parentOf P k = parentOf Q k := by
  have key : ∀ {P Q : Parents}, Falls P → Falls Q → (∀ a, Up P a k ↔ Up Q a k) →
      parentOf P k ≤ parentOf Q k := by
    intro P Q hP hQ h
    have hup : Up Q (parentOf P k) k := (h _).1 (.climb hk (.refl _))
    rcases up_iff.1 hup with he | ⟨-, hup⟩
    · have := hP k hk
      omega
    · exact hup.le hQ
  exact Nat.le_antisymm (key hP hQ h) (key hQ hP fun a => (h a).symm)

/-- The blocks in their order, with what can be looked up of them. -/
structure Mapped (f : Func) (e : Edges) (bound : Nat) (order : List BlockId)
    (index : Array (Option Nat)) : Prop where
  nodup : order.Nodup
  preds : ∀ b ∈ order, ∃ ps, e.preds b = .ok ps ∧ ∀ p, p ∈ ps ↔ f.Leads p b
  small : ∀ {p b}, f.Leads p b → p.index < bound
  index : Tabled bound index (order.idxOf? ·)

section Rounds

variable {f : Func} {e : Edges} {bound : Nat} {order : List BlockId}
  {index : Array (Option Nat)} {P : Parents} {preds : Nat → List Nat} {r k : Nat}

theorem filter_isSome_map {α β : Type} (g : α → Option β) (xs : List α) :
    (xs.map g).filter Option.isSome = (xs.filterMap g).map some := by
  induction xs with
  | nil => rfl
  | cons x xs ih =>
    rw [List.map_cons, List.filterMap_cons]
    cases hx : g x with
    | none => rw [List.filter_cons_of_neg (by simp), ih]
    | some y => rw [List.filter_cons_of_pos (by simp), ih, List.map_cons]

theorem processed_ok (hm : Mapped f e bound order index) (hs : P.size = order.length) {b : BlockId}
    (hb : order[k]? = some b) :
    ∃ ps ns, e.preds b = .ok ps ∧ ps.mapM (processed? index P) = pure ns ∧
      ∃ qs : List Nat, ns.filter Option.isSome = qs.map some ∧ ∀ q, q ∈ qs ↔ Link f order q k ∧
        Chosen P q := by
  obtain ⟨ps, hps, hmem⟩ := hm.preds b (List.mem_of_getElem? hb)
  let found : BlockId → Option Nat :=
    fun p => (order.idxOf? p).bind fun n => (P[n]?.join).map fun _ => n
  have hrun : ∀ p ∈ ps, processed? index P p = pure (found p) := by
    intro p hp
    unfold processed?
    rw [Looping.read_ok (hm.index p (hm.small ((hmem p).1 hp))), pure_bind]
    simp only [found]
    cases hn : order.idxOf? p with
    | none => rfl
    | some n =>
      have hlt : n < P.size := by
        rw [hs]
        exact (List.getElem?_eq_some_iff.1 ((idxOf?_eq_some hm.nodup).1 hn)).1
      have hget : P[n]? = some P[n] := Array.getElem?_eq_getElem hlt
      rw [Option.bind_some, hget]
      simp only
      rw [Looping.read_ok hget, pure_bind]
      rfl
  refine ⟨ps, _, hps, mapM_pures hrun, ps.filterMap found, filter_isSome_map found ps, fun q => ?_⟩
  rw [List.mem_filterMap]
  simp only [found, Option.bind_eq_some_iff, Option.map_eq_some_iff]
  constructor
  · rintro ⟨p, hp, n, hn, o, ho, rfl⟩
    refine ⟨⟨p, b, (idxOf?_eq_some hm.nodup).1 hn, hb, (hmem p).1 hp⟩, chosen_iff.1 ?_⟩
    rw [ho]
    rfl
  · rintro ⟨⟨p, b', hp, hb', hl⟩, hc⟩
    rw [hb] at hb'
    cases hb'
    obtain ⟨o, ho⟩ := Option.isSome_iff_exists.1 (chosen_iff.2 hc)
    exact ⟨p, (hmem p).2 hl, q, (idxOf?_eq_some hm.nodup).2 hp, o, ho, rfl⟩

/-- The fingers of the predecessors that have a parent meet where the bounded construction meets: at
the nearest common ancestor. -/
theorem fingers_meet {E : Nat → Nat → Prop} {n q : Nat} (hr : Ranked E n preds)
    (h : Progress E n r k P) (hk : 0 < k) (hn : k < n) {qs : List Nat}
    (hmem : ∀ p, p ∈ qs ↔ E p k ∧ Chosen P p) (hq : meetAll P (preds k) = some q) :
    ∃ first rest, qs = first :: rest ∧ (rest.map some).foldlM (join P) (some first) = pure
      (some q) := by
  obtain ⟨p, hp, hpk⟩ := hr.earlier hk hn
  have hchosen := h.done p (by omega) (.inl hpk)
  obtain ⟨first, rest, rfl⟩ :=
    List.exists_cons_of_ne_nil (List.ne_nil_of_mem ((hmem p).2 ⟨hp, hchosen⟩))
  obtain ⟨m, hjoin, hup⟩ := joins_ok h.below fun x hx => ((hmem x).1 hx).2
  obtain ⟨q', hq', hup'⟩ := meetAll_spec h.falls ⟨p, (hr.preds_iff hk hn).2 hp, hchosen⟩
  cases hq.symm.trans hq'
  obtain rfl : m = q := by
    refine Up.antisymm h.falls fun a => ?_
    rw [hup, hup']
    constructor
    · exact fun hall x hx hc => hall x ((hmem x).2 ⟨(hr.preds_iff hk hn).1 hx, hc⟩)
    · exact fun hall x hx => hall x ((hr.preds_iff hk hn).2 ((hmem x).1 hx).1) ((hmem x).1 hx).2
  exact ⟨first, rest, rfl, hjoin⟩

theorem choose_ok (hm : Mapped f e bound order index)
    (hr : Ranked (Link f order) order.length preds) (h : Progress (Link f order) order.length r k P)
    (hr₁ : 1 ≤ r) (hk : 0 < k) (hn : k < order.length) :
    ∃ Q c, choose e order.toArray index P k = pure (Q, c) ∧ Progress
      (Link f order) order.length r (k + 1) Q ∧ (c = false → Q = P) ∧
      (order.length < r → 1 < r → c = false) := by
  have hb : order[k]? = some order[k] := List.getElem?_eq_getElem hn
  obtain ⟨ps, ns, hps, hns, qs, hfilter, hmem⟩ := processed_ok hm h.size hb
  obtain ⟨q, hq, hnext⟩ := h.step hr hr₁ hk hn
  have hks : k < P.size := by
    rw [h.size]
    exact hn
  have hset : (P.setIfInBounds k (some q))[k]? = some (some q) := by
    rw [getElem?_choose hks, if_pos rfl]
  obtain ⟨first, rest, rfl, hjoin⟩ := fingers_meet hr h hk hn hmem hq
  have hrun : choose e order.toArray index P k =
      if P[k] = some q then pure (P, false) else pure (P.setIfInBounds k (some q), true) := by
    unfold choose
    rw [Looping.read_ok (by rw [List.getElem?_toArray]; exact hb), pure_bind, hps, Looping.lift_ok,
      pure_bind, hns, pure_bind, hfilter, List.map_cons]
    dsimp only
    rw [hjoin, pure_bind, Looping.read_ok (Array.getElem?_eq_getElem hks), pure_bind,
      Looping.write_ok _ hks, pure_bind]
  by_cases hold : P[k] = some q
  · have hsame : P.setIfInBounds k (some q) = P := by
      refine Array.ext_getElem? fun j => ?_
      rw [getElem?_choose hks]
      split
      · rename_i hj
        rw [hj, Array.getElem?_eq_getElem hks, hold]
      · rfl
    exact ⟨P, false, by rw [hrun, if_pos hold], hsame ▸ hnext, fun _ => rfl, fun _ _ => rfl⟩
  · refine ⟨_, true, by rw [hrun, if_neg hold], hnext, fun hc => (by cases hc), fun hrn h1 => ?_⟩
    have hguards := fun a => (h.up_iff_guards (a := a) hr hrn h1 hn).trans
      (hnext.up_iff_guards hr hrn h1 hn).symm
    obtain ⟨p, hp⟩ := h.done k hn (.inr h1)
    have hpm := parentOf_unique h.falls hnext.falls hk hguards
    rw [parentOf_eq hp, parentOf_eq hset] at hpm
    rw [Array.getElem?_eq_getElem hks, hpm] at hp
    exact absurd (Option.some.inj hp) hold

theorem sweep_ok (hm : Mapped f e bound order index) (hr : Ranked (Link f order) order.length preds)
    (h : Progress (Link f order) order.length r 1 P) (hr₁ : 1 ≤ r) :
    ∃ Q c, sweep e order.toArray index P = pure (Q, c) ∧ Progress
      (Link f order) order.length (r + 1) 1 Q ∧ (c = false → Q = P) ∧
      (order.length < r → 1 < r → c = false) := by
  obtain ⟨⟨Q, c⟩, hrun, hprog, hsame, hnone⟩ := foldlM_pures (m := Looping)
    (l := List.range' 1 (order.toArray.size - 1)) (b := (P, false))
    (f := fun (x : Parents × Bool) n => do
      let y ← choose e order.toArray index x.1 n
      return (y.1, x.2 || y.2))
    (fun pre x => Progress (Link f order) order.length r (pre.length + 1) x.1 ∧
    (x.2 = false → x.1 = P) ∧
      (order.length < r → 1 < r → x.2 = false))
    ⟨h, fun _ => rfl, fun _ _ => rfl⟩ (by
      rintro pre n post ⟨R, c⟩ hsplit ⟨hprog, hsame, hnone⟩
      have hlen : pre.length < order.length - 1 := by
        have := congrArg List.length hsplit
        rw [List.length_range', List.length_append, List.length_cons, List.size_toArray] at this
        omega
      obtain rfl : n = pre.length + 1 := by
        have hget : (pre ++ n :: post)[pre.length]? = some n := by simp
        rw [← hsplit, List.getElem?_range' (by rw [List.size_toArray]; exact hlen)] at hget
        have := Option.some.inj hget
        omega
      obtain ⟨Q, c', hrun, hprog', hsame', hnone'⟩ :=
        choose_ok hm hr hprog hr₁ (Nat.succ_pos _) (by omega)
      refine ⟨(Q, c || c'), ?_, ?_, fun hc => ?_, fun hrn h1 => ?_⟩
      · dsimp only
        rw [hrun, pure_bind]
      · rw [List.length_append, List.length_singleton]
        exact hprog'
      · obtain ⟨hc, hc'⟩ := Bool.or_eq_false_iff.1 hc
        exact (hsame' hc').trans (hsame hc)
      · exact Bool.or_eq_false_iff.2 ⟨hnone hrn h1, hnone' hrn h1⟩)
  refine ⟨Q, c, hrun, Progress.next_round ?_ hr, hsame, hnone⟩
  have hlen : (List.range' 1 (order.toArray.size - 1)).length + 1 = order.length := by
    rw [List.length_range', List.size_toArray]
    have := hr.pos
    omega
  rw [hlen] at hprog
  exact hprog

theorem settle_ok (hm : Mapped f e bound order index)
    (hr : Ranked (Link f order) order.length preds) :
    ∀ n r P, 1 ≤ r → order.length + 2 ≤ r + n → Progress (Link f order) order.length r 1 P →
      ∃ Q m, settle e order.toArray index P = pure Q ∧ order.length < m ∧ 1 < m ∧
        Progress (Link f order) order.length m 1 Q := by
  intro n
  induction n with
  | zero =>
    intro r P hr₁ hle h
    obtain ⟨Q, c, hrun, -, hsame, hnone⟩ := sweep_ok hm hr h hr₁
    obtain rfl := hnone (by omega) (by omega)
    obtain rfl := hsame rfl
    exact ⟨Q, r, Looping.loop_end (by rw [hrun, pure_bind]; rfl), by omega, by omega, h⟩
  | succ n ih =>
    intro r P hr₁ hle h
    obtain ⟨Q, c, hrun, hnext, hsame, hnone⟩ := sweep_ok hm hr h hr₁
    cases c with
    | true =>
      obtain ⟨R, m, hsettle, hm'⟩ := ih (r + 1) Q (by omega) (by omega) hnext
      exact ⟨R, m, (Looping.loop_next (by rw [hrun, pure_bind]; rfl)).trans hsettle, hm'⟩
    | false =>
      obtain rfl := hsame rfl
      -- What a round does not change has gone through any number of rounds.
      have forever : ∀ s, Progress (Link f order) order.length (r + s) 1 Q := by
        intro s
        induction s with
        | zero => exact h
        | succ s ihs =>
          obtain ⟨R, c, hrun', hnext', -⟩ := sweep_ok hm hr ihs (by omega)
          rw [hrun] at hrun'
          cases hrun'
          exact hnext'
      exact ⟨Q, r + (n + 1), Looping.loop_end (by rw [hrun, pure_bind]; rfl), by omega,
        by omega, forever _⟩

end Rounds

def Ranking.level (r : Ranking) (b : BlockId) : Nat :=
  ((r.position? b).map (depthOf r.parents)).getD 0

section Tree

variable {f : Func} {entry : BlockId} {r : Ranking} {bound : Nat} {P : Parents}

theorem Ranking.Faithful.level_entry (h : r.Faithful f entry) : r.level entry = 0 := by
  have hlt : 0 < r.parents.size := by
    rw [h.size]
    exact (List.getElem?_eq_some_iff.1 h.listing.head).1
  unfold Ranking.level
  rw [h.position?_eq.2 h.listing.head, Option.map_some, Option.getD_some,
    (levels_spec h.falls).2 0 hlt, if_pos rfl]

theorem Ranking.Faithful.level_eq (h : r.Faithful f entry) {b d : BlockId} {k : Nat} (h0 : 0 < k)
    (hk : r.order[k]? = some b) (hd : r.order[parentOf r.parents k]? = some d) :
    r.level b = r.level d + 1 := by
  have hlt : k < r.parents.size := by
    rw [h.size]
    exact (List.getElem?_eq_some_iff.1 hk).1
  unfold Ranking.level
  rw [h.position?_eq.2 hk, h.position?_eq.2 hd, Option.map_some, Option.map_some, Option.getD_some,
    Option.getD_some, (levels_spec h.falls).2 k hlt, if_neg (by omega)]

theorem Ranking.Faithful.idom?_entry (h : r.Faithful f entry) : r.idom? entry = none := by
  rw [h.idom?_eq h.listing.head, if_pos rfl]

/-- What the arrays say once some blocks hang below their parents. -/
structure Hung (r : Ranking) (bound : Nat) (done : List BlockId) (t : Branches) : Prop where
  idoms : Tabled bound t.idoms fun b => if b ∈ done then r.idom? b else none
  children : Tabled bound t.children fun d => done.filter fun c => r.idom? c = some d
  levels : Tabled bound t.levels fun b => if b ∈ done then r.level b else 0

/-- A block is hung below its parent, once all blocks between the entry and it are. -/
theorem Hung.step (h : r.Faithful f entry) (hb : ∀ b ∈ r.order, b.index < bound)
    (hP : ∀ k, 0 < k → k < r.order.length → P[k]? = some (some (parentOf r.parents k)))
    {done : List BlockId} {t : Branches} (ht : Hung r bound done t) {k : Nat} {b : BlockId}
    (h0 : 0 < k) (hk : r.order[k]? = some b)
    (hdone : ∀ {p d}, 0 < p → p < k → r.order[p]? = some d → d ∈ done) :
    ∃ u, hang r.order.toArray P t b k = pure u ∧ Hung r bound (done ++ [b]) u := by
  have hlt := (List.getElem?_eq_some_iff.1 hk).1
  have hfall := h.falls k h0
  obtain ⟨d, hd⟩ := h.parent_block hlt h0
  have hidom : r.idom? b = some d := by rw [h.idom?_eq hk, if_neg (by omega), hd]
  have hbb := hb b (List.mem_of_getElem? hk)
  have hdb := hb d (List.mem_of_getElem? hd)
  have hlevel : Looping.read t.levels d.index = pure (r.level d) := by
    rw [Looping.read_ok (ht.levels d hdb)]
    dsimp only
    split
    · rfl
    · rename_i hm
      have hp0 : parentOf r.parents k = 0 :=
        Classical.byContradiction fun hp => hm (hdone (Nat.pos_of_ne_zero hp) hfall hd)
      rw [hp0, h.listing.head] at hd
      cases hd
      rw [h.level_entry]
  obtain ⟨idoms, hidoms, htab⟩ := ht.idoms.write hbb (some d)
  obtain ⟨children, hchildren, htab'⟩ := ht.children.modify hdb (· ++ [b])
  obtain ⟨levels, hlevels, htab''⟩ := ht.levels.write hbb (r.level d + 1)
  refine ⟨⟨idoms, children, levels⟩, ?_, htab.congr fun c => ?_, htab'.congr fun c => ?_,
    htab''.congr fun c => ?_⟩
  · unfold hang
    rw [Looping.read_ok (hP k h0 hlt), pure_bind]
    simp only [lookup]
    rw [Looping.read_ok (by rw [List.getElem?_toArray]; exact hd), pure_bind, hidoms, pure_bind,
      hchildren, pure_bind, hlevel, pure_bind, hlevels, pure_bind]
  · simp only [List.mem_append, List.mem_singleton]
    by_cases hcb : c = b
    · rw [if_pos hcb, if_pos (.inr hcb), hcb, hidom]
    · simp only [hcb, if_false, or_false]
  · rw [List.filter_append]
    by_cases hcd : c = d
    · subst hcd
      rw [if_pos rfl, List.filter_cons_of_pos (by rw [hidom]; simp), List.filter_nil]
    · have hne : ¬ r.idom? b = some c := fun he => hcd (Option.some.inj (he.symm.trans hidom))
      rw [if_neg hcd, List.filter_cons_of_neg (by simpa using hne), List.filter_nil,
        List.append_nil]
  · simp only [List.mem_append, List.mem_singleton]
    by_cases hcb : c = b
    · rw [if_pos hcb, if_pos (.inr hcb), hcb, h.level_eq h0 hk hd]
    · simp only [hcb, if_false, or_false]

/-- All blocks but the entry are hung below their parents. -/
theorem hang_ok (h : r.Faithful f entry) (hb : ∀ b ∈ r.order, b.index < bound)
    (hP : ∀ k, 0 < k → k < r.order.length → P[k]? = some (some (parentOf r.parents k))) :
    ∃ t, r.order.zipIdx.tail.foldlM (fun t (b, n) => hang r.order.toArray P t b n)
        { idoms := Array.replicate bound none
          children := Array.replicate bound []
          levels := Array.replicate bound 0 } =
        pure t ∧
      Tabled bound t.idoms r.idom? ∧ Tabled bound t.children
        (fun d => r.order.filter fun c => r.idom? c = some d) ∧
      Tabled bound t.levels r.level := by
  obtain ⟨rest, horder⟩ : ∃ rest, r.order = entry :: rest :=
    List.head?_eq_some_iff.1 (List.head?_eq_getElem?.trans h.listing.head)
  have hzip : r.order.zipIdx.tail = rest.zipIdx 1 := by
    rw [horder]
    rfl
  obtain ⟨t, hrun, ht⟩ := foldlM_pures (m := Looping) (l := r.order.zipIdx.tail)
    (f := fun (t : Branches) (x : BlockId × Nat) => hang r.order.toArray P t x.1 x.2)
    (b := { idoms := Array.replicate bound none
            children := Array.replicate bound []
            levels := Array.replicate bound 0 })
    (fun pre t => Hung r bound (pre.map Prod.fst) t)
    ⟨tabled_replicate bound none, tabled_replicate bound [], tabled_replicate bound 0⟩ (by
      rintro pre ⟨b, k⟩ post t hsplit ht
      rw [List.map_append, List.map_singleton]
      have hmem : (b, k) ∈ rest.zipIdx 1 := by
        rw [← hzip, hsplit]
        exact List.mem_append_right _ List.mem_cons_self
      obtain ⟨h1, hget⟩ := List.mem_zipIdx_iff_le_and_getElem?_sub.1 hmem
      have hlen : k = pre.length + 1 := (zipIdx_split (hzip ▸ hsplit)).1.trans (Nat.add_comm 1 _)
      have hrest : rest = pre.map Prod.fst ++ b :: post.map Prod.fst := by
        rw [← List.zipIdx_map_fst 1 rest, ← hzip, hsplit, List.map_append, List.map_cons]
      refine ht.step h hb hP (by omega) ?_ fun {p d} hp0 hpk hd => ?_
      · rw [horder, hlen, List.getElem?_cons_succ, hrest]
        simp
      · obtain ⟨p, rfl⟩ : ∃ q, p = q + 1 := ⟨p - 1, by omega⟩
        rw [horder, List.getElem?_cons_succ, hrest,
          List.getElem?_append_left (by rw [List.length_map]; omega)] at hd
        exact List.mem_of_getElem? hd)
  have hfst : r.order.zipIdx.tail.map Prod.fst = rest := by
    rw [hzip, List.zipIdx_map_fst]
  rw [hfst] at ht
  have hmem : ∀ {b}, b ∉ rest → b = entry ∨ b ∉ r.order := by
    intro b hm
    rw [horder]
    by_cases he : b = entry
    · exact .inl he
    · exact .inr fun hin => hm ((List.mem_cons.1 hin).resolve_left he)
  refine ⟨t, hrun, ht.idoms.congr fun b => ?_, ht.children.congr fun d => ?_,
    ht.levels.congr fun b => ?_⟩
  · split
    · rfl
    · rename_i hm
      rcases hmem hm with rfl | hn
      · exact h.idom?_entry.symm
      · exact (h.idom?_none hn).symm
  · rw [horder, List.filter_cons_of_neg (by rw [h.idom?_entry]; simp)]
  · split
    · rfl
    · rename_i hm
      rcases hmem hm with rfl | hn
      · exact h.level_entry.symm
      · unfold Ranking.level
        cases hp : r.position? b with
        | none => rfl
        | some k => exact absurd (List.mem_of_getElem? (h.position?_eq.1 hp)) hn

/-- The sets in the array hold what a relation says of every block. -/
def Bordered (bound : Nat) (F : Array (KeySet BlockId)) (R : BlockId → BlockId → Prop) : Prop :=
  ∃ g, Tabled bound F g ∧ ∀ x y, y ∈ g x ↔ R x y

theorem Bordered.congr {F : Array (KeySet BlockId)} {R R' : BlockId → BlockId → Prop}
    (h : Bordered bound F R) (he : ∀ x y, R x y ↔ R' x y) : Bordered bound F R' := by
  obtain ⟨g, hg, hmem⟩ := h
  exact ⟨g, hg, fun x y => (hmem x y).trans (he x y)⟩

/-- A walk up the tree comes to its end and puts the block into the frontiers on the way. -/
theorem spread_ok (h : r.Faithful f entry) (hb : ∀ b ∈ r.order, b.index < bound)
    {idoms : Array (Option BlockId)} (hi : Tabled bound idoms r.idom?) (b : BlockId)
    (stop : Option BlockId) :
    ∀ k fuel {runner F R}, k < fuel → r.order[k]? = some runner → Bordered bound F R →
      ∃ G, spread idoms b stop runner F = pure G ∧
        Bordered bound G fun x y => R x y ∨ (y = b ∧ x ∈ climb r.idom? stop fuel runner) := by
  intro k
  induction k using Nat.strongRecOn with
  | ind k ih =>
    intro fuel runner F R hfuel hk hF
    obtain ⟨fuel, rfl⟩ : ∃ m, fuel = m + 1 := ⟨fuel - 1, by omega⟩
    have hrb := hb runner (List.mem_of_getElem? hk)
    simp only [climb]
    by_cases hstop : some runner = stop
    · rw [if_pos hstop]
      exact ⟨F, Looping.loop_end (if_pos hstop), hF.congr fun x y => by simp⟩
    · rw [if_neg hstop]
      have hread : Looping.read idoms runner.index = pure (r.idom? runner) :=
        Looping.read_ok (hi runner hrb)
      obtain ⟨g, hg, hmem⟩ := hF
      obtain ⟨G, hG, hg'⟩ := hg.modify hrb (·.insert b)
      have hG' : Bordered bound G fun x y => R x y ∨ (y = b ∧ x = runner) := by
        refine ⟨_, hg', fun x y => ?_⟩
        show _ ↔ R x y ∨ (y = b ∧ x = runner)
        rw [← hmem]
        by_cases hx : x = runner
        · subst hx
          rw [if_pos rfl, KeySet.mem_insert]
          exact ⟨fun hy => hy.elim (fun he => .inr ⟨he, rfl⟩) .inl,
            fun hy => hy.elim .inr fun he => .inl he.1⟩
        · rw [if_neg hx]
          exact ⟨.inl, fun hy => hy.elim id fun he => absurd he.2 hx⟩
      by_cases h0 : k = 0
      · have hroot : r.idom? runner = none := by rw [h.idom?_eq hk, if_pos h0]
        rw [hroot]
        refine ⟨G, Looping.loop_end ?_, hG'.congr fun x y => by simp⟩
        dsimp only
        rw [if_neg hstop, hG, pure_bind, hread, hroot, pure_bind]
      · have hfall := h.falls k (Nat.pos_of_ne_zero h0)
        obtain ⟨d, hd⟩ := h.parent_block (List.getElem?_eq_some_iff.1 hk).1 (Nat.pos_of_ne_zero h0)
        have hparent : r.idom? runner = some d := by rw [h.idom?_eq hk, if_neg h0, hd]
        rw [hparent]
        obtain ⟨H, hH, hH'⟩ := ih _ hfall fuel (by omega) hd hG'
        refine ⟨H, (Looping.loop_next ?_).trans hH, hH'.congr fun x y => ?_⟩
        · dsimp only
          rw [if_neg hstop, hG, pure_bind, hread, hparent, pure_bind]
        · rw [List.mem_cons, or_assoc, ← and_or_left]

theorem border_ok (h : r.Faithful f entry) (hb : ∀ b ∈ r.order, b.index < bound) {e : Edges}
    {index : Array (Option Nat)} (hm : Mapped f e bound r.order index)
    {idoms : Array (Option BlockId)} (hi : Tabled bound idoms r.idom?) {b : BlockId}
    (hbo : b ∈ r.order) {F : Array (KeySet BlockId)} {R : BlockId → BlockId → Prop}
    (hF : Bordered bound F R) :
    ∃ G, border e index idoms F b = pure G ∧ Bordered bound G fun x y => R x y ∨ (y = b ∧
      ∃ p, f.Leads p b ∧ p ∈ r.order ∧ x ∈ climb r.idom? (r.idom? b) r.order.length p) := by
  obtain ⟨ps, hps, hmem⟩ := hm.preds b hbo
  obtain ⟨G, hG, hG'⟩ := foldlM_pures (m := Looping) (l := ps) (b := F)
    (f := fun F p => do
      if (← Looping.read index p.index).isSome then spread idoms b (r.idom? b) p F else return F)
    (fun pre F => Bordered bound F fun x y => R x y ∨ (y = b ∧
      ∃ p ∈ pre, p ∈ r.order ∧ x ∈ climb r.idom? (r.idom? b) r.order.length p))
    (hF.congr fun x y => by simp) (by
      rintro pre p post F hsplit hF
      have hp : p ∈ ps := hsplit ▸ List.mem_append_right _ List.mem_cons_self
      rw [Looping.read_ok (hm.index p (hm.small ((hmem p).1 hp))), pure_bind]
      by_cases hin : p ∈ r.order
      · obtain ⟨n, hn⟩ := List.mem_iff_getElem?.1 hin
        obtain ⟨G, hG, hG'⟩ := spread_ok h hb hi b (r.idom? b) n r.order.length
          (List.getElem?_eq_some_iff.1 hn).1 hn hF
        rw [if_pos (show (r.order.idxOf? p).isSome by rw [(idxOf?_eq_some hm.nodup).2 hn]; rfl)]
        refine ⟨G, hG, hG'.congr fun x y => ?_⟩
        rw [or_assoc, ← and_or_left]
        refine or_congr_right (and_congr_right fun _ => ?_)
        simp [or_and_right, exists_or, hin]
      · rw [if_neg (show ¬ (r.order.idxOf? p).isSome by rw [List.idxOf?_eq_none_iff.2 hin]; simp)]
        refine ⟨F, rfl, hF.congr fun x y => or_congr_right (and_congr_right fun _ => ?_)⟩
        simp [or_and_right, exists_or, hin])
  refine ⟨G, ?_, hG'.congr fun x y => ?_⟩
  · unfold border
    rw [Looping.read_ok (hi b (hb b hbo)), pure_bind, hps, Looping.lift_ok, pure_bind]
    exact hG
  · simp only [hmem]

theorem borders_ok (h : r.Faithful f entry) (hb : ∀ b ∈ r.order, b.index < bound) {e : Edges}
    {index : Array (Option Nat)} (hm : Mapped f e bound r.order index)
    {idoms : Array (Option BlockId)} (hi : Tabled bound idoms r.idom?) :
    ∃ F, r.order.foldlM (border e index idoms) (Array.replicate bound ∅) = pure F ∧
      Tabled bound F fun b => KeySet.ofList ((r.walks.filter (b ∈ ·.2)).map (·.1)) := by
  obtain ⟨F, hF, g, hg, hmem⟩ :=
    foldlM_pures (m := Looping) (l := r.order) (f := border e index idoms)
      (b := Array.replicate bound ∅)
    (fun pre F => Bordered bound F fun x y => y ∈ pre ∧
      ∃ p, f.Leads p y ∧ p ∈ r.order ∧ x ∈ climb r.idom? (r.idom? y) r.order.length p)
    ⟨fun _ => ∅, tabled_replicate bound ∅, fun x y => by simp [KeySet.not_mem_emptyc]⟩ (by
      rintro pre b post F hsplit hF
      have hbo : b ∈ r.order := hsplit ▸ List.mem_append_right _ List.mem_cons_self
      obtain ⟨G, hG, hG'⟩ := border_ok h hb hm hi hbo hF
      refine ⟨G, hG, hG'.congr fun x y => ?_⟩
      rw [List.mem_append, List.mem_singleton, or_and_right]
      refine or_congr_right (and_congr_right ?_)
      rintro rfl
      rfl)
  refine ⟨F, hF, hg.congr fun b => ?_⟩
  have hext : (g b).toList = (KeySet.ofList ((r.walks.filter (b ∈ ·.2)).map (·.1))).toList := by
    refine KeySet.toList_ext fun y => ?_
    rw [hmem, KeySet.mem_ofList, h.mem_walks_iff]
  cases hgb : g b with
  | mk xs hx =>
    rw [hgb] at hext
    cases hext
    rfl

theorem Ranking.Faithful.climb_subset (h : r.Faithful f entry) {stop : Option BlockId} {fuel : Nat}
    {x p : BlockId} (hx : x ∈ climb r.idom? stop fuel p) (hp : p ∈ r.order) : x ∈ r.order := by
  induction fuel generalizing p with
  | zero => exact absurd hx List.not_mem_nil
  | succ fuel ih =>
    unfold climb at hx
    split at hx
    · exact absurd hx List.not_mem_nil
    · rcases List.mem_cons.1 hx with rfl | hx
      · exact hp
      · cases hd : r.idom? p with
        | none =>
          rw [hd] at hx
          exact absurd hx List.not_mem_nil
        | some d =>
          rw [hd] at hx
          exact ih hx ((h.listing.mem d).2 (h.idom?_iff.1 hd).2.1.connects)

theorem Ranking.Faithful.node_eq (h : r.Faithful f entry) (b : BlockId) :
    { order? := r.order.idxOf? b
      idom? := r.idom? b
      children := r.order.filter fun c => r.idom? c = some b
      frontier := KeySet.ofList ((r.walks.filter (b ∈ ·.2)).map (·.1))
      level := r.level b : DomNode } =
      r.node (levels r.parents) r.walks b := by
  unfold Ranking.node Ranking.level
  cases hp : r.position? b with
  | some k =>
    unfold Ranking.position? at hp
    rw [hp]
    rfl
  | none =>
    have hout : b ∉ r.order := List.idxOf?_eq_none_iff.1 hp
    have hchildren : (r.order.filter fun c => r.idom? c = some b) = [] := by
      refine List.filter_eq_nil_iff.2 fun c _ hc => hout ((h.listing.mem b).2 ?_)
      exact (h.idom?_iff.1 (of_decide_eq_true hc)).2.1.connects
    have hfrontier : (r.walks.filter (b ∈ ·.2)).map (·.1) = [] := by
      refine List.eq_nil_iff_forall_not_mem.2 fun y hy => ?_
      obtain ⟨-, p, -, hpo, hb⟩ := h.mem_walks_iff.1 hy
      exact hout (h.climb_subset hb hpo)
    unfold Ranking.position? at hp
    rw [hp, h.idom?_none hout, hchildren, hfrontier]
    rfl

theorem Ranking.Faithful.parents_unique (h : r.Faithful f entry) {preds : Nat → List Nat} {m : Nat}
    (hr : Ranked (Link f r.order) r.order.length preds) (hm : r.order.length < m) (h1 : 1 < m)
    (hP : Progress (Link f r.order) r.order.length m 1 P) {k : Nat} (h0 : 0 < k)
    (hk : k < r.order.length) :
    P[k]? = some (some (parentOf r.parents k)) := by
  obtain ⟨p, hp⟩ := hP.done k hk (.inr h1)
  have hup : ∀ a, Up P a k ↔ Up r.parents a k := by
    intro a
    by_cases ha : a < r.order.length
    · rw [hP.up_iff_guards hr hm h1 hk,
        h.up (List.getElem?_eq_getElem ha) (List.getElem?_eq_getElem hk)]
      exact h.listing.guards_iff (List.getElem?_eq_getElem ha) (List.getElem?_eq_getElem hk)
    · constructor
      · intro hle
        have := hle.le hP.falls
        omega
      · intro hle
        have := hle.le h.falls
        omega
  rw [hp, ← parentOf_unique hP.falls h.falls h0 hup, parentOf_eq hp]

end Tree

/-- The search over arrays finds the tree. -/
theorem search_ok {f : Func} {entry : BlockId} (he : f.entry = .ok entry) (hc : f.Closed)
    (hk : ∀ b ∈ f.blocks, b.index < f.blockBound) :
    ∃ t, search f = pure t ∧ ofFunc f = .ok t ∧ t.Faithful f entry ∧
      ∀ {k}, 0 < k → k < t.order.length → ∃ p, Link f t.order p k ∧ p < k := by
  have hplaced : ∀ {b}, Connects f.Leads entry b → b ∈ f.blocks := hc.connects_mem he
  obtain ⟨e, hofFunc, hs⟩ := Edges.ofFunc_ok f
  obtain ⟨order, horder, hl, hearlier⟩ := reversePostOrder_ok hplaced hs
  obtain ⟨r, hrank, h⟩ := rank_ok hplaced hs
  obtain rfl : r.order = order := by
    obtain ⟨order', horder', hrest⟩ := bind_eq_ok.1 hrank
    cases horder.symm.trans horder'
    obtain ⟨preds, -, hrest⟩ := bind_eq_ok.1 hrest
    obtain ⟨P, -, hrest⟩ := bind_eq_ok.1 hrest
    cases hrest
    rfl
  have hb : ∀ b ∈ r.order, b.index < f.blockBound := fun b hb => hk b (hplaced ((hl.mem b).1 hb))
  have hpos : 0 < r.order.length := (List.getElem?_eq_some_iff.1 hl.head).1
  obtain ⟨found, hfound, hfin⟩ := traverse_ok horder
  obtain ⟨index, hindex, hitab⟩ := positions_ok hl.nodup hb
  have hm : Mapped f e f.blockBound r.order index :=
    { nodup := hl.nodup
      preds := fun b hb => hs.preds b (hplaced ((hl.mem b).1 hb))
      small := fun hlead => hk _ hlead.mem_blocks
      index := hitab }
  classical
  have hranked : Ranked (Link f r.order) r.order.length
      fun k => (List.range r.order.length).filter fun p => Link f r.order p k :=
    { pos := hpos
      bounded := by
        rintro p k ⟨a, b, ha, hb, -⟩
        exact ⟨(List.getElem?_eq_some_iff.1 ha).1, (List.getElem?_eq_some_iff.1 hb).1⟩
      preds_iff := by
        intro p k _ _
        rw [List.mem_filter, List.mem_range, decide_eq_true_eq, and_iff_right_iff_imp]
        rintro ⟨a, b, ha, -, -⟩
        exact (List.getElem?_eq_some_iff.1 ha).1
      earlier := hearlier }
  have hstart : Looping.write (Array.replicate r.order.length (none : Option Nat)) 0
      (some 0) = pure _ :=
    Looping.write_ok (some 0) (by rw [Array.size_replicate]; exact hpos)
  obtain ⟨P, m, hsettle, hlen, h1, hprog⟩ :=
    settle_ok hm hranked (r.order.length + 1) 1 _ (Nat.le_refl 1) (by omega) (Progress.start hpos)
  obtain ⟨branches, hbranches, hidoms, hchildren, hlevels⟩ :=
    hang_ok h hb fun k h0 hlt => h.parents_unique hranked hlen h1 hprog h0 hlt
  obtain ⟨F, hF, hFtab⟩ := borders_ok h hb hm hidoms
  have hnodes : ∀ n < f.blockBound,
      { order? := index[n]?.join
        idom? := branches.idoms[n]?.join
        children := branches.children[n]?.getD []
        frontier := F[n]?.getD ∅
        level := branches.levels[n]?.getD 0 : DomNode } =
        r.node (levels r.parents) r.walks ⟨n⟩ := by
    intro n hn
    rw [hitab ⟨n⟩ hn, hidoms ⟨n⟩ hn, hchildren ⟨n⟩ hn, hFtab ⟨n⟩ hn, hlevels ⟨n⟩ hn]
    exact h.node_eq ⟨n⟩
  refine ⟨_, ?_, ?_, (readOff_ranking r f.blockBound f.flow.epoch).faithful hb h, hearlier⟩
  · unfold search
    rw [hofFunc, Looping.lift_ok, pure_bind, he, Looping.lift_ok, pure_bind, hfound, pure_bind,
      hfin, hindex, pure_bind, List.size_toArray, hstart, pure_bind, hsettle, pure_bind, hbranches,
      pure_bind, hF, pure_bind, Array.map_congr_left fun n hn => hnodes n (Array.mem_range.1 hn)]
  · unfold ofFunc ofEdges
    rw [hofFunc, ok_bind, he, ok_bind, hrank, ok_bind]
    rfl

end DominatorTree

end MiddleEnd
