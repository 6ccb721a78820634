import MiddleEnd.ControlFlow.Dominators
import MiddleEnd.ControlFlow.Paths
import MiddleEnd.Proofs.Outcome

/-!
# Convergence of the dominator search

Blocks are named by their position here. At all times every dominator of a block is among its
ancestors: from a parent to its child leads a walk that stays behind the parent, so a dominator of
the child above the parent dominates the parent. After `r` rounds the ancestors of a block lie on
all walks that go back fewer than `r` times. No walk without loops goes back as often as there are
blocks, so that after that many rounds ancestors and dominators are the same.
-/

namespace MiddleEnd.DominatorTree

/-- `a` is met on the way from `k` to the root, `k` included. -/
inductive Up (P : Parents) : Nat → Nat → Prop where
  | refl (k : Nat) : Up P k k
  | climb {a k : Nat} : 0 < k → Up P a (parentOf P k) → Up P a k

def Falls (P : Parents) : Prop := ∀ k, 0 < k → parentOf P k < k

theorem up_iff {P : Parents} {a k : Nat} : Up P a k ↔ a = k ∨ (0 < k ∧ Up P a (parentOf P k)) := by
  constructor
  · intro h
    cases h with
    | refl => exact .inl rfl
    | climb hk h => exact .inr ⟨hk, h⟩
  · rintro (rfl | ⟨hk, h⟩)
    · exact .refl _
    · exact .climb hk h

theorem Up.le {P : Parents} (hP : Falls P) {a k : Nat} (h : Up P a k) : a ≤ k := by
  induction h with
  | refl => exact Nat.le_refl _
  | climb hk _ ih =>
    have := hP _ hk
    omega

theorem Up.trans {P : Parents} {a b c : Nat} (h : Up P a b) (h' : Up P b c) : Up P a c := by
  induction h' with
  | refl => exact h
  | climb hk _ ih => exact .climb hk ih

theorem up_zero {P : Parents} {a : Nat} : Up P a 0 ↔ a = 0 := by
  rw [up_iff]
  simp

theorem up_meet {P : Parents} (hP : Falls P) {a : Nat} :
    ∀ fuel i j, i + j ≤ fuel → (Up P a (meet P fuel i j) ↔ Up P a i ∧ Up P a j) := by
  intro fuel
  induction fuel with
  | zero =>
    intro i j h
    have hi : i = 0 := by omega
    have hj : j = 0 := by omega
    subst hi hj
    simp [meet]
  | succ fuel ih =>
    intro i j h
    unfold meet
    split
    · rename_i hij
      subst hij
      simp
    · split
      · rename_i hne hlt
        have hfall := hP i (by omega)
        rw [ih _ _ (by omega), up_iff (k := i)]
        constructor
        · rintro ⟨hi, hj⟩
          exact ⟨.inr ⟨by omega, hi⟩, hj⟩
        · rintro ⟨rfl | ⟨-, hi⟩, hj⟩
          · have := hj.le hP
            omega
          · exact ⟨hi, hj⟩
      · rename_i hne hlt
        have hfall := hP j (by omega)
        rw [ih _ _ (by omega), up_iff (k := j)]
        constructor
        · rintro ⟨hi, hj⟩
          exact ⟨hi, .inr ⟨by omega, hj⟩⟩
        · rintro ⟨hi, rfl | ⟨-, hj⟩⟩
          · have := hi.le hP
            omega
          · exact ⟨hi, hj⟩

theorem up_meets {P : Parents} (hP : Falls P) {a : Nat} (ps : List Nat) (p : Nat) :
    Up P a (ps.foldl (fun i j => meet P (i + j) i j) p) ↔ ∀ q ∈ p :: ps, Up P a q := by
  induction ps generalizing p with
  | nil => simp
  | cons q ps ih =>
    rw [List.foldl_cons, ih]
    simp only [List.forall_mem_cons, up_meet hP _ _ _ (Nat.le_refl _), and_assoc]

def Chosen (P : Parents) (k : Nat) : Prop := ∃ p, P[k]? = some (some p)

theorem chosen_iff {P : Parents} {k : Nat} : (P[k]?.join).isSome = true ↔ Chosen P k := by
  unfold Chosen
  cases h : P[k]? with
  | none => simp
  | some o => cases o <;> simp

theorem parentOf_eq {P : Parents} {k p : Nat} (h : P[k]? = some (some p)) : parentOf P k = p := by
  rw [parentOf, h]
  rfl

def Grounded (P : Parents) : Prop :=
  ∀ {b p : Nat}, P[b]? = some (some p) → 0 < b → p < b ∧ Chosen P p

theorem Grounded.falls {P : Parents} (h : Grounded P) : Falls P := by
  intro j hj
  unfold parentOf
  cases hp : P[j]? with
  | none => exact hj
  | some o =>
    cases o with
    | none => exact hj
    | some p => exact (h hp hj).1

theorem meetAll_spec {P : Parents} (hP : Falls P) {preds : List Nat} (h : ∃ p ∈ preds, Chosen P p) :
    ∃ q, meetAll P preds = some q ∧ ∀ a, Up P a q ↔ ∀ p ∈ preds, Chosen P p → Up P a p := by
  unfold meetAll
  have hmem : ∀ p, p ∈ preds.filter (fun p => (P[p]?.join).isSome) ↔ p ∈ preds ∧ Chosen P p := by
    intro p
    rw [List.mem_filter, chosen_iff]
  cases hf : preds.filter fun p => (P[p]?.join).isSome with
  | nil =>
    obtain ⟨p, hp, hc⟩ := h
    have hin := (hmem p).2 ⟨hp, hc⟩
    rw [hf] at hin
    cases hin
  | cons p ps =>
    refine ⟨_, rfl, fun a => ?_⟩
    rw [up_meets hP, ← hf]
    constructor
    · exact fun ha p hp hc => ha p ((hmem p).2 ⟨hp, hc⟩)
    · exact fun ha p hp => ha p ((hmem p).1 hp).1 ((hmem p).1 hp).2

section Choice

variable {P : Parents} {k q : Nat}

theorem getElem?_choose (hk : k < P.size) (j : Nat) :
    (P.setIfInBounds k (some q))[j]? = if j = k then some (some q) else P[j]? := by
  rw [Array.getElem?_setIfInBounds]
  by_cases hj : k = j
  · subst hj
    simp [hk]
  · have : j ≠ k := fun e => hj e.symm
    simp [hj, this]

theorem parentOf_choose (hk : k < P.size) (j : Nat) :
    parentOf (P.setIfInBounds k (some q)) j = if j = k then q else parentOf P j := by
  unfold parentOf
  rw [getElem?_choose hk]
  split <;> rfl

theorem falls_choose (hP : Falls P) (hk : k < P.size) (hq : q < k) :
    Falls (P.setIfInBounds k (some q)) := by
  intro j hj
  rw [parentOf_choose hk]
  split
  · omega
  · exact hP j hj

theorem Up.choose (hk : k < P.size) {a j : Nat} (h : Up P a j) :
    Up (P.setIfInBounds k (some q)) a j ∨ (Up (P.setIfInBounds k (some q)) k j ∧ Up P a k) := by
  induction h with
  | refl => exact .inl (.refl _)
  | @climb j hj h ih =>
    by_cases hjk : j = k
    · subst hjk
      exact .inr ⟨.refl j, .climb hj h⟩
    · have hpar := parentOf_choose (q := q) hk j
      rw [if_neg hjk] at hpar
      rcases ih with ih | ⟨ih, ih'⟩
      · exact .inl (.climb hj (hpar ▸ ih))
      · exact .inr ⟨.climb hj (hpar ▸ ih), ih'⟩

theorem Up.of_choose (hk : k < P.size) {a j : Nat} (h : Up (P.setIfInBounds k (some q)) a j) :
    Up P a j ∨ (Up P k j ∧ Up (P.setIfInBounds k (some q)) a k) := by
  induction h with
  | refl => exact .inl (.refl _)
  | @climb j hj h ih =>
    by_cases hjk : j = k
    · subst hjk
      exact .inr ⟨.refl j, .climb hj h⟩
    · have hpar := parentOf_choose (q := q) hk j
      rw [if_neg hjk] at hpar
      rw [hpar] at ih
      rcases ih with ih | ⟨ih, ih'⟩
      · exact .inl (.climb hj ih)
      · exact .inr ⟨.climb hj ih, ih'⟩

theorem up_choose_self (hP : Falls P) (hk : k < P.size) (hq : q < k) {a : Nat} :
    Up (P.setIfInBounds k (some q)) a k ↔ a = k ∨ Up P a q := by
  have hP' := falls_choose hP hk hq
  have hself : parentOf (P.setIfInBounds k (some q)) k = q := by rw [parentOf_choose hk, if_pos rfl]
  rw [up_iff, hself]
  refine or_congr Iff.rfl ⟨?_, ?_⟩
  · rintro ⟨-, h⟩
    rcases h.of_choose hk with h | ⟨h, -⟩
    · exact h
    · have := h.le hP
      omega
  · intro h
    refine ⟨by omega, ?_⟩
    rcases h.choose (q := q) hk with h | ⟨h, -⟩
    · exact h
    · have := h.le hP'
      omega

end Choice

/-- A walk from the root, with the number of times it goes back. -/
inductive Trek (E : Nat → Nat → Prop) : Nat → List Nat → Nat → Prop where
  | root : Trek E 0 [0] 0
  | ahead {a b m : Nat} {w : List Nat} : Trek E a w m → E a b → a < b → Trek E b (w ++ [b]) m
  | back {a b m : Nat} {w : List Nat} : Trek E a w m → E a b → b ≤ a → Trek E b (w ++ [b]) (m + 1)

theorem Trek.upTo {E : Nat → Nat → Prop} {b d m : Nat} {w : List Nat} (h : Trek E b w m)
    (hd : d ∈ w) :
    ∃ w' m', Trek E d w' m' ∧ m' ≤ m ∧ ∀ x ∈ w', x ∈ w := by
  induction h with
  | root =>
    obtain rfl := List.mem_singleton.1 hd
    exact ⟨_, _, .root, Nat.le_refl _, fun _ hx => hx⟩
  | ahead h e hlt ih =>
    rcases List.mem_append.1 hd with hd | hd
    · obtain ⟨w', m', hw, hm, hs⟩ := ih hd
      exact ⟨w', m', hw, hm, fun x hx => List.mem_append_left _ (hs x hx)⟩
    · obtain rfl := List.mem_singleton.1 hd
      exact ⟨_, _, .ahead h e hlt, Nat.le_refl _, fun _ hx => hx⟩
  | back h e hle ih =>
    rcases List.mem_append.1 hd with hd | hd
    · obtain ⟨w', m', hw, hm, hs⟩ := ih hd
      exact ⟨w', m', hw, by omega, fun x hx => List.mem_append_left _ (hs x hx)⟩
    · obtain rfl := List.mem_singleton.1 hd
      exact ⟨_, _, .back h e hle, Nat.le_refl _, fun _ hx => hx⟩

theorem trek_of_walk {E : Nat → Nat → Prop} :
    ∀ n {b : Nat} {w : List Nat}, w.length = n → Walk E 0 b w → ∃ m, Trek E b w m ∧
      m < w.length := by
  intro n
  induction n with
  | zero =>
    intro b w hl h
    have := List.length_pos_of_mem h.start_mem
    omega
  | succ n ih =>
    intro b w hl h
    rcases h.last_step with ⟨rfl, rfl⟩ | ⟨c, q, hq, hc, rfl⟩
    · exact ⟨0, .root, by simp⟩
    · rw [List.length_append, List.length_singleton] at hl ⊢
      obtain ⟨m, hm, hlt⟩ := ih (by omega) hq
      by_cases hbc : c < b
      · exact ⟨m, .ahead hm hc hbc, by omega⟩
      · exact ⟨m + 1, .back hm hc (by omega), by omega⟩

/-- A graph over the first `n` numbers in which every number but the first is reached from a smaller
one. -/
structure Ranked (E : Nat → Nat → Prop) (n : Nat) (preds : Nat → List Nat) : Prop where
  pos : 0 < n
  bounded : ∀ {p k}, E p k → p < n ∧ k < n
  preds_iff : ∀ {p k}, 0 < k → k < n → (p ∈ preds k ↔ E p k)
  earlier : ∀ {k}, 0 < k → k < n → ∃ p, E p k ∧ p < k

theorem Ranked.connects {E : Nat → Nat → Prop} {n : Nat} {preds : Nat → List Nat}
    (h : Ranked E n preds) {k : Nat} (hk : k < n) : Connects E 0 k := by
  induction k using Nat.strongRecOn with
  | ind k ih =>
    by_cases h0 : k = 0
    · subst h0
      exact Connects.refl E 0
    · obtain ⟨p, hp, hlt⟩ := h.earlier (Nat.pos_of_ne_zero h0) hk
      exact (ih p hlt (by omega)).step hp

/-- What holds in round `r` when the parent of `k` is the next to be chosen. -/
structure Progress (E : Nat → Nat → Prop) (n r k : Nat) (P : Parents) : Prop where
  size : P.size = n
  root : P[0]? = some (some 0)
  done : ∀ b, b < n → b < k ∨ 1 < r → Chosen P b
  below : Grounded P
  through : ∀ {b p}, P[b]? = some (some p) → 0 < b → ∃ w, Walk E p b w ∧ ∀ x ∈ w, x = p ∨ p < x
  complete : ∀ {b d}, Chosen P b → Guards E 0 d b → Up P d b
  sound : ∀ {b w m}, Trek E b w m → m < (if b < k then r else r - 1) → ∀ a, Up P a b → a ∈ w

namespace Progress

variable {E : Nat → Nat → Prop} {n r k : Nat} {P : Parents} {preds : Nat → List Nat}

theorem falls (h : Progress E n r k P) : Falls P := Grounded.falls h.below

theorem chosen_of_up (h : Progress E n r k P) {a b : Nat} (hb : Chosen P b) (ha : Up P a b) :
    Chosen P a := by
  induction ha with
  | refl => exact hb
  | climb hk _ ih =>
    obtain ⟨p, hp⟩ := hb
    rw [parentOf_eq hp] at ih
    exact ih (h.below hp hk).2

theorem walk_of_up (h : Progress E n r k P) {a b : Nat} (hb : Chosen P b) (ha : Up P a b) :
    ∃ w, Walk E a b w ∧ ∀ x ∈ w, a ≤ x := by
  induction ha with
  | refl => exact ⟨_, .single _, fun x hx => Nat.le_of_eq (List.mem_singleton.1 hx).symm⟩
  | @climb b hb0 hup ih =>
    obtain ⟨p, hp⟩ := hb
    rw [parentOf_eq hp] at ih hup
    obtain ⟨w, hw, hs⟩ := ih (h.below hp hb0).2
    obtain ⟨w', hw', hs'⟩ := h.through hp hb0
    obtain ⟨v, hv, hsub⟩ := hw.append hw'
    have hle := hup.le h.falls
    refine ⟨v, hv, fun x hx => ?_⟩
    rcases hsub x hx with hx | hx
    · exact hs x hx
    · rcases hs' x hx with rfl | hlt
      · exact hle
      · omega

theorem guards_preds (h : Progress E n r k P) (hr : Ranked E n preds) {j d : Nat}
    (hj : 0 < j) (hn : j < n) (hne : d ≠ j) (hg : Guards E 0 d j) :
    ∀ p ∈ preds j, Chosen P p → Up P d p := by
  intro p hp hc
  have he := (hr.preds_iff hj hn).1 hp
  exact h.complete hc (hg.of_step hne (hr.connects (hr.bounded he).1) he)

/-- One parent is chosen. -/
theorem step (h : Progress E n r k P) (hr : Ranked E n preds) (hr₁ : 1 ≤ r) (hk : 0 < k)
    (hn : k < n) :
    ∃ q, meetAll P (preds k) = some q ∧ Progress E n r (k + 1) (P.setIfInBounds k (some q)) := by
  have hf := h.falls
  obtain ⟨e, he, hek⟩ := hr.earlier hk hn
  have hechosen : Chosen P e := h.done e (by omega) (.inl hek)
  have hep := (hr.preds_iff hk hn).2 he
  obtain ⟨q, hq, hup⟩ := meetAll_spec hf ⟨e, hep, hechosen⟩
  have hqe : Up P q e := (hup q).1 (.refl q) e hep hechosen
  have hqk : q < k := by
    have := hqe.le hf
    omega
  have hqchosen : Chosen P q := h.chosen_of_up hechosen hqe
  have hks : k < P.size := by rw [h.size]; exact hn
  have hget := getElem?_choose (q := q) hks
  have hself := fun a => up_choose_self (a := a) hf hks hqk
  have hcomplete : ∀ {d}, Guards E 0 d k → Up (P.setIfInBounds k (some q)) d k := by
    intro d hd
    rw [hself]
    by_cases hdk : d = k
    · exact .inl hdk
    · exact .inr ((hup d).2 (h.guards_preds hr hk hn hdk hd))
  have hsound : ∀ {w m}, Trek E k w m → m < r →
      ∀ a, Up (P.setIfInBounds k (some q)) a k → a ∈ w := by
    intro w m hw hm a ha
    rcases (hself a).1 ha with rfl | ha
    · cases hw with
      | root => omega
      | ahead _ _ _ => simp
      | back _ _ _ => simp
    · -- The last step of the trek comes from a predecessor whose ancestors are on the trek already.
      cases hw with
      | root => omega
      | @ahead c _ _ v hv hc hlt =>
        have hcc : Chosen P c := h.done c (hr.bounded hc).1 (.inl hlt)
        have hac := (hup a).1 ha c ((hr.preds_iff hk hn).2 hc) hcc
        exact List.mem_append_left _ (h.sound hv (by rw [if_pos hlt]; exact hm) a hac)
      | @back c _ m' v hv hc hle =>
        have hcc : Chosen P c := h.done c (hr.bounded hc).1 (.inr (by omega))
        have hac := (hup a).1 ha c ((hr.preds_iff hk hn).2 hc) hcc
        exact List.mem_append_left _ (h.sound hv (by rw [if_neg (by omega)]; omega) a hac)
  refine ⟨q, hq, ?_⟩
  refine { size := ?_, root := ?_, done := ?_, below := ?_, through := ?_, complete := ?_
           sound := ?_ }
  · rw [Array.size_setIfInBounds]
    exact h.size
  · rw [hget, if_neg (by omega)]
    exact h.root
  · intro b hb hor
    unfold Chosen
    rw [hget]
    by_cases hbk : b = k
    · exact ⟨q, by rw [if_pos hbk]⟩
    · rw [if_neg hbk]
      exact h.done b hb (hor.imp (fun hlt => by omega) id)
  · intro b p hp hb
    have hkeep : ∀ {j}, Chosen P j → Chosen (P.setIfInBounds k (some q)) j := by
      rintro j ⟨p, hp⟩
      unfold Chosen
      rw [hget]
      by_cases hjk : j = k
      · exact ⟨q, by rw [if_pos hjk]⟩
      · exact ⟨p, by rw [if_neg hjk]; exact hp⟩
    rw [hget] at hp
    by_cases hbk : b = k
    · rw [if_pos hbk] at hp
      cases hp
      exact ⟨by omega, hkeep hqchosen⟩
    · rw [if_neg hbk] at hp
      exact ⟨(h.below hp hb).1, hkeep (h.below hp hb).2⟩
  · intro b p hp hb
    rw [hget] at hp
    by_cases hbk : b = k
    · rw [if_pos hbk] at hp
      cases hp
      subst hbk
      obtain ⟨w, hw, hs⟩ := h.walk_of_up hechosen hqe
      refine ⟨_, hw.snoc he, fun x hx => ?_⟩
      rcases List.mem_append.1 hx with hx | hx
      · have := hs x hx
        omega
      · have := List.mem_singleton.1 hx
        omega
    · rw [if_neg hbk] at hp
      exact h.through hp hb
  · intro b d hb hd
    by_cases hbk : b = k
    · subst hbk
      exact hcomplete hd
    have hb' : Chosen P b := by
      obtain ⟨p, hp⟩ := hb
      rw [hget, if_neg hbk] at hp
      exact ⟨p, hp⟩
    rcases (h.complete hb' hd).choose (q := q) hks with hd' | ⟨hkb, hdk⟩
    · exact hd'
    -- The way from `b` up to `d` led through `k`; `d` guards `k` as well and is found above it
    -- again.
    by_cases hdeq : d = k
    · subst hdeq
      exact hkb
    have hlt : d < k := by
      have := hdk.le hf
      omega
    have hkb' : Up P k b := by
      rcases hkb.of_choose hks with hkb | ⟨hkb, -⟩
      · exact hkb
      · exact hkb
    obtain ⟨w, hw, hs⟩ := h.walk_of_up hb' hkb'
    have hguard : Guards E 0 d k := by
      refine ⟨hr.connects hn, fun v hv => ?_⟩
      obtain ⟨u, hu, hsub⟩ := hv.append hw
      rcases hsub d (hd.2 u hu) with hm | hm
      · exact hm
      · have := hs d hm
        omega
    exact (hcomplete hguard).trans hkb
  · intro b w m hw hm a ha
    by_cases hbk : b = k
    · subst hbk
      rw [if_pos (by omega)] at hm
      exact hsound hw hm a ha
    have hm' : m < (if b < k then r else r - 1) := by
      by_cases hlt : b < k
      · rw [if_pos (by omega)] at hm
        rw [if_pos hlt]
        exact hm
      · rw [if_neg (by omega)] at hm
        rw [if_neg hlt]
        exact hm
    rcases ha.of_choose hks with ha | ⟨hkb, hak⟩
    · exact h.sound hw hm' a ha
    · -- The way up to `a` leads through `k`, which is on the trek.
      obtain ⟨w', m', hw', hle, hs⟩ := hw.upTo (h.sound hw hm' k hkb)
      have hkle := hkb.le hf
      rw [if_neg (by omega)] at hm'
      exact hs a (hsound hw' (by omega) a hak)

theorem next_round (h : Progress E n r n P) (hr : Ranked E n preds) : Progress E n (r + 1) 1 P where
  size := h.size
  root := h.root
  done b hb _ := h.done b hb (.inl hb)
  below := h.below
  through := h.through
  complete := h.complete
  sound := by
    intro b w m hw hm a ha
    by_cases hb : b < 1
    · have hb0 : b = 0 := by omega
      subst hb0
      rw [up_zero] at ha
      subst ha
      cases hw <;> simp
    · rw [if_neg hb] at hm
      have hbn : b < n := by
        cases hw with
        | root => omega
        | ahead _ e _ => exact (hr.bounded e).2
        | back _ e _ => exact (hr.bounded e).2
      exact h.sound hw (by rw [if_pos hbn]; omega) a ha

theorem round_ok {joins : List Join} (h : Progress E n r 1 P) (hr : Ranked E n preds) (hr₁ : 1 ≤ r)
    (hlen : joins.length + 1 = n)
    (hjoins : ∀ m j, joins[m]? = some j → j.position = m + 1 ∧ j.preds = preds (m + 1)) :
    ∃ P', round joins P = .ok P' ∧ Progress E n r n P' := by
  have hfold : ∃ P', round joins P = .ok P' ∧ Progress E n r (joins.length + 1) P' := by
    unfold round
    refine foldlM_yields (fun pre P => Progress E n r (pre.length + 1) P) h ?_
    rintro pre j post c rfl hc
    have hj : (pre ++ j :: post)[pre.length]? = some j := by simp
    obtain ⟨hpos, hpreds⟩ := hjoins _ _ hj
    have hlt : pre.length + 1 < n := by
      rw [List.length_append, List.length_cons] at hlen
      omega
    obtain ⟨q, hq, hp⟩ := hc.step hr hr₁ (Nat.succ_pos _) hlt
    refine ⟨_, by rw [hpreds, hq], ?_⟩
    rw [hpos, List.length_append, List.length_singleton]
    exact hp
  rw [hlen] at hfold
  exact hfold

theorem converge_ok {joins : List Join} (hr : Ranked E n preds) (hlen : joins.length + 1 = n)
    (hjoins : ∀ m j, joins[m]? = some j → j.position = m + 1 ∧ j.preds = preds (m + 1)) :
    ∀ fuel r P, 1 ≤ r → Progress E n r 1 P →
      ∃ P' m, converge joins fuel P = .ok P' ∧ r + fuel ≤ m ∧ Progress E n m 1 P' := by
  intro fuel
  induction fuel with
  | zero => exact fun r P _ h => ⟨P, r, rfl, Nat.le_refl _, h⟩
  | succ fuel ih =>
    intro r P hr₁ h
    obtain ⟨next, hnext, hp⟩ := h.round_ok hr hr₁ hlen hjoins
    unfold converge
    rw [hnext, ok_bind]
    by_cases heq : next = P
    · subst heq
      -- What nothing changes any more has gone through any number of rounds.
      have forever : ∀ s, Progress E n (r + s) 1 next := by
        intro s
        induction s with
        | zero => exact h
        | succ s ihs =>
          obtain ⟨again, hagain, hp'⟩ := ihs.round_ok hr (by omega) hlen hjoins
          rw [hnext] at hagain
          cases hagain
          exact hp'.next_round hr
      rw [if_pos rfl]
      exact ⟨next, r + (fuel + 1), rfl, Nat.le_refl _, forever _⟩
    · rw [if_neg heq]
      obtain ⟨P', m, hP', hm, hp'⟩ := ih (r + 1) next (by omega) (hp.next_round hr)
      exact ⟨P', m, hP', by omega, hp'⟩

theorem start (hn : 0 < n) :
    Progress E n 1 1 ((Array.replicate n none).setIfInBounds 0 (some 0)) := by
  have hget : ∀ j : Nat, ((Array.replicate n (none : Option Nat)).setIfInBounds 0 (some 0))[j]? =
      if j = 0 then some (some 0) else (Array.replicate n none)[j]? :=
    getElem?_choose (P := Array.replicate n none) (by rw [Array.size_replicate]; exact hn)
  have honly : ∀ {b p}, ((Array.replicate n (none : Option Nat)).setIfInBounds 0 (some 0))[b]? =
      some (some p) →
      b = 0 := by
    intro b p hb
    refine Classical.byContradiction fun hne => ?_
    rw [hget, if_neg hne, Array.getElem?_replicate] at hb
    split at hb <;> cases hb
  refine { size := ?_, root := ?_, done := ?_, below := ?_, through := ?_, complete := ?_
           sound := ?_ }
  · rw [Array.size_setIfInBounds, Array.size_replicate]
  · rw [hget, if_pos rfl]
  · intro b _ hor
    have hb0 : b = 0 := by omega
    exact ⟨0, by rw [hget, if_pos hb0]⟩
  · intro b p hp hb
    have := honly hp
    omega
  · intro b p hp hb
    have := honly hp
    omega
  · rintro b d ⟨p, hp⟩ hd
    obtain rfl := honly hp
    rw [hd.root_eq]
    exact .refl 0
  · intro b w m hw hm a ha
    by_cases hb : b < 1
    · have hb0 : b = 0 := by omega
      subst hb0
      rw [up_zero] at ha
      subst ha
      cases hw <;> simp
    · rw [if_neg hb] at hm
      omega

theorem up_iff_guards (h : Progress E n r k P) (hr : Ranked E n preds) (hrn : n < r)
    (h1 : 1 < r) {a b : Nat} (hb : b < n) : Up P a b ↔ Guards E 0 a b := by
  refine ⟨fun ha => ⟨hr.connects hb, fun w hw => ?_⟩, h.complete (h.done b hb (.inr h1))⟩
  obtain ⟨v, hv, hnodup, hsub⟩ := hw.exists_nodup
  obtain ⟨m, hm, hlt⟩ := trek_of_walk _ rfl hv
  have hbounds : ∀ x ∈ v, x < n := by
    have hall : ∀ {c u}, Walk E 0 c u → ∀ x ∈ u, x < n := by
      intro c u hu x hx
      rcases hu.first_arrival hx with rfl | ⟨_, _, _, e, _⟩
      · exact hr.pos
      · exact (hr.bounded e).2
    exact hall hv
  have hle : v.length ≤ n := by
    have hsubset : v ⊆ List.range n := fun x hx => List.mem_range.2 (hbounds x hx)
    have := hnodup.length_le_of_subset hsubset
    rwa [List.length_range] at this
  refine hsub a (h.sound hm ?_ a ha)
  split <;> omega

end Progress

end MiddleEnd.DominatorTree
