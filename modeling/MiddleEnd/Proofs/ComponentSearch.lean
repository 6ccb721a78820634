import MiddleEnd.Transform.ComponentSearch
import MiddleEnd.Proofs.Building
import MiddleEnd.Proofs.Components
import MiddleEnd.Proofs.DominatorSearch

/-!
# The search with frames does what the recursive one does

A frame stands for a visit that has not returned. Its turns look at the operands as the visit does,
an operand that was not met opens the next frame and is done when that is left, and what it led to
is then handed to the frame below. So the loop ends, and no number that it looks up is missing.
-/

namespace MiddleEnd

namespace Components

open State

structure Tidy (s : State) : Prop where
  nodup : s.stack.Nodup
  met : ∀ i ∈ s.stack, s.Met i

/-- The second state is reached from the first one, and what was on the stack still is. -/
structure Grows (s c : State) : Prop where
  tidy : Tidy c
  later : s.Later c
  stack : ∃ new, c.stack = new ++ s.stack

section Keeps

variable {operands : InstId → Checked (List InstId)} {v : State → InstId → Checked (State × Nat)}
  {s c d : State} {i j : InstId} {low n : Nat}

theorem Grows.refl (h : Tidy s) : Grows s s := ⟨h, .refl s, [], rfl⟩

theorem Grows.trans (h : Grows s c) (h' : Grows c d) : Grows s d := by
  obtain ⟨new, hnew⟩ := h.stack
  obtain ⟨new', hnew'⟩ := h'.stack
  exact ⟨h'.tidy, h.later.trans h'.later, new' ++ new, by rw [hnew', hnew, List.append_assoc]⟩

theorem Tidy.meet (h : Tidy s) (hn : ¬ s.Met i) : Tidy (s.meet i) where
  nodup := List.nodup_cons.2 ⟨fun hm => hn (h.met i hm), h.nodup⟩
  met j hj := by
    rcases List.mem_cons.1 hj with rfl | hj
    · exact met_meet.2 (.inl rfl)
    · exact met_meet.2 (.inr (h.met j hj))

theorem Grows.above (h : Grows (s.meet i) c) : ∃ new, c.stack = new ++ i :: s.stack ∧ i ∉ new := by
  obtain ⟨new, hnew⟩ := h.stack
  have hnodup := h.tidy.nodup
  rw [hnew] at hnodup
  exact ⟨new, hnew, fun hm => (List.nodup_append.1 hnodup).2.2 i hm i List.mem_cons_self rfl⟩

theorem Grows.number (h : Grows (s.meet i) c) : c.numbers.get? i = some s.next :=
  h.later i _ (by rw [get?_meet, if_pos rfl])

theorem Grows.complete (h : Grows (s.meet i) c) (hn : ¬ s.Met i) : Grows s (c.complete i) := by
  obtain ⟨new, hnew, hi⟩ := h.above
  have hsub : List.Sublist s.stack c.stack := by
    rw [hnew]
    exact (List.sublist_cons_self i s.stack).trans (List.sublist_append_right new _)
  rw [complete_eq hnew hi]
  exact ⟨⟨h.tidy.nodup.sublist hsub, fun j hj => h.tidy.met j (hsub.subset hj)⟩,
    (meet_later hn).trans h.later, [], rfl⟩

theorem Grows.of_meet (h : Grows (s.meet i) c) (hn : ¬ s.Met i) : Grows s c := by
  obtain ⟨new, hnew, -⟩ := h.above
  exact ⟨h.tidy, (meet_later hn).trans h.later, new ++ [i],
    by rw [hnew, List.append_assoc, List.singleton_append]⟩

theorem look_eq_visit (hj : ¬ c.Met j) (h : look v (c, low) j = .ok (d, n)) :
    ∃ m, v c j = .ok (d, m) ∧ n = min low m := by
  unfold look at h
  dsimp only at h
  rw [get?_of_not_met hj] at h
  obtain ⟨⟨e, m⟩, he, h⟩ := bind_eq_ok.1 h
  cases h
  exact ⟨m, he, rfl⟩

theorem looks_grow (hv : ∀ {s c i low}, v s i = .ok (c, low) → Tidy s → ¬ s.Met i → Grows s c)
    {js : List InstId} (h : js.foldlM (look v) (c, low) = .ok (d, n)) (hc : Tidy c) :
    Grows c d ∧ n ≤ low := by
  induction js generalizing c low with
  | nil =>
    cases h
    exact ⟨.refl hc, Nat.le_refl _⟩
  | cons j js ih =>
    rw [List.foldlM_cons] at h
    obtain ⟨⟨c', low'⟩, hlook, h⟩ := bind_eq_ok.1 h
    by_cases hj : c.Met j
    · obtain ⟨m, hm⟩ := met_iff.1 hj
      rw [look_of_met low hm] at hlook
      cases hlook
      obtain ⟨hgrows, hle⟩ := ih h hc
      refine ⟨hgrows, Nat.le_trans hle ?_⟩
      split <;> omega
    · obtain ⟨m, he, rfl⟩ := look_eq_visit hj hlook
      have hgrows := hv he hc hj
      obtain ⟨hgrows', hle⟩ := ih h hgrows.tidy
      exact ⟨hgrows.trans hgrows', Nat.le_trans hle (Nat.min_le_left _ _)⟩

theorem visit_succ {depth : Nat} (h : visit operands (depth + 1) s i = .ok (c, low)) :
    ∃ js d, operands i = .ok js ∧ js.foldlM (look (visit operands depth))
      (s.meet i, s.next) = .ok (d, low) ∧ c = if low < s.next then d else d.complete i := by
  obtain ⟨js, hjs, h⟩ := bind_eq_ok.1 h
  obtain ⟨⟨d, n⟩, hd, h⟩ := bind_eq_ok.1 h
  cases h
  exact ⟨js, d, hjs, hd, rfl⟩

theorem visit_grows {depth : Nat} (h : visit operands depth s i = .ok (c, low)) (hs : Tidy s)
    (hn : ¬ s.Met i) :
    Grows s c := by
  induction depth generalizing s c i low with
  | zero => cases h
  | succ depth ih =>
    obtain ⟨js, d, -, hd, rfl⟩ := visit_succ h
    obtain ⟨hgrows, -⟩ := looks_grow (fun he => ih he) hd (hs.meet hn)
    split
    · exact hgrows.of_meet hn
    · exact hgrows.complete hn

end Keeps

/-- The search with frames has met what the recursive one has met, and put on the stack what that
has put there. -/
structure Follows (σ : Scan) (s : State) : Prop where
  next : σ.next = s.next
  numbers : σ.numbers = s.numbers
  stack : σ.stack = s.stack
  onStack : ∀ i, i ∈ σ.onStack ↔ i ∈ s.stack
  components : σ.components = s.components

section Turns

variable {operands : InstId → Checked (List InstId)} {σ τ : Scan} {s c d : State}
  {i j : InstId} {low n : Nat} {js left : List InstId} {below : List Frame}

theorem popThrough_append {new rest : List InstId} (hi : i ∉ new) :
    popThrough i (new ++ i :: rest) = (new ++ [i], rest) := by
  induction new with
  | nil =>
    unfold popThrough
    exact if_pos rfl
  | cons j new ih =>
    obtain ⟨hne, hnew⟩ := not_or.1 ((not_congr List.mem_cons).1 hi)
    rw [List.cons_append, popThrough, if_neg (Ne.symm hne), ih hnew]
    rfl

theorem mem_foldl_erase {popped : List InstId} {on : KeySet InstId} :
    j ∈ popped.foldl KeySet.erase on ↔ j ∈ on ∧ j ∉ popped := by
  induction popped generalizing on with
  | nil => simp
  | cons i popped ih =>
    rw [List.foldl_cons, ih, KeySet.mem_erase, List.mem_cons, not_or, and_assoc]

theorem Follows.enter (h : Follows σ s) (hi : ¬ s.Met i) (hjs : operands i = .ok js) :
    ∃ τ, σ.enter operands i = .ok τ ∧ Follows τ (s.meet i) ∧ τ.frames = ⟨i, js⟩ :: σ.frames ∧
      τ.lows.get? i = some s.next ∧ ∀ j, s.Met j → τ.lows.get? j = σ.lows.get? j := by
  unfold Scan.enter
  rw [hjs]
  refine ⟨_, rfl, ⟨?_, ?_, ?_, ?_, h.components⟩, rfl, ?_, ?_⟩
  · exact (congrArg (· + 1) h.next).trans (next_meet hi).symm
  · change σ.numbers.insert i σ.next = s.numbers.insert i s.next
    rw [h.numbers, h.next]
  · exact congrArg (List.cons i) h.stack
  · intro j
    change j ∈ σ.onStack.insert i ↔ j ∈ i :: s.stack
    rw [KeySet.mem_insert, List.mem_cons, h.onStack]
  · change (σ.lows.insert i σ.next).get? i = some s.next
    rw [Dict.get?_insert, if_pos rfl, h.next]
  · intro j hj
    change (σ.lows.insert i σ.next).get? j = σ.lows.get? j
    have hne : i ≠ j := by
      rintro rfl
      exact hi hj
    rw [Dict.get?_insert, if_neg hne]

theorem Follows.congr (h : Follows σ s) (lows : Dict InstId Nat) (frames : List Frame) :
    Follows { σ with lows, frames } s :=
  ⟨h.next, h.numbers, h.stack, h.onStack, h.components⟩

theorem lower_ok (h : σ.lows.get? i = some low) (n : Nat) :
    σ.lower i n = .ok { σ with lows := σ.lows.insert i (min low n) } := by
  unfold Scan.lower Dict.get
  rw [h]
  rfl

theorem Follows.close (h : Follows σ c) (hg : Grows (s.meet i) c) :
    Follows (σ.close i) (c.complete i) := by
  obtain ⟨new, hnew, hi⟩ := hg.above
  have hnodup := hg.tidy.nodup
  unfold Scan.close
  rw [complete_eq hnew hi, h.stack, hnew, popThrough_append hi]
  rw [hnew, ← List.singleton_append, ← List.append_assoc] at hnodup
  refine ⟨h.next, h.numbers, rfl, fun j => ?_, by rw [h.components]⟩
  change j ∈ (new ++ [i]).foldl KeySet.erase σ.onStack ↔ j ∈ s.stack
  rw [mem_foldl_erase, h.onStack, mem_stack hnew]
  constructor
  · rintro ⟨hj | hj, hnj⟩
    · exact hj
    · exact absurd hj hnj
  · intro hj
    exact ⟨.inl hj, fun hm => (List.nodup_append.1 hnodup).2.2 j hm j hj rfl⟩

theorem Follows.settle (h : Follows σ c) (hg : Grows (s.meet i) c) (hle : n ≤ s.next) :
    Follows (if n = s.next then σ.close i else σ) (if n < s.next then c else c.complete i) := by
  by_cases hn : n = s.next
  · rw [if_pos hn, if_neg (by omega)]
    exact h.close hg
  · rw [if_neg hn, if_pos (by omega)]
    exact h

theorem settled_frames : (if n = low then σ.close i else σ).frames = σ.frames := by
  split <;> rfl

theorem settled_lows : (if n = low then σ.close i else σ).lows = σ.lows := by
  split <;> rfl

theorem Follows.leave_frame (h : Follows σ c) (hg : Grows (s.meet i) c)
    (hlow : σ.lows.get? i = some n) (hle : n ≤ s.next) (hj : σ.lows.get? j = some low) :
    ∃ τ, σ.leave i (⟨j, left⟩ :: below) = .ok τ ∧ Follows τ
      (if n < s.next then c else c.complete i) ∧ τ.frames = ⟨j, left⟩ :: below ∧
      τ.lows.get? j = some (min low n) ∧
      ∀ k, k ≠ j → τ.lows.get? k = σ.lows.get? k := by
  have hnum : σ.numbers.get? i = some s.next := by
    rw [h.numbers]
    exact hg.number
  let ρ : Scan := { σ with lows := σ.lows.insert j (min low n), frames := ⟨j, left⟩ :: below }
  have hρ : Follows ρ c := h.congr _ _
  refine ⟨if n = s.next then ρ.close i else ρ, ?_, hρ.settle hg hle, settled_frames, ?_,
    fun k hk => ?_⟩
  · unfold Scan.leave Scan.lower Dict.get
    simp only [hlow, hj, hnum, ofOption_some, ok_bind, pure_eq_ok, ρ]
  · rw [settled_lows, Dict.get?_insert, if_pos rfl]
  · rw [settled_lows, Dict.get?_insert, if_neg (Ne.symm hk)]

theorem Follows.leave_last (h : Follows σ c) (hg : Grows (s.meet i) c)
    (hlow : σ.lows.get? i = some n) (hle : n ≤ s.next) :
    ∃ τ, σ.leave i [] = .ok τ ∧ Follows τ (if n < s.next then c else c.complete i) ∧
      τ.frames = [] := by
  have hnum : σ.numbers.get? i = some s.next := by
    rw [h.numbers]
    exact hg.number
  have hρ : Follows { σ with frames := [] } c := h.congr _ _
  refine ⟨if n = s.next then { σ with frames := [] : Scan }.close i else { σ with frames := [] },
    ?_, hρ.settle hg hle, settled_frames⟩
  unfold Scan.leave Dict.get
  simp only [hlow, hnum, ofOption_some, ok_bind, pure_eq_ok]

theorem loop_done (h : σ.frames = []) : repeatM (Scan.turn operands) σ = pure σ := by
  apply Looping.loop_end
  unfold Scan.turn
  rw [h]

theorem loop_inspect (h : σ.frames = ⟨i, j :: left⟩ :: below)
    (hτ : Scan.inspect operands { σ with frames := ⟨i, left⟩ :: below } i j = .ok τ) :
    repeatM (Scan.turn operands) σ = repeatM (Scan.turn operands) τ := by
  apply Looping.loop_next
  unfold Scan.turn
  rw [h]
  dsimp only
  rw [hτ, Looping.lift_ok, pure_bind]

theorem loop_leave (h : σ.frames = ⟨i, []⟩ :: below) (hτ : σ.leave i below = .ok τ) :
    repeatM (Scan.turn operands) σ = repeatM (Scan.turn operands) τ := by
  apply Looping.loop_next
  unfold Scan.turn
  rw [h]
  dsimp only
  rw [hτ, Looping.lift_ok, pure_bind]

theorem Follows.inspect_met (h : Follows σ c) (hlow : σ.lows.get? i = some low)
    (hj : c.numbers.get? j = some n) :
    ∃ τ, σ.inspect operands i j = .ok τ ∧ Follows τ c ∧ τ.frames = σ.frames ∧
      τ.lows.get? i = some (if j ∈ c.stack then min low n else low) ∧
      ∀ k, k ≠ i → τ.lows.get? k = σ.lows.get? k := by
  unfold Scan.inspect
  rw [h.numbers, hj]
  have hon : σ.onStack.contains j = true ↔ j ∈ c.stack := decide_eq_true_iff.trans (h.onStack j)
  by_cases hm : j ∈ c.stack
  · rw [if_pos hm]
    dsimp only
    rw [if_pos (hon.2 hm), lower_ok hlow]
    refine ⟨_, rfl, h.congr _ _, rfl, ?_, fun k hk => ?_⟩
    · rw [Dict.get?_insert, if_pos rfl]
    · rw [Dict.get?_insert, if_neg (Ne.symm hk)]
  · rw [if_neg hm]
    dsimp only
    rw [if_neg fun hc => hm (hon.1 hc)]
    exact ⟨σ, rfl, h, rfl, hlow, fun _ _ => rfl⟩

theorem inspect_new (h : Follows σ c) (hj : ¬ c.Met j) :
    σ.inspect operands i j = σ.enter operands j := by
  unfold Scan.inspect
  rw [h.numbers, get?_of_not_met hj]

/-- From where a frame is opened on top of another one until it is left, the turns do what a visit
does. -/
def Mirrored (operands : InstId → Checked (List InstId)) (depth : Nat) : Prop :=
  ∀ {c d : State} {j : InstId} {n : Nat} {σ : Scan} {i : InstId} {left : List InstId}
    {below : List Frame} {low : Nat}, visit operands depth c j = .ok (d, n) → Follows σ c →
    Tidy c → ¬ c.Met j →
    σ.frames = ⟨i, left⟩ :: below → c.Met i → σ.lows.get? i = some low →
      ∃ ρ τ, σ.enter operands j = .ok ρ ∧
      repeatM (Scan.turn operands) ρ = repeatM (Scan.turn operands) τ ∧
        Follows τ d ∧ τ.frames = ⟨i, left⟩ :: below ∧ τ.lows.get? i = some (min low n) ∧
        ∀ k, c.Met k → k ≠ i → τ.lows.get? k = σ.lows.get? k

theorem loop_looks {depth : Nat} (hv : Mirrored operands depth)
    (h : js.foldlM (look (visit operands depth)) (c, low) = .ok (d, n)) (hfollows : Follows σ c)
    (hframes : σ.frames = ⟨i, js⟩ :: below) (hc : Tidy c) (hi : c.Met i)
    (hlow : σ.lows.get? i = some low) :
    ∃ τ, repeatM (Scan.turn operands) σ = repeatM (Scan.turn operands) τ ∧ Follows τ d ∧
      τ.frames = ⟨i, []⟩ :: below ∧ τ.lows.get? i = some n ∧
      ∀ k, c.Met k → k ≠ i → τ.lows.get? k = σ.lows.get? k := by
  induction js generalizing c low σ with
  | nil =>
    cases h
    exact ⟨σ, rfl, hfollows, hframes, hlow, fun _ _ _ => rfl⟩
  | cons j js ih =>
    rw [List.foldlM_cons] at h
    obtain ⟨⟨e, m⟩, hlook, h⟩ := bind_eq_ok.1 h
    let ρ : Scan := { σ with frames := ⟨i, js⟩ :: below }
    have hρ : Follows ρ c := hfollows.congr _ _
    by_cases hj : c.Met j
    · obtain ⟨k, hk⟩ := met_iff.1 hj
      rw [look_of_met low hk] at hlook
      cases hlook
      obtain ⟨τ, hτ, hfollows', hframes', hlow', hsame⟩ := hρ.inspect_met hlow hk
      obtain ⟨υ, hυ, hend⟩ := ih h hfollows' hframes' hc hi hlow'
      refine ⟨υ, (loop_inspect hframes hτ).trans hυ, hend.1, hend.2.1, hend.2.2.1,
        fun l hl hne => ?_⟩
      exact (hend.2.2.2 l hl hne).trans (hsame l hne)
    · obtain ⟨n', he, rfl⟩ := look_eq_visit hj hlook
      have hgrows := visit_grows he hc hj
      obtain ⟨ρ', τ, henter, hloop, hfollows', hframes', hlow', hsame⟩ := hv he hρ hc hj rfl hi hlow
      rw [← inspect_new hρ hj] at henter
      obtain ⟨υ, hυ, hend⟩ := ih h hfollows' hframes' hgrows.tidy (hgrows.later.met hi) hlow'
      refine ⟨υ, ((loop_inspect hframes henter).trans hloop).trans hυ, hend.1, hend.2.1, hend.2.2.1,
        fun l hl hne => ?_⟩
      exact (hend.2.2.2 l (hgrows.later.met hl) hne).trans (hsame l hl hne)

theorem loop_enter {depth : Nat} (hv : Mirrored operands depth) (hjs : operands i = .ok js)
    (h : js.foldlM (look (visit operands depth)) (s.meet i, s.next) = .ok (d, n))
    (hfollows : Follows σ s) (hs : Tidy s) (hi : ¬ s.Met i) :
    Grows (s.meet i) d ∧ n ≤ s.next ∧
      ∃ ρ τ, σ.enter operands i = .ok ρ ∧ repeatM (Scan.turn operands) ρ = repeatM
        (Scan.turn operands) τ ∧ Follows τ d ∧ τ.frames = ⟨i, []⟩ :: σ.frames ∧
        τ.lows.get? i = some n ∧
        ∀ k, s.Met k → τ.lows.get? k = σ.lows.get? k := by
  obtain ⟨hgrows, hle⟩ := looks_grow visit_grows h (hs.meet hi)
  obtain ⟨ρ, henter, hρ, hframes, hlow, hsame⟩ := hfollows.enter hi hjs
  obtain ⟨τ, hτ, hfollows', hframes', hlow', hsame'⟩ :=
    loop_looks hv h hρ hframes (hs.meet hi) (met_meet.2 (.inl rfl)) hlow
  refine ⟨hgrows, hle, ρ, τ, henter, hτ, hfollows', hframes', hlow', fun k hk => ?_⟩
  have hne : k ≠ i := by
    rintro rfl
    exact hi hk
  exact (hsame' k (met_meet.2 (.inr hk)) hne).trans (hsame k hk)

theorem mirrored (operands : InstId → Checked (List InstId)) (depth : Nat) :
    Mirrored operands depth := by
  induction depth with
  | zero =>
    intro c d j n σ i left below low h
    cases h
  | succ depth ih =>
    intro c d j n σ i left below low h hfollows hc hj hframes hi hlow
    obtain ⟨js, e, hjs, he, rfl⟩ := visit_succ h
    obtain ⟨hgrows, hle, ρ, τ, henter, hloop, hτ, hframes', hn, hsame⟩ :=
      loop_enter ih hjs he hfollows hc hj
    rw [hframes] at hframes'
    have hlow' : τ.lows.get? i = some low := (hsame i hi).trans hlow
    obtain ⟨υ, hleave, hυ, hframes'', hlow'', hsame'⟩ := hτ.leave_frame hgrows hn hle hlow'
    refine ⟨ρ, υ, henter, hloop.trans (loop_leave hframes' hleave), hυ, hframes'', hlow'',
      fun k hk hne => ?_⟩
    exact (hsame' k hne).trans (hsame k hk)

theorem explore_follows {depth : Nat} (h : explore operands depth s i = .ok c)
    (hfollows : Follows σ s) (hs : Tidy s) (hframes : σ.frames = []) :
    ∃ τ, σ.explore operands i = pure τ ∧ Follows τ c ∧ Tidy c ∧ τ.frames = [] := by
  unfold Scan.explore
  rw [hfollows.numbers]
  by_cases hi : s.Met i
  · rw [explore_of_met hi] at h
    cases h
    exact ⟨σ, if_pos hi, hfollows, hs, hframes⟩
  · obtain ⟨⟨d, n⟩, hv, h⟩ := bind_eq_ok.1 ((if_neg hi).symm.trans h)
    cases h
    cases depth with
    | zero => cases hv
    | succ depth =>
      have hgrows := visit_grows hv hs hi
      obtain ⟨js, e, hjs, he, rfl⟩ := visit_succ hv
      obtain ⟨hgrows', hle, ρ, τ, henter, hloop, hτ, hframes', hn, -⟩ :=
        loop_enter (mirrored operands depth) hjs he hfollows hs hi
      rw [hframes] at hframes'
      obtain ⟨υ, hleave, hυ, hdone⟩ := hτ.leave_last hgrows' hn hle
      refine ⟨υ, (if_neg hi).trans ?_, hυ, hgrows.tidy, hdone⟩
      rw [henter, Looping.lift_ok, pure_bind, hloop, loop_leave hframes' hleave, loop_done hdone]

theorem explores_follow {depth : Nat} {roots : List InstId}
    (h : roots.foldlM (explore operands depth) s = .ok c) (hfollows : Follows σ s) (hs : Tidy s)
    (hframes : σ.frames = []) :
    ∃ τ, roots.foldlM (Scan.explore operands) σ = pure τ ∧ Follows τ c ∧ Tidy c ∧
      τ.frames = [] := by
  induction roots generalizing s σ with
  | nil =>
    cases h
    exact ⟨σ, rfl, hfollows, hs, hframes⟩
  | cons i roots ih =>
    rw [List.foldlM_cons] at h
    obtain ⟨d, hd, h⟩ := bind_eq_ok.1 h
    obtain ⟨ρ, hρ, hfollows', hd', hframes'⟩ := explore_follows hd hfollows hs hframes
    obtain ⟨τ, hτ, hend⟩ := ih h hfollows' hd' hframes'
    exact ⟨τ, by rw [List.foldlM_cons, hρ, pure_bind, hτ], hend⟩

theorem blocks_follow {depth : Nat} {insts : BlockId → Checked (List InstId)} {bs : List BlockId}
    {roots : List (List InstId)} (hroots : bs.mapM insts = .ok roots)
    (h : roots.flatten.foldlM (explore operands depth) s = .ok c)
    (hfollows : Follows σ s) (hs : Tidy s) (hframes : σ.frames = []) :
    ∃ τ, bs.foldlM
        (fun σ b => do
          let roots ← (insts b : Checked (List InstId))
          roots.foldlM (Scan.explore operands) σ : Scan → BlockId → Looping Scan) σ = pure τ ∧
      Follows τ c := by
  induction bs generalizing s σ roots with
  | nil =>
    cases hroots
    cases h
    exact ⟨σ, rfl, hfollows⟩
  | cons b bs ih =>
    obtain ⟨xs, rest, hxs, hrest, rfl⟩ := mapM_cons_eq_ok.1 hroots
    rw [List.flatten_cons, List.foldlM_append] at h
    obtain ⟨d, hd, h⟩ := bind_eq_ok.1 h
    obtain ⟨ρ, hρ, hfollows', hd', hframes'⟩ := explores_follow hd hfollows hs hframes
    obtain ⟨τ, hτ, hend⟩ := ih hrest h hfollows' hd' hframes'
    refine ⟨τ, ?_, hend⟩
    rw [List.foldlM_cons, hxs, Looping.lift_ok, pure_bind, hρ, pure_bind, hτ]

end Turns

end Components

namespace Func

variable {f : Func} {t : DominatorTree} {classes : List (List InstId)}

theorem componentSearch_eq (h : f.components t = .ok classes) :
    f.componentSearch t = pure classes := by
  obtain ⟨roots, hroots, h⟩ := bind_eq_ok.1 h
  obtain ⟨s, hs, h⟩ := bind_eq_ok.1 h
  cases h
  have hfollows : Components.Follows {} {} := ⟨rfl, rfl, rfl, fun _ => Iff.rfl, rfl⟩
  have htidy : Components.Tidy {} := ⟨List.nodup_nil, fun _ hi => absurd hi List.not_mem_nil⟩
  obtain ⟨τ, hτ, hend⟩ := Components.blocks_follow hroots hs hfollows htidy rfl
  unfold componentSearch
  rw [hτ, pure_bind, hend.components]

/-- The search ends, and parts the instructions in blocks that control may come to into the classes
of those that need each other. A class comes after all others that its instructions need. -/
theorem componentSearch_classes (hl : f.layout.Proper)
    (hp : ∀ i ∈ f.allInsts, ∃ inst, f.flow.inst? i = some inst)
    (hb : ∀ b ∈ f.blocks, f.hasBlock b = true)
    (ho : ∀ {i inst v}, f.flow.inst? i = some inst → v ∈ inst.args → ∃ o, f.flow.origin? v = some o)
    (ht : DominatorTree.ofFunc f = .ok t) :
    ∃ classes, (f.componentSearch t).run = some (.ok classes) ∧ f.components t = .ok classes ∧
      classes.flatten.Nodup ∧ (∀ c ∈ classes, c ≠ []) ∧ (∀ i, i ∈ classes.flatten ↔ f.InReach i) ∧
      (∀ c ∈ classes, ∀ i ∈ c, ∀ j, j ∈ c ↔ Connects f.Needs i j ∧ Connects f.Needs j i) ∧
      ∀ pre c post, classes = pre ++ c :: post → ∀ i ∈ c, ∀ j, Connects f.Needs i j →
        j ∈ pre.flatten ∨ j ∈ c := by
  obtain ⟨classes, hclasses, hcond, hcovers⟩ := components_ok hl hp hb ho ht
  refine ⟨classes, ?_, hclasses, hcond.nodup, hcond.nonempty, hcovers, ?_, ?_⟩
  · rw [componentSearch_eq hclasses]
    rfl
  · exact fun c hc i hi j => hcond.mem_iff hc hi
  · exact fun pre c post he i hi j => hcond.reaches_earlier he hi

/-- A loop that counts up from a product. -/
def counting : Checked Builder :=
  Func.build "f" ⟨[.int 32, .int 1], some (.int 32)⟩
    [.block (some "entry"), .block (some "loop"), .block (some "exit"), .const (.int32 1),
      .goTo (.append ⟨0⟩), .insert (.binary .mul ⟨0⟩ ⟨0⟩) (.int 32), .insert (.jump .br ⟨1⟩) .void,
      .goTo (.append ⟨1⟩), .insert (.phi .phi [⟨3⟩] [⟨0⟩]) (.int 32),
      .insert (.binary .add ⟨4⟩ ⟨2⟩) (.int 32), .edge ⟨2⟩ ⟨5⟩ ⟨1⟩,
      .insert (.branch .brCond ⟨1⟩ ⟨1⟩ ⟨2⟩) .void, .goTo (.append ⟨2⟩),
      .insert (.unary .retValue ⟨4⟩) .void]

theorem counting_classes : ∃ b t, counting = .ok b ∧ DominatorTree.ofFunc b.func = .ok t ∧
    (b.func.componentSearch t).run = some (.ok [[⟨0⟩], [⟨1⟩], [⟨3⟩, ⟨2⟩], [⟨4⟩], [⟨5⟩]]) ∧
    Connects b.func.Needs ⟨2⟩ ⟨3⟩ ∧ Connects b.func.Needs ⟨3⟩ ⟨2⟩ ∧
    ¬ Connects b.func.Needs ⟨0⟩ ⟨2⟩ := by
  obtain ⟨b, hb, h⟩ := exists_of_any (x := counting) (p := fun b =>
    (DominatorTree.ofFunc b.func).toOption.any fun t =>
    (b.func.components t).toOption.any (· == [[⟨0⟩], [⟨1⟩], [⟨3⟩, ⟨2⟩], [⟨4⟩], [⟨5⟩]]))
      (by decide +kernel)
  obtain ⟨t, ht, h⟩ := exists_of_any h
  obtain ⟨classes, hclasses, h⟩ := exists_of_any h
  obtain rfl := beq_iff_eq.1 h
  have hc := Func.build_coherent (by decide) hb
  obtain ⟨classes', hrun, hclasses', -, -, -, hmem, horder⟩ := componentSearch_classes hc.layout
    (fun i hi => (hc.placed i).1 hi) (fun b hb => (hc.known b).1 hb) hc.flow.operand ht
  cases hclasses.symm.trans hclasses'
  obtain ⟨hto, hfrom⟩ := (hmem [⟨3⟩, ⟨2⟩] (by decide) ⟨2⟩ (by decide) ⟨3⟩).1 (by decide)
  have hfirst := horder [] [⟨0⟩] _ rfl ⟨0⟩ (by decide) ⟨2⟩
  exact ⟨b, t, hb, ht, hrun, hto, hfrom, fun h => absurd (hfirst h) (by decide)⟩

end Func

end MiddleEnd
