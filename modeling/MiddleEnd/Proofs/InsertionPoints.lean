import MiddleEnd.Proofs.BuilderSteps

/-!
# Insertion points keep their place

A place stands for a gap in a block. What is added goes into the gap and the place follows it; what
is taken out, the instruction by which the place is told included, leaves the gap where it was. So
after any additions and removals the place is right behind what was added and is still there.
-/

namespace MiddleEnd

section Neighbours

variable {α : Type} [DecidableEq α] {x y : α} {pre post : List α}

theorem preceding_of_split (h : x ∉ pre) (hy : y ≠ x) :
    preceding x (pre ++ y :: x :: post) = some y := by
  induction pre with
  | nil => rw [List.nil_append, preceding, if_pos rfl]
  | cons a pre ih =>
    have hrest := ih fun hx => h (List.mem_cons_of_mem _ hx)
    cases pre with
    | nil =>
      show preceding x (a :: y :: x :: post) = some y
      rw [preceding, if_neg hy]
      exact hrest
    | cons b pre =>
      have hb : b ≠ x := fun e => h (e ▸ List.mem_cons_of_mem _ List.mem_cons_self)
      show preceding x (a :: b :: (pre ++ y :: x :: post)) = some y
      rw [preceding, if_neg hb]
      exact hrest

theorem preceding_head (h : x ∉ post) : preceding x (y :: post) = none := by
  induction post generalizing y with
  | nil => rfl
  | cons a post ih =>
    have ha : a ≠ x := fun e => h (e ▸ List.mem_cons_self)
    rw [preceding, if_neg ha]
    exact ih fun hx => h (List.mem_cons_of_mem _ hx)

theorem following_of_split (h : x ∉ pre) : following x (pre ++ x :: y :: post) = some y := by
  induction pre with
  | nil => rw [List.nil_append, following, if_pos rfl]
  | cons a pre ih =>
    have hrest := ih fun hx => h (List.mem_cons_of_mem _ hx)
    have ha : a ≠ x := fun e => h (e ▸ List.mem_cons_self)
    cases pre with
    | nil =>
      show following x (a :: x :: y :: post) = some y
      rw [following, if_neg ha]
      exact hrest
    | cons b pre =>
      show following x (a :: b :: (pre ++ x :: y :: post)) = some y
      rw [following, if_neg ha]
      exact hrest

theorem following_last (h : x ∉ pre) : following x (pre ++ [x]) = none := by
  induction pre with
  | nil => rfl
  | cons a pre ih =>
    have hrest := ih fun hx => h (List.mem_cons_of_mem _ hx)
    have ha : a ≠ x := fun e => h (e ▸ List.mem_cons_self)
    cases pre with
    | nil =>
      show following x (a :: x :: []) = none
      rw [following, if_neg ha]
      rfl
    | cons b pre =>
      show following x (a :: b :: (pre ++ [x])) = none
      rw [following, if_neg ha]
      exact hrest

theorem filter_ne_self (h : x ∉ pre) : pre.filter (· ≠ x) = pre :=
  List.filter_eq_self.2 fun a ha => by simpa using fun e : a = x => h (e ▸ ha)

end Neighbours

theorem Layout.Proper.takeOut {l : Layout} (h : l.Proper) {i : InstId} (hi : i ∈ l.allInsts) :
    ∃ l', l.removeInst i = .ok l' ∧ l'.Proper ∧ l'.blocks = l.blocks ∧
      (∀ j, j ∈ l'.allInsts ↔ j ∈ l.allInsts ∧ j ≠ i) ∧ ∀ d, l'.insts d = (l.insts d).map
        (·.filter (· ≠ i)) := by
  obtain ⟨c, xs, hxs, hix⟩ := (mem_allInsts_iff h.blocks_nodup).1 hi
  obtain ⟨hproper, hat⟩ := h.lose hxs hix
  refine ⟨_, removeInst_ok h hxs hix, hproper, blocks_editRow _ _ _, fun j => ?_, fun d => ?_⟩
  · rw [hproper.mem_allInsts, hat, h.mem_allInsts]
    by_cases hj : i = j
    · simp [hj]
    · simp [hj, Ne.symm hj]
  · rw [insts_editRow]
    split
    · rename_i hd
      rw [hd]
    · rename_i hd
      cases hys : l.insts d with
      | error e => rfl
      | ok ys =>
        have hiy : i ∉ ys := fun hiy => hd (h.one_block hys hxs hiy hix)
        rw [map_ok, filter_ne_self hiy]

namespace InsertPos

variable {l l' : Layout} {pos pos' : InsertPos} {c : BlockId} {pre post : List InstId} {i : InstId}

theorem Names.gap (hl : l.Proper) (h : pos.Names l) (hpos : pos ≠ .none) :
    ∃ c pre post, pos.Gap c pre post ∧ l.insts c = .ok (pre ++ post) := by
  cases pos with
  | none => exact absurd rfl hpos
  | append c =>
    obtain ⟨xs, hxs⟩ := Layout.mem_blocks_iff.1 h
    exact ⟨c, xs, [], .append c xs, by rw [hxs, List.append_nil]⟩
  | prepend c =>
    obtain ⟨xs, hxs⟩ := Layout.mem_blocks_iff.1 h
    exact ⟨c, [], xs, .prepend c xs, hxs⟩
  | after j =>
    obtain ⟨c, xs, hxs, hj⟩ := (Layout.mem_allInsts_iff hl.blocks_nodup).1 h
    obtain ⟨pre, post, rfl⟩ := List.append_of_mem hj
    exact ⟨c, pre ++ [j], post, .after j c pre post,
      by rw [hxs, List.append_assoc, List.singleton_append]⟩
  | before j =>
    obtain ⟨c, xs, hxs, hj⟩ := (Layout.mem_allInsts_iff hl.blocks_nodup).1 h
    obtain ⟨pre, post, rfl⟩ := List.append_of_mem hj
    exact ⟨c, pre, j :: post, .before j c pre post, hxs⟩

/-- A released place stands for the same gap without the instruction that is about to go. -/
theorem Gap.release_ok (h : pos.Gap c pre post) (hl : l.Proper) (hc : l.insts c = .ok (pre ++ post))
    (i : InstId) :
    ∃ pos', pos.release i l = .ok pos' ∧ pos'.Gap c (pre.filter (· ≠ i)) (post.filter (· ≠ i)) := by
  have hn := hl.insts_nodup hc
  cases h with
  | append => exact ⟨_, rfl, .append c _⟩
  | prepend => exact ⟨_, rfl, .prepend c _⟩
  | after j _ pre =>
    by_cases hj : j = i
    · subst hj
      rw [List.append_assoc, List.singleton_append] at hc hn
      obtain ⟨hout, -⟩ := List.nodup_cons.1 (List.nodup_middle.1 hn)
      rw [List.mem_append, not_or] at hout
      have hat := Layout.blockOf_ok hl hc (List.mem_append_right _ List.mem_cons_self)
      have hgone : [j].filter (· ≠ j) = [] := by simp
      rw [List.filter_append, filter_ne_self hout.1, filter_ne_self hout.2, hgone, List.append_nil]
      unfold release
      simp only [if_pos, Layout.prevInst?, hat, ok_bind, hc]
      -- the place is told by what stands before, or by the block
      rcases List.eq_nil_or_concat pre with rfl | ⟨front, k, rfl⟩
      · rw [List.nil_append, preceding_head hout.2]
        exact ⟨_, rfl, .prepend c _⟩
      · rw [List.concat_eq_append] at hout ⊢
        have hk : k ≠ j := fun e => hout.1 (e ▸ List.mem_append_right _ List.mem_cons_self)
        have hfront : j ∉ front := fun hm => hout.1 (List.mem_append_left _ hm)
        rw [List.append_assoc, List.singleton_append, preceding_of_split hfront hk]
        exact ⟨_, rfl, .after k c front post⟩
    · refine ⟨_, if_neg hj, ?_⟩
      have hkeep : [j].filter (· ≠ i) = [j] := by simp [hj]
      rw [List.filter_append, hkeep]
      exact .after j c _ _
  | before j _ _ post =>
    by_cases hj : j = i
    · subst hj
      obtain ⟨hout, -⟩ := List.nodup_cons.1 (List.nodup_middle.1 hn)
      rw [List.mem_append, not_or] at hout
      have hat := Layout.blockOf_ok hl hc (List.mem_append_right _ List.mem_cons_self)
      have hgone : (j :: post).filter (· ≠ j) = post := by
        rw [List.filter_cons_of_neg (by simp), filter_ne_self hout.2]
      rw [filter_ne_self hout.1, hgone]
      unfold release
      simp only [if_pos, Layout.nextInst?, hat, ok_bind, hc]
      cases post with
      | nil =>
        rw [following_last hout.1]
        exact ⟨_, rfl, .append c _⟩
      | cons k post =>
        rw [following_of_split hout.1]
        exact ⟨_, rfl, .before k c _ _⟩
    · refine ⟨_, if_neg hj, ?_⟩
      rw [List.filter_cons_of_pos (by simpa using hj)]
      exact .before j c _ _

end InsertPos

/-- What happens at an insertion point. -/
inductive Placing where
  | add (i : InstId)
  | remove (i : InstId)
  deriving DecidableEq, Repr

namespace Placing

/-- The insertion point and the layout afterwards. -/
def apply : InsertPos × Layout → Placing → Checked (InsertPos × Layout)
  | (pos, l), add i => pos.place i l
  | (pos, l), remove i => do
    let pos ← pos.release i l
    .ok (pos, ← l.removeInst i)

/-- Beginning with some placed instructions, only fresh ones are added and only placed ones
removed. -/
def Fit : List InstId → List Placing → Prop
  | _, [] => True
  | placed, add i :: rest => i ∉ placed ∧ Fit (i :: placed) rest
  | placed, remove i :: rest => i ∈ placed ∧ Fit (placed.filter (· ≠ i)) rest

instance decidableFit (placed : List InstId) :
    (changes : List Placing) → Decidable (Fit placed changes)
  | [] => isTrue trivial
  | add i :: rest =>
    have := decidableFit (i :: placed) rest
    inferInstanceAs (Decidable (i ∉ placed ∧ Fit (i :: placed) rest))
  | remove i :: rest =>
    have := decidableFit (placed.filter (· ≠ i)) rest
    inferInstanceAs (Decidable (i ∈ placed ∧ Fit (placed.filter (· ≠ i)) rest))

/-- The added instructions that are still there, in the order of their addition. -/
def follow (added : List InstId) : Placing → List InstId
  | add i => added ++ [i]
  | remove i => added.filter (· ≠ i)

/-- The instruction is never removed. -/
def spares (changes : List Placing) (i : InstId) : Bool := changes.all (· ≠ remove i)

theorem filter_spares_add (i : InstId) (rest : List Placing) (xs : List InstId) :
    xs.filter (spares (add i :: rest)) = xs.filter (spares rest) := by
  refine List.filter_congr fun j _ => ?_
  simp [spares]

theorem filter_spares_remove (i : InstId) (rest : List Placing) (xs : List InstId) :
    xs.filter (spares (remove i :: rest)) = (xs.filter (· ≠ i)).filter (spares rest) := by
  rw [List.filter_filter]
  refine List.filter_congr fun j _ => ?_
  simp [spares, Bool.and_comm, eq_comm]

/-- The place is right behind what was added, and that is in one piece in the gap. -/
structure Follows (c : BlockId) (pre added post : List InstId) (pos : InsertPos) (l : Layout) :
    Prop where
  proper : l.Proper
  insts : l.insts c = .ok (pre ++ added ++ post)
  gap : pos.Gap c (pre ++ added) post

variable {c : BlockId} {pre added post : List InstId} {pos : InsertPos} {l : Layout}

theorem Follows.add_ok (h : Follows c pre added post pos l) {i : InstId} (hi : i ∉ l.allInsts) :
    ∃ pos' l', apply (pos, l) (add i) = .ok (pos', l') ∧ Follows c pre (added ++ [i]) post pos' l' ∧
      l'.blocks = l.blocks ∧ (∀ j, j ∈ l'.allInsts ↔ j = i ∨ j ∈ l.allInsts) ∧
      ∀ d ≠ c, l'.insts d = l.insts d := by
  obtain ⟨pos', F, hplace, hF, hgap⟩ := h.gap.place_ok h.proper h.insts hi
  obtain ⟨hproper, hblocks, hmem, -⟩ := InsertPos.place_gains h.proper hplace
  have hinsts : (l.editRow c F).insts c = .ok (pre ++ (added ++ [i]) ++ post) := by
    rw [Layout.insts_editRow_self _ h.insts, hF]
    simp
  refine ⟨pos', _, hplace, ⟨hproper, hinsts, ?_⟩, hblocks, hmem,
    fun d hd => Layout.insts_editRow_ne _ hd⟩
  rw [← List.append_assoc]
  exact hgap

theorem Follows.remove_ok (h : Follows c pre added post pos l) {i : InstId} (hi : i ∈ l.allInsts) :
    ∃ pos' l', apply (pos, l) (remove i) = .ok (pos', l') ∧
      Follows c (pre.filter (· ≠ i)) (added.filter (· ≠ i)) (post.filter (· ≠ i)) pos' l' ∧
      l'.blocks = l.blocks ∧ (∀ j, j ∈ l'.allInsts ↔ j ∈ l.allInsts ∧ j ≠ i) ∧
      ∀ d, l'.insts d = (l.insts d).map (·.filter (· ≠ i)) := by
  obtain ⟨pos', hrelease, hgap⟩ := h.gap.release_ok h.proper h.insts i
  obtain ⟨l', hremove, hproper, hblocks, hmem, hinsts⟩ := h.proper.takeOut hi
  refine ⟨pos', l', ?_, ⟨hproper, ?_, ?_⟩, hblocks, hmem, hinsts⟩
  · simp only [apply, hrelease, hremove, ok_bind]
  · rw [hinsts, h.insts, map_ok, List.filter_append, List.filter_append]
  · rw [← List.filter_append]
    exact hgap

/-- Any number of additions and removals. -/
theorem Follows.run_ok {changes : List Placing} (h : Follows c pre added post pos l)
    {placed : List InstId} (hplaced : ∀ i, i ∈ l.allInsts ↔ i ∈ placed)
    (hfit : Fit placed changes) :
    ∃ pos' l', changes.foldlM apply (pos, l) = .ok (pos', l') ∧
      Follows c (pre.filter (spares changes)) (changes.foldl follow added)
        (post.filter (spares changes)) pos' l' ∧
      l'.blocks = l.blocks ∧ ∀ d ≠ c, l'.insts d = (l.insts d).map (·.filter (spares changes)) := by
  induction changes generalizing pre added post pos l placed with
  | nil =>
    have hall : ∀ xs : List InstId, xs.filter (spares []) = xs :=
      fun xs => List.filter_eq_self.2 fun _ _ => rfl
    refine ⟨pos, l, rfl, by rw [hall, hall]; exact h, rfl, fun d _ => ?_⟩
    cases l.insts d with
    | error e => rfl
    | ok xs => rw [map_ok, hall]
  | cons change rest ih =>
    cases change with
    | add i =>
      obtain ⟨hi, hfit⟩ := hfit
      obtain ⟨pos₁, l₁, happly, h₁, hblocks, hmem, hinsts⟩ :=
        h.add_ok fun hl => hi ((hplaced i).1 hl)
      have hplaced₁ : ∀ j, j ∈ l₁.allInsts ↔ j ∈ i :: placed :=
        fun j => by rw [hmem, hplaced, List.mem_cons]
      obtain ⟨pos', l', hrun, h', hblocks', hinsts'⟩ := ih h₁ hplaced₁ hfit
      refine ⟨pos', l', ?_, ?_, hblocks'.trans hblocks, fun d hd => ?_⟩
      · rw [List.foldlM_cons, happly]
        exact hrun
      · rw [filter_spares_add, filter_spares_add]
        exact h'
      · rw [hinsts' d hd, hinsts d hd]
        simp only [filter_spares_add]
    | remove i =>
      obtain ⟨hi, hfit⟩ := hfit
      obtain ⟨pos₁, l₁, happly, h₁, hblocks, hmem, hinsts⟩ := h.remove_ok ((hplaced i).2 hi)
      have hplaced₁ : ∀ j, j ∈ l₁.allInsts ↔ j ∈ placed.filter (· ≠ i) := fun j => by
        rw [hmem, hplaced, List.mem_filter, decide_eq_true_eq]
      obtain ⟨pos', l', hrun, h', hblocks', hinsts'⟩ := ih h₁ hplaced₁ hfit
      refine ⟨pos', l', ?_, ?_, hblocks'.trans hblocks, fun d hd => ?_⟩
      · rw [List.foldlM_cons, happly]
        exact hrun
      · rw [filter_spares_remove, filter_spares_remove]
        exact h'
      · rw [hinsts' d hd, hinsts d]
        cases l.insts d with
        | error e => rfl
        | ok xs => rw [map_ok, map_ok, map_ok, filter_spares_remove]

end Placing

theorem Layout.proper_of_edits {edits : List LayoutEdit} {l : Layout}
    (h : edits.foldlM Layout.apply {} = .ok l) :
    l.Proper := by
  have hagree := LinkedLayout.shows_empty.run edits
  rw [h] at hagree
  generalize edits.foldlM LinkedLayout.apply {} = x at hagree
  cases hagree with
  | ok hshows => exact hshows.proper

namespace InsertPos

open Placing

/-- Whatever is added at a place and taken out of the layout, every step goes through, what was
added and is still there stands in one piece where the place was, in the order of addition, and the
place is right behind it. -/
theorem keeps_place {edits : List LayoutEdit} {l : Layout} {pos : InsertPos}
    {changes : List Placing} (hl : edits.foldlM Layout.apply {} = .ok l) (hnames : pos.Names l)
    (hpos : pos ≠ .none) (hfit : Fit l.allInsts changes) :
    ∃ c pre post, pos.Gap c pre post ∧ l.insts c = .ok (pre ++ post) ∧
      ∃ pos' l' pre' added post', changes.foldlM Placing.apply (pos, l) = .ok (pos', l') ∧
        pre' = pre.filter (spares changes) ∧ added = changes.foldl follow [] ∧ post' = post.filter
          (spares changes) ∧
        l'.insts c = .ok (pre' ++ added ++ post') ∧ pos'.Gap c (pre' ++ added) post' ∧
        l'.blocks = l.blocks ∧ ∀ d ≠ c, l'.insts d = (l.insts d).map
          (·.filter (spares changes)) := by
  have hproper := Layout.proper_of_edits hl
  obtain ⟨c, pre, post, hgap, hc⟩ := hnames.gap hproper hpos
  have hstart : Follows c pre [] post pos l :=
    ⟨hproper, by rw [List.append_nil, hc], by rw [List.append_nil]; exact hgap⟩
  obtain ⟨pos', l', hrun, hend, hblocks, hothers⟩ := hstart.run_ok (fun i => Iff.rfl) hfit
  exact ⟨c, pre, post, hgap, hc, pos', l', _, _, _, hrun, rfl, rfl, rfl, hend.insts, hend.gap,
    hblocks, hothers⟩

/-- Two instructions in a block and one in another. -/
def plainEdits : List LayoutEdit :=
  [.appendBlock ⟨0⟩, .appendBlock ⟨1⟩, .appendInst ⟨0⟩ ⟨0⟩, .appendInst ⟨1⟩ ⟨0⟩,
    .appendInst ⟨2⟩ ⟨1⟩]

/-- The instruction behind which the place is goes, then what was added goes or stays, then all that
was there goes. -/
def churn : List Placing :=
  [.add ⟨3⟩, .remove ⟨3⟩, .remove ⟨0⟩, .add ⟨4⟩, .add ⟨5⟩, .remove ⟨4⟩, .remove ⟨2⟩,
    .remove ⟨1⟩, .add ⟨3⟩]

theorem churn_keeps_place : ∃ l l' c pre post, plainEdits.foldlM Layout.apply {} = .ok l ∧
    (InsertPos.after ⟨0⟩).Gap c pre post ∧ l.insts c = .ok (pre ++ post) ∧
    churn.foldlM Placing.apply (.after ⟨0⟩, l) = .ok (.after ⟨3⟩, l') ∧
    l'.insts ⟨0⟩ = .ok [⟨5⟩, ⟨3⟩] ∧ (InsertPos.after ⟨3⟩).Gap c
      (pre.filter (spares churn) ++ [⟨5⟩, ⟨3⟩]) (post.filter (spares churn)) := by
  have hl : plainEdits.foldlM Layout.apply {} = .ok ⟨[⟨⟨0⟩, [⟨0⟩, ⟨1⟩]⟩, ⟨⟨1⟩, [⟨2⟩]⟩]⟩ := rfl
  have hnames : (InsertPos.after ⟨0⟩).Names ⟨[⟨⟨0⟩, [⟨0⟩, ⟨1⟩]⟩, ⟨⟨1⟩, [⟨2⟩]⟩]⟩ := by decide
  have hfit : Fit (Layout.allInsts ⟨[⟨⟨0⟩, [⟨0⟩, ⟨1⟩]⟩, ⟨⟨1⟩, [⟨2⟩]⟩]⟩) churn := by decide
  obtain ⟨c, pre, post, hgap, hc, pos', l', _, added, _, hrun, rfl, hadded, rfl, -, hgap', -⟩ :=
    keeps_place hl hnames (by decide) hfit
  have hend : churn.foldlM Placing.apply (.after ⟨0⟩, ⟨[⟨⟨0⟩, [⟨0⟩, ⟨1⟩]⟩, ⟨⟨1⟩, [⟨2⟩]⟩]⟩) =
      .ok (.after ⟨3⟩, ⟨[⟨⟨0⟩, [⟨5⟩, ⟨3⟩]⟩, ⟨⟨1⟩, []⟩]⟩) := rfl
  cases hend.symm.trans hrun
  have hleft : added = [⟨5⟩, ⟨3⟩] := hadded
  subst hleft
  exact ⟨_, _, c, pre, post, hl, hgap, hc, hend, rfl, hgap'⟩

end InsertPos

end MiddleEnd
