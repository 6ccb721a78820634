import MiddleEnd.Layout
import MiddleEnd.Proofs.Containers

/-!
# Placement of instructions

A layout is proper if no block and no instruction stands in it twice. Edits of one row keep it
proper, and leave the other rows alone.
-/

namespace MiddleEnd

section Neighbours

variable {α : Type} [DecidableEq α]

theorem placeAfter_of_split {x new : α} {pre post : List α} (h : x ∉ pre) :
    placeAfter x new (pre ++ x :: post) = pre ++ x :: new :: post := by
  induction pre with
  | nil => simp [placeAfter]
  | cons a pre ih =>
    have hne : a ≠ x := fun e => h (e ▸ List.mem_cons_self)
    simp [placeAfter, hne, ih fun hm => h (List.mem_cons_of_mem _ hm)]

theorem placeBefore_of_split {x new : α} {pre post : List α} (h : x ∉ pre) :
    placeBefore x new (pre ++ x :: post) = pre ++ new :: x :: post := by
  induction pre with
  | nil => simp [placeBefore]
  | cons a pre ih =>
    have hne : a ≠ x := fun e => h (e ▸ List.mem_cons_self)
    simp [placeBefore, hne, ih fun hm => h (List.mem_cons_of_mem _ hm)]

theorem split_first {x : α} {xs : List α} (h : x ∈ xs) :
    ∃ pre post, xs = pre ++ x :: post ∧ x ∉ pre := by
  induction xs with
  | nil => cases h
  | cons a xs ih =>
    by_cases hax : a = x
    · exact ⟨[], xs, by rw [hax]; rfl, List.not_mem_nil⟩
    · have hx : x ∈ xs := (List.mem_cons.1 h).resolve_left fun e => hax e.symm
      obtain ⟨pre, post, rfl, hp⟩ := ih hx
      refine ⟨a :: pre, post, rfl, ?_⟩
      intro hm
      rcases List.mem_cons.1 hm with e | hm
      · exact hax e.symm
      · exact hp hm

end Neighbours

namespace Layout

structure Proper (l : Layout) : Prop where
  blocks_nodup : l.blocks.Nodup
  insts_nodup : ∀ {b xs}, l.insts b = .ok xs → xs.Nodup
  one_block : ∀ {b b' xs xs' i}, l.insts b = .ok xs → l.insts b' = .ok xs' → i ∈ xs →
    i ∈ xs' → b = b'

theorem insts_eq_ok {l : Layout} {b : BlockId} {xs : List InstId} :
    l.insts b = .ok xs ↔ ∃ r, l.row? b = some r ∧ r.insts = xs := by
  unfold insts row
  cases l.row? b with
  | none => simp
  | some r => simp

theorem row?_block {l : Layout} {b : BlockId} {r : Row} (h : l.row? b = some r) : r.block = b := by
  simpa using List.find?_some h

theorem row?_mem {l : Layout} {b : BlockId} {r : Row} (h : l.row? b = some r) : r ∈ l.rows :=
  List.mem_of_find?_eq_some h

theorem mem_blocks_iff {l : Layout} {b : BlockId} : b ∈ l.blocks ↔ ∃ xs, l.insts b = .ok xs := by
  simp only [insts_eq_ok]
  constructor
  · intro h
    obtain ⟨r, hr, rfl⟩ := List.mem_map.1 h
    cases hf : l.row? r.block with
    | none =>
      have := List.find?_eq_none.1 hf r hr
      simp at this
    | some r' => exact ⟨r'.insts, r', rfl, rfl⟩
  · rintro ⟨xs, r, hr, rfl⟩
    exact List.mem_map.2 ⟨r, row?_mem hr, row?_block hr⟩

theorem hasBlock_iff {l : Layout} {b : BlockId} : l.hasBlock b = true ↔ b ∈ l.blocks := by
  rw [hasBlock, Option.isSome_iff_exists, mem_blocks_iff]
  simp only [insts_eq_ok]
  constructor
  · rintro ⟨r, hr⟩; exact ⟨r.insts, r, hr, rfl⟩
  · rintro ⟨_, r, hr, _⟩; exact ⟨r, hr⟩

theorem row?_of_mem {l : Layout} (h : l.blocks.Nodup) {r : Row} (hr : r ∈ l.rows) :
    l.row? r.block = some r := by
  unfold blocks at h
  unfold row?
  generalize l.rows = rows at *
  induction rows with
  | nil => cases hr
  | cons a rows ih =>
    rw [List.map_cons, List.nodup_cons] at h
    rw [List.find?_cons]
    rcases List.mem_cons.1 hr with rfl | hr
    · simp
    · have hne : a.block ≠ r.block := fun e => h.1 (e ▸ List.mem_map_of_mem hr)
      simp [hne, ih h.2 hr]

theorem insts_of_mem {l : Layout} (h : l.blocks.Nodup) {r : Row} (hr : r ∈ l.rows) :
    l.insts r.block = .ok r.insts :=
  insts_eq_ok.2 ⟨r, row?_of_mem h hr, rfl⟩

theorem ext_insts {l l' : Layout} (hn : l.blocks.Nodup) (hb : l'.blocks = l.blocks)
    (hi : ∀ b, l'.insts b = l.insts b) :
    l' = l := by
  have hn' : l'.blocks.Nodup := hb ▸ hn
  suffices hrows : l'.rows = l.rows by
    cases l
    cases l'
    exact congrArg Layout.mk hrows
  refine List.ext_getElem? fun n => ?_
  have hat : (l'.rows[n]?).map Row.block = (l.rows[n]?).map Row.block := by
    rw [← List.getElem?_map, ← List.getElem?_map]
    exact congrArg (·[n]?) hb
  cases hr : l.rows[n]? with
  | none =>
    rw [hr, Option.map_none, Option.map_eq_none_iff] at hat
    exact hat
  | some r =>
    rw [hr, Option.map_some, Option.map_eq_some_iff] at hat
    obtain ⟨r', hr', hblock⟩ := hat
    have h := insts_of_mem hn (List.mem_of_getElem? hr)
    have h' := insts_of_mem hn' (List.mem_of_getElem? hr')
    rw [hi, hblock, h] at h'
    cases r
    cases r'
    cases hblock
    cases h'
    exact hr'

theorem mem_allInsts_iff {l : Layout} (h : l.blocks.Nodup) {i : InstId} :
    i ∈ l.allInsts ↔ ∃ b xs, l.insts b = .ok xs ∧ i ∈ xs := by
  rw [allInsts, List.mem_flatMap]
  constructor
  · rintro ⟨r, hr, hi⟩
    exact ⟨r.block, r.insts, insts_of_mem h hr, hi⟩
  · rintro ⟨b, xs, hb, hi⟩
    obtain ⟨r, hr, rfl⟩ := insts_eq_ok.1 hb
    exact ⟨r, row?_mem hr, hi⟩

theorem Proper.allInsts_nodup {l : Layout} (h : l.Proper) : l.allInsts.Nodup := by
  have hn : l.rows.Pairwise fun r s => r.block ≠ s.block := List.pairwise_map.1 h.blocks_nodup
  refine List.pairwise_flatMap.2 ⟨fun r hr => h.insts_nodup (insts_of_mem h.blocks_nodup hr),
    hn.imp_of_mem ?_⟩
  rintro r s hr hs hne i hi j hj rfl
  exact hne (h.one_block (insts_of_mem h.blocks_nodup hr) (insts_of_mem h.blocks_nodup hs) hi hj)

theorem Proper.blockOf?_eq_some {l : Layout} (h : l.Proper) {i : InstId} {b : BlockId} :
    l.blockOf? i = some b ↔ ∃ xs, l.insts b = .ok xs ∧ i ∈ xs := by
  rw [blockOf?, Option.map_eq_some_iff]
  constructor
  · rintro ⟨r, hr, rfl⟩
    have hi : i ∈ r.insts := by simpa using List.find?_some hr
    exact ⟨r.insts, insts_of_mem h.blocks_nodup (List.mem_of_find?_eq_some hr), hi⟩
  · rintro ⟨xs, hb, hi⟩
    obtain ⟨r, hr, rfl⟩ := insts_eq_ok.1 hb
    cases hf : l.rows.find? (i ∈ ·.insts) with
    | none =>
      have := List.find?_eq_none.1 hf r (row?_mem hr)
      simp [hi] at this
    | some r' =>
      have hi' : i ∈ r'.insts := by simpa using List.find?_some hf
      have hb' := insts_of_mem h.blocks_nodup (List.mem_of_find?_eq_some hf)
      exact ⟨r', rfl, h.one_block hb' hb hi' hi⟩

theorem Proper.blockOf?_eq_none {l : Layout} (h : l.Proper) {i : InstId} :
    l.blockOf? i = none ↔ i ∉ l.allInsts := by
  rw [mem_allInsts_iff h.blocks_nodup]
  constructor
  · rintro hn ⟨b, xs, hb, hi⟩
    rw [h.blockOf?_eq_some.2 ⟨xs, hb, hi⟩] at hn
    cases hn
  · intro hn
    cases hf : l.blockOf? i with
    | none => rfl
    | some b =>
      obtain ⟨xs, hb, hi⟩ := h.blockOf?_eq_some.1 hf
      exact absurd ⟨b, xs, hb, hi⟩ hn

@[simp]
theorem blocks_editRow (l : Layout) (b : BlockId) (f : List InstId → List InstId) :
    (l.editRow b f).blocks = l.blocks := by
  simp only [blocks, editRow, List.map_map]
  congr 1
  funext r
  simp only [Function.comp]
  split <;> rfl

theorem row?_editRow (l : Layout) (b b' : BlockId) (f : List InstId → List InstId) :
    (l.editRow b f).row? b' =
      (l.row? b').map fun r => if r.block = b then { r with insts := f r.insts } else r := by
  simp only [row?, editRow]
  generalize l.rows = rows
  induction rows with
  | nil => rfl
  | cons a rows ih =>
    rw [List.map_cons, List.find?_cons, List.find?_cons]
    have hb : (if a.block = b then { a with insts := f a.insts } else a).block = a.block := by
      split <;> rfl
    rw [hb]
    split
    · rfl
    · exact ih

theorem insts_editRow (l : Layout) (b b' : BlockId) (f : List InstId → List InstId) :
    (l.editRow b f).insts b' = if b' = b then (l.insts b).map f else l.insts b' := by
  unfold insts row
  rw [row?_editRow]
  by_cases hb : b' = b
  · subst hb
    rw [if_pos rfl]
    cases hr : l.row? b' with
    | none => rfl
    | some r => simp [row?_block hr]
  · rw [if_neg hb]
    cases hr : l.row? b' with
    | none => rfl
    | some r =>
      have : r.block ≠ b := fun e => hb ((row?_block hr).symm.trans e)
      simp [this]

theorem insts_editRow_ne {l : Layout} {b b' : BlockId} (f : List InstId → List InstId)
    (h : b' ≠ b) :
    (l.editRow b f).insts b' = l.insts b' := by
  rw [insts_editRow, if_neg h]

theorem insts_editRow_self {l : Layout} {b : BlockId} {xs : List InstId}
    (f : List InstId → List InstId) (h : l.insts b = .ok xs) :
    (l.editRow b f).insts b = .ok (f xs) := by
  rw [insts_editRow, if_pos rfl, h, map_ok]

theorem Proper.editRow {l : Layout} (h : l.Proper) {b : BlockId} {f : List InstId → List InstId}
    {xs : List InstId} (hb : l.insts b = .ok xs) (hn : (f xs).Nodup)
    (hf : ∀ i ∈ f xs, i ∈ xs ∨ i ∉ l.allInsts) : (l.editRow b f).Proper where
  blocks_nodup := by rw [blocks_editRow]; exact h.blocks_nodup
  insts_nodup := by
    intro c ys hc
    by_cases hcb : c = b
    · subst hcb
      rw [insts_editRow_self f hb] at hc
      cases hc
      exact hn
    · rw [insts_editRow_ne f hcb] at hc
      exact h.insts_nodup hc
  one_block := by
    have other : ∀ {c c' ys ys' i}, c' ≠ b → (l.editRow b f).insts c = .ok ys →
        (l.editRow b f).insts c' = .ok ys' → i ∈ ys → i ∈ ys' → c = c' := by
      intro c c' ys ys' i hc' hy hy' hi hi'
      rw [insts_editRow_ne f hc'] at hy'
      by_cases hcb : c = b
      · subst hcb
        rw [insts_editRow_self f hb] at hy
        cases hy
        rcases hf i hi with hx | hx
        · exact h.one_block hb hy' hx hi'
        · exact absurd ((mem_allInsts_iff h.blocks_nodup).2 ⟨c', ys', hy', hi'⟩) hx
      · rw [insts_editRow_ne f hcb] at hy
        exact h.one_block hy hy' hi hi'
    intro c c' ys ys' i hy hy' hi hi'
    by_cases hc' : c' = b
    · by_cases hc : c = b
      · rw [hc, hc']
      · exact (other hc hy' hy hi' hi).symm
    · exact other hc' hy hy' hi hi'

theorem mem_allInsts_editRow {l : Layout} (h : l.Proper) {b : BlockId}
    {f : List InstId → List InstId} {xs : List InstId} (hb : l.insts b = .ok xs) {i : InstId} :
    i ∈ (l.editRow b f).allInsts ↔ i ∈ f xs ∨ (i ∈ l.allInsts ∧ i ∉ xs) := by
  have hn : (l.editRow b f).blocks.Nodup := by rw [blocks_editRow]; exact h.blocks_nodup
  rw [mem_allInsts_iff hn, mem_allInsts_iff h.blocks_nodup]
  constructor
  · rintro ⟨c, ys, hc, hi⟩
    by_cases hcb : c = b
    · subst hcb
      rw [insts_editRow_self f hb] at hc
      cases hc
      exact .inl hi
    · rw [insts_editRow_ne f hcb] at hc
      exact .inr ⟨⟨c, ys, hc, hi⟩, fun hx => hcb (h.one_block hc hb hi hx)⟩
  · rintro (hi | ⟨⟨c, ys, hc, hi⟩, hx⟩)
    · exact ⟨b, f xs, insts_editRow_self f hb, hi⟩
    · have hcb : c ≠ b := by
        rintro rfl
        rw [hb] at hc
        cases hc
        exact hx hi
      exact ⟨c, ys, by rw [insts_editRow_ne f hcb, hc], hi⟩

theorem checkFresh_ok {l : Layout} (h : l.Proper) {i : InstId} (hi : i ∉ l.allInsts) (b : BlockId) :
    l.checkFresh i b = .ok () := by
  rw [checkFresh, h.blockOf?_eq_none.2 hi]

theorem appendInst_ok {l : Layout} (h : l.Proper) {i : InstId} {b : BlockId} {xs : List InstId}
    (hi : i ∉ l.allInsts) (hb : l.insts b = .ok xs) :
    l.appendInst i b = .ok (l.editRow b (· ++ [i])) := by
  obtain ⟨r, hr, -⟩ := insts_eq_ok.1 hb
  simp [appendInst, checkFresh_ok h hi, row, hr]

theorem prependInst_ok {l : Layout} (h : l.Proper) {i : InstId} {b : BlockId} {xs : List InstId}
    (hi : i ∉ l.allInsts) (hb : l.insts b = .ok xs) :
    l.prependInst i b = .ok (l.editRow b (i :: ·)) := by
  obtain ⟨r, hr, -⟩ := insts_eq_ok.1 hb
  simp [prependInst, checkFresh_ok h hi, row, hr]

theorem blockOf_ok {l : Layout} (h : l.Proper) {i : InstId} {b : BlockId} {xs : List InstId}
    (hb : l.insts b = .ok xs) (hi : i ∈ xs) : l.blockOf i = .ok b := by
  rw [blockOf, h.blockOf?_eq_some.2 ⟨xs, hb, hi⟩, ofOption_some]

theorem insertAfter_ok {l : Layout} (h : l.Proper) {i after : InstId} {b : BlockId}
    {xs : List InstId} (hi : i ∉ l.allInsts) (hb : l.insts b = .ok xs) (ha : after ∈ xs) :
    l.insertAfter i after = .ok (l.editRow b (placeAfter after i)) := by
  simp [insertAfter, blockOf_ok h hb ha, checkFresh_ok h hi]

theorem insertBefore_ok {l : Layout} (h : l.Proper) {i before : InstId} {b : BlockId}
    {xs : List InstId} (hi : i ∉ l.allInsts) (hb : l.insts b = .ok xs) (ha : before ∈ xs) :
    l.insertBefore i before = .ok (l.editRow b (placeBefore before i)) := by
  simp [insertBefore, blockOf_ok h hb ha, checkFresh_ok h hi]

theorem removeInst_ok {l : Layout} (h : l.Proper) {i : InstId} {b : BlockId} {xs : List InstId}
    (hb : l.insts b = .ok xs) (hi : i ∈ xs) :
    l.removeInst i = .ok (l.editRow b (·.filter (· ≠ i))) := by
  simp [removeInst, blockOf_ok h hb hi]

end Layout

end MiddleEnd
