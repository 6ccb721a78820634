import MiddleEnd.LinkedLayout
import MiddleEnd.Proofs.EdgeEdits
import Mathlib.Data.List.Forall2
import Mathlib.Data.List.Induction
import Mathlib.Data.List.Nodup
import Mathlib.Data.List.Pairwise
import Mathlib.Data.List.Perm.Subperm

/-!
# Linked layouts are lists

A linked list holds a list of entries if its links, read in either direction, go through just these
entries. Every edit of a linked list is the edit of the list it holds, so a linked layout and the
layout it shows stay together along every sequence of edits.
-/

namespace MiddleEnd

namespace SideTable

variable {κ α : Type} [Key κ] [DecidableEq κ]

theorem get?_write (t : SideTable κ α) (k k' : κ) (slot : Option α) :
    (t.write k slot).get? k' = if k' = k then slot else t.get? k' := by
  unfold get? write
  have grown : ∀ n : Nat, (t.slots ++ Array.replicate (Key.index k + 1 - t.slots.size)
      none)[n]?.join =
      t.slots[n]?.join := by
    intro n
    rw [Array.getElem?_append]
    split
    · rfl
    · rw [Array.getElem?_eq_none (by omega : t.slots.size ≤ n), Array.getElem?_replicate]
      split <;> rfl
  rw [Array.getElem?_setIfInBounds]
  by_cases hk : k' = k
  · subst hk
    rw [if_pos rfl, if_pos rfl, if_pos (by simp; omega)]
    rfl
  · have hne : Key.index k ≠ Key.index k' := fun e => hk (Key.index_inj e.symm)
    rw [if_neg hne, if_neg hk, grown]

theorem get?_write_self (t : SideTable κ α) (k : κ) (slot : Option α) :
    (t.write k slot).get? k = slot := by
  rw [get?_write, if_pos rfl]

theorem get?_write_ne {t : SideTable κ α} {k k' : κ} (slot : Option α) (h : k' ≠ k) :
    (t.write k slot).get? k' = t.get? k' := by
  rw [get?_write, if_neg h]

omit [DecidableEq κ] in
theorem index_lt_of_get? {t : SideTable κ α} {k : κ} {a : α} (h : t.get? k = some a) :
    Key.index k < t.slots.size := by
  unfold get? at h
  by_cases hk : Key.index k < t.slots.size
  · exact hk
  · rw [Array.getElem?_eq_none (by omega)] at h
    cases h

omit [DecidableEq κ] in
theorem length_le_size {t : SideTable κ α} {ks : List κ} (hn : ks.Nodup)
    (h : ∀ k ∈ ks, (t.get? k).isSome) :
    ks.length ≤ t.slots.size := by
  have hinj : (ks.map Key.index).Nodup := hn.map fun _ _ e => Key.index_inj e
  have hsub : ks.map Key.index ⊆ List.range t.slots.size := by
    intro n hn
    obtain ⟨k, hk, rfl⟩ := List.mem_map.1 hn
    obtain ⟨a, ha⟩ := Option.isSome_iff_exists.1 (h k hk)
    exact List.mem_range.2 (index_lt_of_get? ha)
  simpa using (hinj.subperm hsub).length_le

end SideTable

namespace Chain

variable {κ α : Type}

def keys (xs : List (κ × α)) : List κ := xs.map Prod.fst

def headKey : List (κ × α) → Option κ → Option κ
  | [], after? => after?
  | (k, _) :: _, _ => some k

def lastKey : Option κ → List (κ × α) → Option κ
  | before?, [] => before?
  | _, (k, _) :: xs => lastKey (some k) xs

@[simp]
theorem keys_nil : keys ([] : List (κ × α)) = [] := rfl

@[simp]
theorem keys_cons (k : κ) (a : α) (xs : List (κ × α)) : keys ((k, a) :: xs) = k :: keys xs := rfl

@[simp]
theorem keys_append (xs ys : List (κ × α)) : keys (xs ++ ys) = keys xs ++ keys ys := List.map_append

@[simp]
theorem headKey_nil (after? : Option κ) : headKey ([] : List (κ × α)) after? = after? := rfl

@[simp]
theorem headKey_cons (k : κ) (a : α) (xs : List (κ × α)) (after? : Option κ) :
    headKey ((k, a) :: xs) after? = some k := rfl

@[simp]
theorem lastKey_nil (before? : Option κ) : lastKey before? ([] : List (κ × α)) = before? := rfl

@[simp]
theorem lastKey_cons (before? : Option κ) (k : κ) (a : α) (xs : List (κ × α)) :
    lastKey before? ((k, a) :: xs) = lastKey (some k) xs := rfl

theorem headKey_append (xs ys : List (κ × α)) (after? : Option κ) :
    headKey (xs ++ ys) after? = headKey xs (headKey ys after?) := by
  cases xs <;> rfl

theorem lastKey_append (before? : Option κ) (xs ys : List (κ × α)) :
    lastKey before? (xs ++ ys) = lastKey (lastKey before? xs) ys := by
  induction xs generalizing before? with
  | nil => rfl
  | cons x xs ih => exact ih (some x.1)

theorem lastKey_concat (before? : Option κ) (xs : List (κ × α)) (k : κ) (a : α) :
    lastKey before? (xs ++ [(k, a)]) = some k :=
  lastKey_append before? xs [(k, a)]

variable [Key κ]

def Segment (t : SideTable κ (Node κ α)) : Option κ → List (κ × α) → Option κ → Prop
  | _, [], _ => True
  | before?, (k, a) :: xs, after? =>
    t.get? k = some ⟨before?, headKey xs after?, a⟩ ∧ Segment t (some k) xs after?

theorem segment_append {t : SideTable κ (Node κ α)} {before? after? : Option κ}
    {xs ys : List (κ × α)} :
    Segment t before? (xs ++ ys) after? ↔
      Segment t before? xs (headKey ys after?) ∧ Segment t (lastKey before? xs) ys after? := by
  induction xs generalizing before? with
  | nil => simp [Segment]
  | cons x xs ih =>
    obtain ⟨k, a⟩ := x
    simp [Segment, headKey_append, ih, and_assoc]

theorem Segment.frame {t t' : SideTable κ (Node κ α)} {before? after? : Option κ}
    {xs : List (κ × α)} (h : Segment t before? xs after?)
    (same : ∀ k ∈ keys xs, t'.get? k = t.get? k) :
    Segment t' before? xs after? := by
  induction xs generalizing before? with
  | nil => trivial
  | cons x xs ih =>
    refine ⟨(same x.1 List.mem_cons_self).trans h.1, ih h.2 ?_⟩
    intro k hk
    exact same k (List.mem_cons_of_mem _ hk)

theorem Segment.isSome {t : SideTable κ (Node κ α)} {before? after? : Option κ} {xs : List (κ × α)}
    (h : Segment t before? xs after?) {k : κ} (hk : k ∈ keys xs) : (t.get? k).isSome := by
  induction xs generalizing before? with
  | nil => cases hk
  | cons x xs ih =>
    rcases List.mem_cons.1 hk with rfl | hk
    · rw [h.1]
      rfl
    · exact ih h.2 hk

variable [DecidableEq κ]

theorem Segment.setPrev_ok {t : SideTable κ (Node κ α)} {before? after? : Option κ}
    {xs : List (κ × α)} (h : Segment t before? xs after?) (hn : (keys xs).Nodup) (new? : Option κ) :
    ∃ t', setPrev t (headKey xs none) new? = .ok t' ∧ Segment t' new? xs after? ∧
      ∀ k ∉ keys xs, t'.get? k = t.get? k := by
  cases xs with
  | nil => exact ⟨t, rfl, trivial, fun _ _ => rfl⟩
  | cons x xs =>
    obtain ⟨k, a⟩ := x
    rw [keys_cons, List.nodup_cons] at hn
    refine ⟨t.write k (some ⟨new?, headKey xs after?, a⟩), ?_,
      ⟨SideTable.get?_write_self .., h.2.frame ?_⟩, ?_⟩
    · simp [setPrev, modify, SideTable.get, h.1]
    · intro j hj
      have hjk : j ≠ k := fun e => hn.1 (e ▸ hj)
      exact SideTable.get?_write_ne _ hjk
    · intro j hj
      have hjk : j ≠ k := fun e => hj (e ▸ List.mem_cons_self)
      exact SideTable.get?_write_ne _ hjk

theorem Segment.setNext_ok {t : SideTable κ (Node κ α)} {before? after? : Option κ}
    {xs : List (κ × α)} (h : Segment t before? xs after?) (hn : (keys xs).Nodup) (new? : Option κ) :
    ∃ t', setNext t (lastKey none xs) new? = .ok t' ∧ Segment t' before? xs new? ∧
      ∀ k ∉ keys xs, t'.get? k = t.get? k := by
  rcases List.eq_nil_or_concat xs with rfl | ⟨xs, ⟨k, a⟩, rfl⟩
  · exact ⟨t, rfl, trivial, fun _ _ => rfl⟩
  rw [List.concat_eq_append] at h hn ⊢
  obtain ⟨hxs, hk, -⟩ := segment_append.1 h
  have hdisj : ∀ j ∈ keys xs, j ≠ k := by
    rintro j hj rfl
    rw [keys_append] at hn
    exact (List.nodup_append.1 hn).2.2 j hj j List.mem_cons_self rfl
  refine ⟨t.write k (some ⟨lastKey before? xs, new?, a⟩), ?_,
    segment_append.2 ⟨hxs.frame ?_, ?_, trivial⟩, ?_⟩
  · simp [lastKey_concat, setNext, modify, SideTable.get, hk]
  · intro j hj
    exact SideTable.get?_write_ne _ (hdisj j hj)
  · exact SideTable.get?_write_self ..
  · intro j hj
    apply SideTable.get?_write_ne
    rintro rfl
    exact hj (by simp)

/-- The entries of a chain, in order: the links go through them and through nothing else. -/
structure Holds (c : Chain κ α) (xs : List (κ × α)) : Prop where
  nodup : (keys xs).Nodup
  first : c.first? = headKey xs none
  last : c.last? = lastKey none xs
  linked : Segment c.nodes none xs none
  absent : ∀ k ∉ keys xs, c.nodes.get? k = none

omit [DecidableEq κ] in
theorem holds_empty : ({} : Chain κ α).Holds [] :=
  ⟨List.nodup_nil, rfl, rfl, trivial, fun _ _ => rfl⟩

omit [DecidableEq κ] in
theorem Holds.node {c : Chain κ α} {pre post : List (κ × α)} {k : κ} {a : α}
    (h : c.Holds (pre ++ (k, a) :: post)) :
    c.nodes.get? k = some ⟨lastKey none pre, headKey post none, a⟩ :=
  (segment_append.1 h.linked).2.1

theorem Holds.contains_iff {c : Chain κ α} {xs : List (κ × α)} (h : c.Holds xs) {k : κ} :
    c.nodes.contains k = true ↔ k ∈ keys xs := by
  unfold SideTable.contains
  constructor
  · intro hk
    by_contra hx
    rw [h.absent k hx] at hk
    cases hk
  · exact h.linked.isSome

omit [Key κ] in
theorem headKey_swap {xs : List (κ × α)} {k : κ} (h : k ∉ keys xs) (after? : Option κ) :
    headKey xs after? = if headKey xs (some k) = some k then after? else headKey xs (some k) := by
  cases xs with
  | nil => simp
  | cons x xs =>
    have hne : x.1 ≠ k := fun e => h (e ▸ List.mem_cons_self)
    simp [headKey, hne]

omit [Key κ] in
theorem lastKey_swap {xs : List (κ × α)} {k : κ} (h : k ∉ keys xs) (before? : Option κ) :
    lastKey before? xs = if lastKey (some k) xs = some k then before? else lastKey (some k) xs := by
  rcases List.eq_nil_or_concat xs with rfl | ⟨xs, x, rfl⟩
  · simp
  · have hne : x.1 ≠ k := by
      rintro rfl
      exact h (List.mem_map_of_mem (by simp))
    rw [List.concat_eq_append, lastKey_concat, lastKey_concat, if_neg (by simpa using hne)]

section Splice

variable {c : Chain κ α} {t : SideTable κ (Node κ α)} {before? after? : Option κ}
  {pre post : List (κ × α)} {k j : κ} {a b : α}

theorem Holds.join (h : c.Holds (pre ++ post)) (hk : k ∉ keys (pre ++ post))
    (hpre : Segment t none pre (some k)) (hpost : Segment t (some k) post none)
    (rest : ∀ j ∉ keys (pre ++ post),
      t.get? j = (c.nodes.write k (some ⟨lastKey none pre, headKey post none, a⟩)).get? j) :
    Holds ⟨t, headKey pre (some k), lastKey (some k) post⟩ (pre ++ (k, a) :: post) where
  nodup := by
    have hn := h.nodup
    simp only [keys_append, keys_cons] at hn hk ⊢
    exact List.nodup_middle.2 (List.nodup_cons.2 ⟨hk, hn⟩)
  first := by rw [headKey_append, headKey_cons]
  last := by rw [lastKey_append, lastKey_cons]
  linked := by
    have hnode : t.get? k = some ⟨lastKey none pre, headKey post none, a⟩ := by
      rw [rest k hk, SideTable.get?_write_self]
    exact segment_append.2 ⟨hpre, hnode, hpost⟩
  absent := by
    intro j hj
    simp only [keys_append, keys_cons, List.mem_append, List.mem_cons, not_or] at hj
    have hout : j ∉ keys (pre ++ post) := by simp [hj]
    rw [rest j hout, SideTable.get?_write_ne _ hj.2.1, h.absent j hout]

theorem relink_later (hpre : Segment t none pre after?) (hpost : Segment t before? post none)
    (hn : (keys (pre ++ post)).Nodup) (next? prev? : Option κ) :
    ∃ t₁ t₂, setPrev t (headKey post none) prev? = .ok t₁ ∧ setNext t₁
      (lastKey none pre) next? = .ok t₂ ∧ Segment t₂ none pre next? ∧ Segment t₂ prev? post none ∧
      ∀ j ∉ keys (pre ++ post), t₂.get? j = t.get? j := by
  rw [keys_append, List.nodup_append] at hn
  obtain ⟨hnpre, hnpost, hdisj⟩ := hn
  obtain ⟨t₁, h₁, hpost₁, rest₁⟩ := hpost.setPrev_ok hnpost prev?
  have hpre₁ : Segment t₁ none pre after? := hpre.frame fun j hj => rest₁ j fun hm =>
    hdisj j hj j hm rfl
  obtain ⟨t₂, h₂, hpre₂, rest₂⟩ := hpre₁.setNext_ok hnpre next?
  refine ⟨t₁, t₂, h₁, h₂, hpre₂, hpost₁.frame fun j hj => rest₂ j fun hm => hdisj j hm j hj rfl, ?_⟩
  intro j hj
  rw [keys_append, List.mem_append, not_or] at hj
  exact (rest₂ j hj.1).trans (rest₁ j hj.2)

theorem relink_earlier (hpre : Segment t none pre after?) (hpost : Segment t before? post none)
    (hn : (keys (pre ++ post)).Nodup) (next? prev? : Option κ) :
    ∃ t₁ t₂, setNext t (lastKey none pre) next? = .ok t₁ ∧ setPrev t₁
      (headKey post none) prev? = .ok t₂ ∧ Segment t₂ none pre next? ∧ Segment t₂ prev? post none ∧
      ∀ j ∉ keys (pre ++ post), t₂.get? j = t.get? j := by
  rw [keys_append, List.nodup_append] at hn
  obtain ⟨hnpre, hnpost, hdisj⟩ := hn
  obtain ⟨t₁, h₁, hpre₁, rest₁⟩ := hpre.setNext_ok hnpre next?
  have hpost₁ : Segment t₁ before? post none := hpost.frame fun j hj => rest₁ j fun hm =>
    hdisj j hm j hj rfl
  obtain ⟨t₂, h₂, hpost₂, rest₂⟩ := hpost₁.setPrev_ok hnpost prev?
  refine ⟨t₁, t₂, h₁, h₂, hpre₁.frame fun j hj => rest₂ j fun hm => hdisj j hj j hm rfl, hpost₂, ?_⟩
  intro j hj
  rw [keys_append, List.mem_append, not_or] at hj
  exact (rest₂ j hj.2).trans (rest₁ j hj.1)

theorem Holds.write (h : c.Holds (pre ++ post)) (hk : k ∉ keys (pre ++ post))
    (slot : Option (Node κ α)) :
    Segment (c.nodes.write k slot) none pre (headKey post none) ∧
      Segment (c.nodes.write k slot) (lastKey none pre) post none := by
  rw [← segment_append]
  apply h.linked.frame
  intro j hj
  exact SideTable.get?_write_ne _ fun e => hk (e ▸ hj)

theorem Holds.attach_ok {xs : List (κ × α)} (h : c.Holds xs) (hk : k ∉ keys xs) (node : Node κ α) :
    c.nodes.attach k node = .ok (c.nodes.write k (some node)) := by
  rw [SideTable.attach, if_neg fun hc => hk (h.contains_iff.1 hc)]

theorem Holds.attach_taken {xs : List (κ × α)} (h : c.Holds xs) (hk : k ∈ keys xs)
    (node : Node κ α) :
    c.nodes.attach k node = .error .keyTaken := by
  rw [SideTable.attach, if_pos (h.contains_iff.2 hk)]

theorem Holds.append_ok {xs : List (κ × α)} (h : c.Holds xs) (hk : k ∉ keys xs) (a : α) :
    ∃ c', c.append k a = .ok c' ∧ c'.Holds (xs ++ [(k, a)]) := by
  have hfirst : (if c.first?.isNone then some k else c.first?) = headKey xs (some k) := by
    rw [h.first]
    cases xs <;> rfl
  rw [← List.append_nil xs] at h hk
  obtain ⟨hpre, hpost⟩ := h.write hk (some ⟨lastKey none xs, none, a⟩)
  obtain ⟨t₁, t₂, h₁, h₂, hpre₂, hpost₂, rest⟩ :=
    relink_earlier hpre hpost h.nodup (some k) (some k)
  cases h₂
  refine ⟨_, ?_, h.join hk hpre₂ hpost₂ rest⟩
  simp only [append, hfirst, h.last, h.attach_ok hk, List.append_nil, ok_bind, h₁, lastKey_nil]

theorem Holds.prepend_ok {xs : List (κ × α)} (h : c.Holds xs) (hk : k ∉ keys xs) (a : α) :
    ∃ c', c.prepend k a = .ok c' ∧ c'.Holds ((k, a) :: xs) := by
  have hlast : (if c.last?.isNone then some k else c.last?) = lastKey (some k) xs := by
    rw [h.last]
    rcases List.eq_nil_or_concat xs with rfl | ⟨xs, ⟨j, b⟩, rfl⟩
    · rfl
    · simp [List.concat_eq_append, lastKey_concat]
  rw [← List.nil_append xs] at h hk
  obtain ⟨hpre, hpost⟩ := h.write hk (some ⟨none, headKey xs none, a⟩)
  obtain ⟨t₁, t₂, h₁, h₂, hpre₂, hpost₂, rest⟩ := relink_later hpre hpost h.nodup (some k) (some k)
  cases h₂
  refine ⟨_, ?_, h.join hk hpre₂ hpost₂ rest⟩
  simp only [prepend, hlast, h.first, h.attach_ok hk, List.nil_append, ok_bind, h₁, headKey_nil]

omit [Key κ] [DecidableEq κ] in
theorem not_mem_of_nodup (h : (keys (pre ++ (j, b) :: post)).Nodup) :
    j ∉ keys pre ∧ j ∉ keys post := by
  rw [keys_append, keys_cons, List.nodup_middle, List.nodup_cons, List.mem_append, not_or] at h
  exact h.1

theorem Holds.insertAfter_ok (h : c.Holds (pre ++ (j, b) :: post))
    (hk : k ∉ keys (pre ++ (j, b) :: post)) (a : α) :
    ∃ c', c.insertAfter k a j = .ok c' ∧ c'.Holds (pre ++ (j, b) :: (k, a) :: post) := by
  have hnode := h.node
  have hlast : (if c.last? = some j then some k else c.last?) = lastKey (some k) post := by
    rw [h.last, lastKey_append, lastKey_cons, ← lastKey_swap (not_mem_of_nodup h.nodup).2]
  rw [List.append_cons] at h hk
  obtain ⟨hpre, hpost⟩ := h.write hk (some ⟨some j, headKey post none, a⟩)
  obtain ⟨t₁, t₂, h₁, h₂, hpre₂, hpost₂, rest⟩ := relink_later hpre hpost h.nodup (some k) (some k)
  rw [← lastKey_concat none pre j b] at rest
  rw [lastKey_concat] at h₂
  rw [List.append_cons]
  refine ⟨_, ?_, h.join hk hpre₂ hpost₂ rest⟩
  simp only [insertAfter, hlast, SideTable.get, hnode, ofOption_some, ok_bind, h.attach_ok hk,
    h₁, h₂, h.first, headKey_append, headKey_cons]

theorem Holds.insertBefore_ok (h : c.Holds (pre ++ (j, b) :: post))
    (hk : k ∉ keys (pre ++ (j, b) :: post)) (a : α) :
    ∃ c', c.insertBefore k a j = .ok c' ∧ c'.Holds (pre ++ (k, a) :: (j, b) :: post) := by
  have hnode := h.node
  have hfirst : (if c.first? = some j then some k else c.first?) = headKey pre (some k) := by
    rw [h.first, headKey_append, headKey_cons, ← headKey_swap (not_mem_of_nodup h.nodup).1]
  obtain ⟨hpre, hpost⟩ := h.write hk (some ⟨lastKey none pre, some j, a⟩)
  obtain ⟨t₁, t₂, h₁, h₂, hpre₂, hpost₂, rest⟩ :=
    relink_earlier hpre hpost h.nodup (some k) (some k)
  rw [headKey_cons] at h₂
  refine ⟨_, ?_, h.join hk hpre₂ hpost₂ rest⟩
  simp only [insertBefore, hfirst, SideTable.get, hnode, ofOption_some, ok_bind, h.attach_ok hk,
    h₁, h₂, h.last, lastKey_append, lastKey_cons]

theorem Holds.unlink_ok (h : c.Holds (pre ++ (k, a) :: post)) :
    ∃ c', c.unlink k ⟨lastKey none pre, headKey post none, a⟩ = .ok c' ∧ c'.Holds
      (pre ++ post) := by
  obtain ⟨hkpre, hkpost⟩ := not_mem_of_nodup h.nodup
  have hn : (keys (pre ++ post)).Nodup := by
    have hn := h.nodup
    rw [keys_append, keys_cons, List.nodup_middle, List.nodup_cons] at hn
    rw [keys_append]
    exact hn.2
  have hfirst : (if c.first? = some k then headKey post none else c.first?) =
      headKey (pre ++ post) none := by
    rw [h.first, headKey_append, headKey_append, headKey_cons, ← headKey_swap hkpre]
  have hlast : (if c.last? = some k then lastKey none pre else c.last?) =
      lastKey none (pre ++ post) := by
    rw [h.last, lastKey_append, lastKey_append, lastKey_cons, ← lastKey_swap hkpost]
  obtain ⟨hpre, -, hpost⟩ := segment_append.1 h.linked
  have other : ∀ j ∈ keys pre ++ keys post, (c.nodes.write k none).get? j = c.nodes.get? j := by
    intro j hj
    apply SideTable.get?_write_ne
    rintro rfl
    rcases List.mem_append.1 hj with hj | hj
    · exact hkpre hj
    · exact hkpost hj
  obtain ⟨t₁, t₂, h₁, h₂, hpre₂, hpost₂, rest⟩ :=
    relink_later (hpre.frame fun j hj => other j (List.mem_append_left _ hj))
      (hpost.frame fun j hj => other j (List.mem_append_right _ hj)) hn (headKey post none)
      (lastKey none pre)
  refine ⟨⟨t₂, headKey (pre ++ post) none, lastKey none (pre ++ post)⟩, ?_, hn, rfl, rfl,
    segment_append.2 ⟨hpre₂, hpost₂⟩, ?_⟩
  · simp only [unlink, hfirst, hlast, h₁, h₂, ok_bind]
  · intro j hj
    rw [rest j hj, SideTable.get?_write]
    split
    · rfl
    · apply h.absent
      simp_all

theorem Holds.update_ok (h : c.Holds (pre ++ (k, a) :: post)) {f : α → Checked α}
    (hf : f a = .ok b) :
    ∃ c', c.update k f = .ok c' ∧ c'.Holds (pre ++ (k, b) :: post) := by
  obtain ⟨hkpre, hkpost⟩ := not_mem_of_nodup h.nodup
  obtain ⟨hpre, hnode, hpost⟩ := segment_append.1 h.linked
  have hkeys : keys (pre ++ (k, b) :: post) = keys (pre ++ (k, a) :: post) := by simp
  refine ⟨{ c with nodes := c.nodes.write k (some ⟨lastKey none pre, headKey post none, b⟩) }, ?_,
    ?_⟩
  · simp only [update, SideTable.get, hnode, ofOption_some, ok_bind, hf]
  · refine ⟨hkeys ▸ h.nodup, ?_, ?_, segment_append.2 ⟨hpre.frame ?_, ?_, hpost.frame ?_⟩, ?_⟩
    · rw [h.first, headKey_append, headKey_append, headKey_cons, headKey_cons]
    · rw [h.last, lastKey_append, lastKey_append, lastKey_cons, lastKey_cons]
    · intro j hj
      exact SideTable.get?_write_ne _ fun e => hkpre (e ▸ hj)
    · exact SideTable.get?_write_self ..
    · intro j hj
      exact SideTable.get?_write_ne _ fun e => hkpost (e ▸ hj)
    · intro j hj
      rw [hkeys] at hj
      rw [SideTable.get?_write_ne _ fun e => hj (by simp [e]), h.absent j hj]

end Splice

omit [DecidableEq κ] in
theorem Segment.walk_next {t : SideTable κ (Node κ α)} {before? : Option κ} {xs : List (κ × α)}
    (h : Segment t before? xs none) {limit : Nat} (hl : xs.length ≤ limit) :
    walk Node.next? t limit (headKey xs none) = .ok (keys xs) := by
  induction xs generalizing before? limit with
  | nil => cases limit <;> rfl
  | cons x xs ih =>
    obtain ⟨k, a⟩ := x
    obtain ⟨limit, rfl⟩ : ∃ n, limit = n + 1 := ⟨limit - 1, by simp at hl; omega⟩
    have hrest := ih h.2 (Nat.le_of_succ_le_succ hl)
    simp only [headKey_cons, walk, SideTable.get, h.1, ofOption_some, ok_bind, hrest, keys_cons]

omit [DecidableEq κ] in
theorem Segment.walk_prev {t : SideTable κ (Node κ α)} {after? : Option κ} {xs : List (κ × α)}
    (h : Segment t none xs after?) {limit : Nat} (hl : xs.length ≤ limit) :
    walk Node.prev? t limit (lastKey none xs) = .ok (keys xs).reverse := by
  induction xs using List.reverseRecOn generalizing after? limit with
  | nil => cases limit <;> rfl
  | append_singleton xs x ih =>
    obtain ⟨k, a⟩ := x
    obtain ⟨limit, rfl⟩ : ∃ n, limit = n + 1 := ⟨limit - 1, by simp at hl; omega⟩
    obtain ⟨hxs, hk, -⟩ := segment_append.1 h
    have hrest := ih hxs (by simpa using hl)
    simp only [lastKey_concat, walk, SideTable.get, hk, ofOption_some, ok_bind, hrest]
    simp

omit [DecidableEq κ] in
theorem Holds.length_le {c : Chain κ α} {xs : List (κ × α)} (h : c.Holds xs) :
    xs.length ≤ c.nodes.slots.size := by
  have := SideTable.length_le_size h.nodup fun k => h.linked.isSome
  simpa [keys] using this

omit [DecidableEq κ] in
theorem Holds.forward_eq {c : Chain κ α} {xs : List (κ × α)} (h : c.Holds xs) :
    c.forward = .ok (keys xs) := by
  rw [forward, h.first]
  exact h.linked.walk_next h.length_le

omit [DecidableEq κ] in
theorem Holds.backward_eq {c : Chain κ α} {xs : List (κ × α)} (h : c.Holds xs) :
    c.backward = .ok (keys xs).reverse := by
  rw [backward, h.last]
  exact h.linked.walk_prev h.length_le

end Chain

namespace Layout

variable {v : Layout} {b : BlockId} {i : InstId} {xs : List InstId}

theorem proper_iff : v.Proper ↔ v.blocks.Nodup ∧ v.allInsts.Nodup := by
  constructor
  · exact fun h => ⟨h.blocks_nodup, h.allInsts_nodup⟩
  · unfold allInsts
    rw [List.nodup_flatMap]
    rintro ⟨hb, hrow, hdisj⟩
    refine ⟨hb, ?_, ?_⟩
    · intro b xs hxs
      obtain ⟨r, hr, rfl⟩ := insts_eq_ok.1 hxs
      exact hrow r (row?_mem hr)
    · intro b c xs ys i hxs hys hi hi'
      obtain ⟨r, hr, rfl⟩ := insts_eq_ok.1 hxs
      obtain ⟨s, hs, rfl⟩ := insts_eq_ok.1 hys
      have hrs : r = s := by
        by_contra hne
        have : Std.Symm (Function.onFun List.Disjoint Row.insts) :=
          ⟨fun _ _ hd _ hi hi' => hd hi' hi⟩
        exact hdisj.forall (row?_mem hr) (row?_mem hs) hne hi hi'
      rw [← row?_block hr, ← row?_block hs, hrs]

theorem rows_editRow {pre post : List Row} (hv : v.rows = pre ++ ⟨b, xs⟩ :: post)
    (hn : v.blocks.Nodup) (f : List InstId → List InstId) :
    (v.editRow b f).rows = pre ++ ⟨b, f xs⟩ :: post := by
  have other : ∀ r ∈ pre ++ post, r.block ≠ b := by
    rw [blocks, hv, List.map_append, List.map_cons, List.nodup_middle, List.nodup_cons,
      ← List.map_append] at hn
    intro r hr e
    exact hn.1 (List.mem_map.2 ⟨r, hr, e⟩)
  have same : ∀ {rs : List Row}, (∀ r ∈ rs, r.block ≠ b) →
      rs.map (fun r => if r.block = b then { r with insts := f r.insts } else r) = rs := by
    intro rs hrs
    rw [List.map_congr_left fun r hr => if_neg (hrs r hr), List.map_id']
  simp only [editRow, hv, List.map_append, List.map_cons, if_true]
  rw [same fun r hr => other r (List.mem_append_left _ hr),
    same fun r hr => other r (List.mem_append_right _ hr)]

theorem rowsAfter_of_split {pre post : List Row} {after : BlockId}
    (h : ∀ r ∈ pre, r.block ≠ after) :
    rowsAfter b after (pre ++ ⟨after, xs⟩ :: post) = pre ++ ⟨after, xs⟩ :: ⟨b, []⟩ :: post := by
  induction pre with
  | nil => simp [rowsAfter]
  | cons r pre ih =>
    have hr : r.block ≠ after := h r List.mem_cons_self
    simp [rowsAfter, hr, ih fun s hs => h s (List.mem_cons_of_mem _ hs)]

theorem proper_emptyRow {pre post : List Row} :
    (⟨pre ++ ⟨b, []⟩ :: post⟩ : Layout).Proper ↔
      b ∉ (⟨pre ++ post⟩ : Layout).blocks ∧ (⟨pre ++ post⟩ : Layout).Proper := by
  simp only [proper_iff, blocks, allInsts, List.map_append, List.map_cons, List.nodup_middle,
    List.nodup_cons, List.flatMap_append, List.flatMap_cons, List.nil_append, and_assoc]

theorem blockOf?_emptyRow (pre post : List Row) (b : BlockId) (i : InstId) :
    (⟨pre ++ ⟨b, []⟩ :: post⟩ : Layout).blockOf? i = (⟨pre ++ post⟩ : Layout).blockOf? i := by
  simp [blockOf?, List.find?_append]

theorem Proper.blockOf?_editRow (h : v.Proper) (hb : v.insts b = .ok xs)
    {f : List InstId → List InstId} (hp : (v.editRow b f).Proper) {j : InstId}
    (hj : j ∈ f xs ↔ j ∈ xs) :
    (v.editRow b f).blockOf? j = v.blockOf? j := by
  apply Option.ext
  intro c
  rw [hp.blockOf?_eq_some, h.blockOf?_eq_some]
  by_cases hc : c = b
  · subst hc
    rw [insts_editRow_self f hb, hb]
    simp [hj]
  · rw [insts_editRow_ne f hc]

theorem Proper.gain (h : v.Proper) (hb : v.insts b = .ok xs) (hi : i ∉ v.allInsts)
    {f : List InstId → List InstId} (hf : (f xs).Perm (i :: xs)) :
    (v.editRow b f).Proper ∧ ∀ j, (v.editRow b f).blockOf? j = if i =
      j then some b else v.blockOf? j := by
  have hix : i ∉ xs := fun hx => hi ((mem_allInsts_iff h.blocks_nodup).2 ⟨b, xs, hb, hx⟩)
  have hp : (v.editRow b f).Proper := by
    apply h.editRow hb
    · exact hf.nodup_iff.2 (List.nodup_cons.2 ⟨hix, h.insts_nodup hb⟩)
    · intro j hj
      rcases List.mem_cons.1 (hf.mem_iff.1 hj) with rfl | hj
      · exact .inr hi
      · exact .inl hj
  refine ⟨hp, fun j => ?_⟩
  split
  · rename_i e
    subst e
    exact hp.blockOf?_eq_some.2 ⟨f xs, insts_editRow_self f hb, hf.mem_iff.2 List.mem_cons_self⟩
  · rename_i hne
    apply h.blockOf?_editRow hb hp
    rw [hf.mem_iff, List.mem_cons]
    exact ⟨fun hj => hj.resolve_left fun e => hne e.symm, Or.inr⟩

theorem Proper.lose (h : v.Proper) (hb : v.insts b = .ok xs) (hi : i ∈ xs) :
    (v.editRow b (·.filter (· ≠ i))).Proper ∧
      ∀ j, (v.editRow b (·.filter (· ≠ i))).blockOf? j = if i = j then none else v.blockOf? j := by
  have hp : (v.editRow b (·.filter (· ≠ i))).Proper := by
    apply h.editRow hb
    · exact (h.insts_nodup hb).filter _
    · intro j hj
      exact .inl (List.mem_filter.1 hj).1
  refine ⟨hp, fun j => ?_⟩
  split
  · rename_i e
    subst e
    rw [hp.blockOf?_eq_none, mem_allInsts_editRow h hb]
    simp [hi]
  · rename_i hne
    apply h.blockOf?_editRow hb hp
    rw [List.mem_filter]
    exact ⟨And.left, fun hj => ⟨hj, by simpa using fun e => hne e.symm⟩⟩

end Layout

namespace LinkedLayout

open Chain

def entries (xs : List InstId) : List (InstId × Unit) := xs.map (·, ())

@[simp]
theorem entries_append (xs ys : List InstId) : entries (xs ++ ys) = entries xs ++ entries ys :=
  List.map_append

@[simp]
theorem entries_cons (i : InstId) (xs : List InstId) : entries (i :: xs) = (i, ()) :: entries xs :=
  rfl

@[simp]
theorem keys_entries (xs : List InstId) : keys (entries xs) = xs := by
  simp [keys, entries, Function.comp_def]

/-- An entry of the list of blocks stands for a row. -/
structure Stands (x : BlockId × Chain InstId Unit) (r : Row) : Prop where
  block : x.1 = r.block
  insts : x.2.Holds (entries r.insts)

structure Shows (l : LinkedLayout) (v : Layout) : Prop where
  proper : v.Proper
  homes : ∀ i, l.homes.get? i = v.blockOf? i
  rows : ∃ xs, l.chain.Holds xs ∧ List.Forall₂ Stands xs v.rows

variable {l : LinkedLayout} {v : Layout} {b : BlockId} {i : InstId} {is : List InstId}

theorem shows_empty : ({} : LinkedLayout).Shows {} where
  proper := Layout.proper_iff.2 ⟨List.nodup_nil, List.nodup_nil⟩
  homes _ := rfl
  rows := ⟨[], holds_empty, .nil⟩

theorem keys_eq {xs : List (BlockId × Chain InstId Unit)} {rs : List Row}
    (h : List.Forall₂ Stands xs rs) :
    keys xs = rs.map Row.block := by
  induction h with
  | nil => rfl
  | cons hx _ ih => rw [List.map_cons, ← ih, ← hx.block]; rfl

/-- The entry of a block and the row it stands for, with what is on their two sides. -/
structure Meets (l : LinkedLayout) (v : Layout) (b : BlockId) (c : Chain InstId Unit)
    (is : List InstId) (xs ys : List (BlockId × Chain InstId Unit)) (rs ss : List Row) : Prop where
  chain : l.chain.Holds (xs ++ (b, c) :: ys)
  rows : v.rows = rs ++ ⟨b, is⟩ :: ss
  here : c.Holds (entries is)
  before : List.Forall₂ Stands xs rs
  after : List.Forall₂ Stands ys ss

theorem Shows.meets (h : l.Shows v) (hb : v.insts b = .ok is) :
    ∃ c xs ys rs ss, Meets l v b c is xs ys rs ss := by
  obtain ⟨r, hr, rfl⟩ := Layout.insts_eq_ok.1 hb
  obtain ⟨rs, ss, hv⟩ := List.append_of_mem (Layout.row?_mem hr)
  obtain ⟨all, hc, hall⟩ := h.rows
  rw [hv] at hall
  have hxs := List.forall₂_take_append all rs _ hall
  obtain ⟨⟨b', c⟩, ys, hx, hys, hdrop⟩ :=
    List.forall₂_cons_right_iff.1 (List.forall₂_drop_append all rs _ hall)
  rw [← List.take_append_drop rs.length all, hdrop] at hc
  have hrb : r.block = b := Layout.row?_block hr
  have hbb : b' = b := hx.block.trans hrb
  subst hbb
  exact ⟨c, _, ys, rs, ss, hc, by rw [hv, ← hrb], hx.insts, hxs, hys⟩

theorem Shows.node_absent (h : l.Shows v) (hb : v.row? b = none) : l.chain.nodes.get? b = none := by
  obtain ⟨xs, hc, hall⟩ := h.rows
  apply hc.absent
  rw [keys_eq hall]
  intro hm
  have := Layout.hasBlock_iff.2 hm
  rw [Layout.hasBlock, hb] at this
  cases this

theorem Shows.contains_iff (h : l.Shows v) : l.chain.nodes.contains b = true ↔ b ∈ v.blocks := by
  obtain ⟨xs, hc, hall⟩ := h.rows
  rw [hc.contains_iff, keys_eq hall]
  rfl

theorem Meets.node {c : Chain InstId Unit} {xs ys : List (BlockId × Chain InstId Unit)}
    {rs ss : List Row} (m : Meets l v b c is xs ys rs ss) :
    l.chain.nodes.get? b = some ⟨lastKey none xs, headKey ys none, c⟩ :=
  m.chain.node

/-- An edit ends in the same fault on both sides, or in a linked layout that shows the edited
layout. -/
inductive Agree : Checked LinkedLayout → Checked Layout → Prop
  | ok {l : LinkedLayout} {v : Layout} (h : l.Shows v) : Agree (.ok l) (.ok v)
  | error (e : Fault) : Agree (.error e) (.error e)

theorem Agree.bind {x : Checked LinkedLayout} {y : Checked Layout}
    {f : LinkedLayout → Checked LinkedLayout} {g : Layout → Checked Layout} (h : Agree x y)
    (next : ∀ {l v}, l.Shows v → Agree (f l) (g v)) :
    Agree (x >>= f) (y >>= g) := by
  cases h with
  | ok h => exact next h
  | error e => exact .error e

theorem Shows.editRow (h : l.Shows v) (hb : v.insts b = .ok is) {f : List InstId → List InstId}
    {edit : Chain InstId Unit → Checked (Chain InstId Unit)} {homes : Dict InstId BlockId}
    (hedit : ∀ c, c.Holds (entries is) → ∃ c', edit c = .ok c' ∧ c'.Holds (entries (f is)))
    (hhomes : ∀ i, homes.get? i = (v.editRow b f).blockOf? i) (hp : (v.editRow b f).Proper) :
    Agree ({ l with homes }.inBlock b edit) (.ok (v.editRow b f)) := by
  obtain ⟨c, xs, ys, rs, ss, m⟩ := h.meets hb
  obtain ⟨c', hc', hholds⟩ := hedit c m.here
  obtain ⟨chain, hchain, hall⟩ := m.chain.update_ok hc'
  have hl : { l with homes }.inBlock b edit = .ok { chain, homes } := by
    simp only [inBlock, hchain, ok_bind]
  rw [hl]
  refine .ok ⟨hp, hhomes, _, hall, ?_⟩
  rw [Layout.rows_editRow m.rows h.proper.blocks_nodup]
  exact List.rel_append m.before (.cons ⟨rfl, hholds⟩ m.after)

theorem Shows.gain (h : l.Shows v) {f : List InstId → List InstId}
    {edit : Chain InstId Unit → Checked (Chain InstId Unit)}
    (hf : ∀ is, v.insts b = .ok is → (f is).Perm (i :: is))
    (hedit : ∀ is c, v.insts b = .ok is → i ∉ is → c.Holds (entries is) →
      ∃ c', edit c = .ok c' ∧ c'.Holds (entries (f is))) :
    Agree (l.settle i b >>= (·.inBlock b edit))
      (v.checkFresh i b >>= fun _ => v.row b >>= fun _ => .ok (v.editRow b f)) := by
  unfold settle Layout.checkFresh
  rw [blockOf?, h.homes i]
  cases hi : v.blockOf? i with
  | some old => exact .error _
  | none =>
    rw [h.proper.blockOf?_eq_none] at hi
    cases hr : v.row? b with
    | none =>
      simp only [ok_bind, inBlock, update, SideTable.get, h.node_absent hr, Layout.row, hr,
        ofOption_none, error_bind]
      exact .error _
    | some r =>
      have hb : v.insts b = .ok r.insts := Layout.insts_eq_ok.2 ⟨r, hr, rfl⟩
      have hir : i ∉ r.insts :=
        fun hx => hi ((Layout.mem_allInsts_iff h.proper.blocks_nodup).2 ⟨b, _, hb, hx⟩)
      obtain ⟨hp, hhomes⟩ := h.proper.gain hb hi (hf _ hb)
      simp only [ok_bind, Layout.row, hr, ofOption_some]
      apply h.editRow hb (fun c hc => hedit _ c hb hir hc) _ hp
      intro j
      rw [Dict.get?_insert, hhomes, h.homes]

theorem Shows.appendInst (h : l.Shows v) (i : InstId) (b : BlockId) :
    Agree (l.appendInst i b) (v.appendInst i b) := by
  apply h.gain
  · intro is _
    exact List.perm_append_singleton i is
  · intro is c _ hi hc
    rw [entries_append]
    exact hc.append_ok (by rwa [keys_entries]) ()

theorem Shows.prependInst (h : l.Shows v) (i : InstId) (b : BlockId) :
    Agree (l.prependInst i b) (v.prependInst i b) := by
  apply h.gain
  · intro is _
    exact List.Perm.refl _
  · intro is c _ hi hc
    exact hc.prepend_ok (by rwa [keys_entries]) ()

theorem Shows.blockOf_eq (h : l.Shows v) (i : InstId) : l.blockOf i = v.blockOf i := by
  rw [blockOf, Layout.blockOf, blockOf?, h.homes]

theorem Shows.split_insts (h : l.Shows v) (hi : v.blockOf? i = some b) :
    ∃ pre post, v.insts b = .ok (pre ++ i :: post) ∧ i ∉ pre ∧ i ∉ post := by
  obtain ⟨is, hb, hi⟩ := h.proper.blockOf?_eq_some.1 hi
  obtain ⟨pre, post, rfl⟩ := List.append_of_mem hi
  have hn := h.proper.insts_nodup hb
  rw [List.nodup_middle, List.nodup_cons, List.mem_append, not_or] at hn
  exact ⟨pre, post, hb, hn.1⟩

theorem Shows.gain_beside (h : l.Shows v) {a : InstId} {f : List InstId → List InstId}
    {edit : Chain InstId Unit → Checked (Chain InstId Unit)}
    (hf : ∀ pre post, a ∉ pre → (f (pre ++ a :: post)).Perm (i :: (pre ++ a :: post)))
    (hedit : ∀ pre post c, a ∉ pre → i ∉ pre ++ a :: post → c.Holds (entries (pre ++ a :: post)) →
      ∃ c', edit c = .ok c' ∧ c'.Holds (entries (f (pre ++ a :: post)))) :
    Agree (l.blockOf a >>= fun b => l.settle i b >>= (·.inBlock b edit))
      (v.blockOf a >>= fun b => v.checkFresh i b >>= fun _ => .ok (v.editRow b f)) := by
  rw [h.blockOf_eq, Layout.blockOf]
  cases ha : v.blockOf? a with
  | none => exact .error _
  | some b =>
    obtain ⟨pre, post, hb, hpre, -⟩ := h.split_insts ha
    obtain ⟨r, hr, -⟩ := Layout.insts_eq_ok.1 hb
    have hg : Agree (l.settle i b >>= (·.inBlock b edit))
        (v.checkFresh i b >>= fun _ => v.row b >>= fun _ => .ok (v.editRow b f)) := by
      apply h.gain
      · intro is his
        cases hb.symm.trans his
        exact hf pre post hpre
      · intro is c his hi hc
        cases hb.symm.trans his
        exact hedit pre post c hpre hi hc
    simpa only [ofOption_some, Layout.row, hr, ok_bind] using hg

theorem Shows.insertAfter (h : l.Shows v) (i after : InstId) :
    Agree (l.insertAfter i after) (v.insertAfter i after) := by
  apply h.gain_beside
  · intro pre post hpre
    rw [placeAfter_of_split hpre, List.append_cons pre after (i :: post),
      List.append_cons pre after post]
    exact List.perm_middle
  · intro pre post c hpre hi hc
    rw [placeAfter_of_split hpre]
    simp only [entries_append, entries_cons] at hc ⊢
    exact hc.insertAfter_ok (by simpa using hi) ()

theorem Shows.insertBefore (h : l.Shows v) (i before : InstId) :
    Agree (l.insertBefore i before) (v.insertBefore i before) := by
  apply h.gain_beside
  · intro pre post hpre
    rw [placeBefore_of_split hpre]
    exact List.perm_middle
  · intro pre post c hpre hi hc
    rw [placeBefore_of_split hpre]
    simp only [entries_append, entries_cons] at hc ⊢
    exact hc.insertBefore_ok (by simpa using hi) ()

theorem Shows.removeInst (h : l.Shows v) (i : InstId) :
    Agree (l.removeInst i) (v.removeInst i) := by
  unfold LinkedLayout.removeInst Layout.removeInst
  rw [h.blockOf_eq, Layout.blockOf]
  cases hi : v.blockOf? i with
  | none => exact .error _
  | some b =>
    obtain ⟨pre, post, hb, hpre, hpost⟩ := h.split_insts hi
    obtain ⟨hp, hhomes⟩ := h.proper.lose hb (List.mem_append_right pre List.mem_cons_self)
    have hfilter : (pre ++ i :: post).filter (· ≠ i) = pre ++ post := by
      rw [List.filter_append, List.filter_cons_of_neg (by simp)]
      congr 1
      · exact List.filter_eq_self.2 fun j hj => by simpa using ne_of_mem_of_not_mem hj hpre
      · exact List.filter_eq_self.2 fun j hj => by simpa using ne_of_mem_of_not_mem hj hpost
    simp only [ofOption_some, ok_bind]
    apply h.editRow hb _ _ hp
    · intro c hc
      simp only [entries_append, entries_cons] at hc
      rw [hfilter, hc.node, entries_append]
      exact hc.unlink_ok
    · intro j
      rw [Dict.get?_erase, hhomes, h.homes]

theorem holds_new : ({} : Chain InstId Unit).Holds (entries []) := holds_empty

theorem Shows.appendBlock (h : l.Shows v) (b : BlockId) :
    Agree (l.appendBlock b) (v.appendBlock b) := by
  obtain ⟨xs, hc, hall⟩ := h.rows
  have hkeys : keys xs = v.blocks := keys_eq hall
  unfold LinkedLayout.appendBlock Layout.appendBlock
  by_cases hb : b ∈ v.blocks
  · rw [if_pos (Layout.hasBlock_iff.2 hb)]
    simp only [append, hc.attach_taken (hkeys ▸ hb), error_bind]
    exact .error _
  · rw [if_neg fun hh => hb (Layout.hasBlock_iff.1 hh)]
    obtain ⟨chain, hchain, hholds⟩ := hc.append_ok (hkeys ▸ hb) {}
    simp only [hchain, ok_bind]
    refine .ok ⟨Layout.proper_emptyRow.2 ?_, ?_, _, hholds,
      List.rel_append hall (.cons ⟨rfl, holds_new⟩ .nil)⟩
    · rw [List.append_nil]
      exact ⟨hb, h.proper⟩
    · intro i
      rw [Layout.blockOf?_emptyRow, List.append_nil]
      exact h.homes i

theorem Meets.blocks_eq {c : Chain InstId Unit} {xs ys : List (BlockId × Chain InstId Unit)}
    {rs ss : List Row} (m : Meets l v b c is xs ys rs ss) :
    v.blocks = keys (xs ++ (b, c) :: ys) := by
  rw [keys_append, keys_cons, keys_eq m.before, keys_eq m.after, Layout.blocks, m.rows,
    List.map_append, List.map_cons]

theorem Shows.insertBlockAfter (h : l.Shows v) (b after : BlockId) :
    Agree (l.insertBlockAfter b after) (v.insertBlockAfter b after) := by
  unfold LinkedLayout.insertBlockAfter Layout.insertBlockAfter
  cases hr : v.row? after with
  | none =>
    simp only [Chain.insertAfter, SideTable.get, h.node_absent hr, Layout.row, hr,
      ofOption_none, error_bind]
    exact .error _
  | some r =>
    obtain ⟨c, xs, ys, rs, ss, m⟩ := h.meets (Layout.insts_eq_ok.2 ⟨r, hr, rfl⟩)
    simp only [Layout.row, hr, ofOption_some, ok_bind]
    by_cases hb : b ∈ v.blocks
    · rw [if_pos (Layout.hasBlock_iff.2 hb)]
      simp only [Chain.insertAfter, SideTable.get, m.node, ofOption_some, ok_bind,
        m.chain.attach_taken (m.blocks_eq ▸ hb), error_bind]
      exact .error _
    · rw [if_neg fun hh => hb (Layout.hasBlock_iff.1 hh)]
      obtain ⟨chain, hchain, hholds⟩ := m.chain.insertAfter_ok (m.blocks_eq ▸ hb) {}
      have hbefore : ∀ s ∈ rs, s.block ≠ after := by
        have hn := h.proper.blocks_nodup
        rw [Layout.blocks, m.rows, List.map_append, List.map_cons, List.nodup_middle,
          List.nodup_cons] at hn
        intro s hs e
        exact hn.1 (List.mem_append_left _ (List.mem_map.2 ⟨s, hs, e⟩))
      have hrows : Layout.rowsAfter b after v.rows = (rs ++ [⟨after, r.insts⟩]) ++
          ⟨b, []⟩ :: ss := by
        rw [m.rows, Layout.rowsAfter_of_split hbefore, List.append_cons]
      have hold : v = ⟨(rs ++ [⟨after, r.insts⟩]) ++ ss⟩ := by
        rw [← List.append_cons, ← m.rows]
      simp only [hchain, ok_bind]
      refine .ok ⟨?_, ?_, _, hholds, ?_⟩
      · rw [hrows, Layout.proper_emptyRow, ← hold]
        exact ⟨hb, h.proper⟩
      · intro i
        rw [hrows, Layout.blockOf?_emptyRow, ← hold]
        exact h.homes i
      · rw [hrows, ← List.append_cons]
        exact List.rel_append m.before (.cons ⟨rfl, m.here⟩ (.cons ⟨rfl, holds_new⟩ m.after))

theorem Shows.removeBlock (h : l.Shows v) (b : BlockId) :
    Agree (l.removeBlock b) (v.removeBlock b) := by
  unfold LinkedLayout.removeBlock Layout.removeBlock
  cases hr : v.row? b with
  | none =>
    rw [h.node_absent hr]
    exact .error _
  | some r =>
    obtain ⟨c, xs, ys, rs, ss, m⟩ := h.meets (Layout.insts_eq_ok.2 ⟨r, hr, rfl⟩)
    have hempty : c.first?.isNone = r.insts.isEmpty := by
      rw [m.here.first]
      cases r.insts <;> rfl
    simp only [m.node, hempty]
    cases hi : r.insts with
    | cons i is => exact .error _
    | nil =>
      rw [hi] at m
      obtain ⟨chain, hchain, hholds⟩ := m.chain.unlink_ok
      have hp : b ∉ (⟨rs ++ ss⟩ : Layout).blocks ∧ (⟨rs ++ ss⟩ : Layout).Proper := by
        rw [← Layout.proper_emptyRow, ← m.rows]
        exact h.proper
      have hrows : v.rows.filter (·.block ≠ b) = rs ++ ss := by
        have hkeep : (rs ++ ss).filter (·.block ≠ b) = rs ++ ss := by
          rw [List.filter_eq_self]
          intro s hs
          simpa using fun e : s.block = b => hp.1 (List.mem_map.2 ⟨s, hs, e⟩)
        rw [m.rows, List.filter_append, List.filter_cons_of_neg (by simp),
          ← List.filter_append, hkeep]
      simp only [List.isEmpty_nil, if_true, hchain, ok_bind, hrows]
      refine .ok ⟨hp.2, ?_, _, hholds, List.rel_append m.before m.after⟩
      intro i
      rw [← Layout.blockOf?_emptyRow rs ss b, ← m.rows]
      exact h.homes i

theorem Shows.step (h : l.Shows v) (e : LayoutEdit) : Agree (l.apply e) (v.apply e) := by
  cases e with
  | appendBlock b => exact h.appendBlock b
  | insertBlockAfter b after => exact h.insertBlockAfter b after
  | removeBlock b => exact h.removeBlock b
  | appendInst i b => exact h.appendInst i b
  | prependInst i b => exact h.prependInst i b
  | insertAfter i after => exact h.insertAfter i after
  | insertBefore i before => exact h.insertBefore i before
  | removeInst i => exact h.removeInst i

theorem Shows.run (h : l.Shows v) (edits : List LayoutEdit) :
    Agree (edits.foldlM LinkedLayout.apply l) (edits.foldlM Layout.apply v) := by
  induction edits generalizing l v with
  | nil => exact .ok h
  | cons e edits ih =>
    rw [List.foldlM_cons, List.foldlM_cons]
    exact (h.step e).bind ih

theorem Shows.mapM_rows (h : l.Shows v) (read : Chain InstId Unit → Checked (List InstId))
    (order : List InstId → List InstId)
    (hread : ∀ c is, c.Holds (entries is) → read c = .ok (order is)) {rs : List Row}
    (hrs : ∀ r ∈ rs, r ∈ v.rows) :
    (rs.map Row.block).mapM (fun b => do .ok (⟨b, ← read (← l.chainOf b)⟩ : Row)) =
      .ok (rs.map fun r => ⟨r.block, order r.insts⟩) := by
  induction rs with
  | nil => rfl
  | cons r rs ih =>
    obtain ⟨c, xs, ys, _, _, m⟩ :=
      h.meets (Layout.insts_of_mem h.proper.blocks_nodup (hrs r List.mem_cons_self))
    have hrest := ih fun s hs => hrs s (List.mem_cons_of_mem _ hs)
    simp only [List.map_cons, List.mapM_cons, chainOf, SideTable.get, m.node,
      ofOption_some, ok_bind, hread c r.insts m.here] at hrest ⊢
    rw [hrest]
    rfl

theorem Shows.rows_eq (h : l.Shows v) : l.rows = .ok v.rows := by
  obtain ⟨xs, hc, hall⟩ := h.rows
  rw [LinkedLayout.rows, hc.forward_eq, keys_eq hall, ok_bind]
  have hread : ∀ (c : Chain InstId Unit) (is : List InstId), c.Holds (entries is) →
      c.forward = .ok is := by
    intro c is hc
    rw [hc.forward_eq, keys_entries]
  rw [h.mapM_rows forward id hread fun r hr => hr]
  simp

theorem Shows.rowsBack_eq (h : l.Shows v) :
    l.rowsBack = .ok (v.rows.reverse.map fun r => ⟨r.block, r.insts.reverse⟩) := by
  obtain ⟨xs, hc, hall⟩ := h.rows
  rw [rowsBack, hc.backward_eq, keys_eq hall, ok_bind, ← List.map_reverse]
  have hread : ∀ (c : Chain InstId Unit) (is : List InstId), c.Holds (entries is) →
      c.backward = .ok is.reverse := by
    intro c is hc
    rw [hc.backward_eq, keys_entries]
  exact h.mapM_rows backward List.reverse hread fun r hr => List.mem_reverse.1 hr

theorem Agree.rows_eq {x : Checked LinkedLayout} {y : Checked Layout} (h : Agree x y) :
    x >>= LinkedLayout.rows = y.map Layout.rows := by
  cases h with
  | ok h => exact h.rows_eq
  | error e => rfl

/-- Along every sequence of edits that goes through, a linked layout is the list of rows that the
same edits make of the empty list: read ahead it gives these rows, read back it gives them in
reverse, nothing stands in it twice, and every further edit is the edit of the list. -/
theorem edits_refine_lists {edits : List LayoutEdit} {l : LinkedLayout}
    (h : edits.foldlM LinkedLayout.apply {} = .ok l) :
    ∃ v : Layout, edits.foldlM Layout.apply {} = .ok v ∧ l.rows = .ok v.rows ∧
      l.rowsBack = .ok (v.rows.reverse.map fun r => ⟨r.block, r.insts.reverse⟩) ∧
      v.blocks.Nodup ∧ v.allInsts.Nodup ∧
      (∀ i b, l.blockOf? i = some b ↔ ∃ r ∈ v.rows, r.block = b ∧ i ∈ r.insts) ∧
      (∀ b, l.hasBlock b = true ↔ b ∈ v.blocks) ∧
      ∀ e, (l.apply e >>= LinkedLayout.rows) = (v.apply e).map Layout.rows := by
  have hrun := shows_empty.run edits
  rw [h] at hrun
  generalize hv : edits.foldlM Layout.apply {} = y at hrun
  cases hrun with
  | @ok _ v hs =>
    obtain ⟨hblocks, hinsts⟩ := Layout.proper_iff.1 hs.proper
    refine ⟨v, rfl, hs.rows_eq, hs.rowsBack_eq, hblocks, hinsts, ?_, fun b => hs.contains_iff,
      fun e => (hs.step e).rows_eq⟩
    intro i b
    rw [blockOf?, hs.homes, hs.proper.blockOf?_eq_some]
    constructor
    · rintro ⟨is, hb, hi⟩
      obtain ⟨r, hr, rfl⟩ := Layout.insts_eq_ok.1 hb
      exact ⟨r, Layout.row?_mem hr, Layout.row?_block hr, hi⟩
    · rintro ⟨r, hr, rfl, hi⟩
      exact ⟨r.insts, Layout.insts_of_mem hblocks hr, hi⟩

/-- Every kind of edit, at the ends and in the middle of a list, and down to an empty block. -/
def busyEdits : List LayoutEdit :=
  [.appendBlock ⟨0⟩, .appendBlock ⟨1⟩, .insertBlockAfter ⟨2⟩ ⟨0⟩, .insertBlockAfter ⟨3⟩ ⟨1⟩,
    .appendInst ⟨0⟩ ⟨0⟩, .prependInst ⟨1⟩ ⟨0⟩, .insertAfter ⟨2⟩ ⟨0⟩, .insertBefore ⟨3⟩ ⟨1⟩,
    .insertAfter ⟨4⟩ ⟨1⟩, .appendInst ⟨5⟩ ⟨2⟩, .removeInst ⟨5⟩, .removeBlock ⟨2⟩, .removeInst ⟨3⟩,
    .removeInst ⟨0⟩, .insertBefore ⟨0⟩ ⟨4⟩]

theorem busyEdits_refine :
    ∃ l v, busyEdits.foldlM LinkedLayout.apply {} = .ok l ∧
      busyEdits.foldlM Layout.apply {} = .ok v ∧
      v.rows = [⟨⟨0⟩, [⟨1⟩, ⟨0⟩, ⟨4⟩, ⟨2⟩]⟩, ⟨⟨1⟩, []⟩, ⟨⟨3⟩, []⟩] ∧ l.rows = .ok v.rows ∧
      l.rowsBack = .ok [⟨⟨3⟩, []⟩, ⟨⟨1⟩, []⟩, ⟨⟨0⟩, [⟨2⟩, ⟨4⟩, ⟨0⟩, ⟨1⟩]⟩] := by
  have hv : busyEdits.foldlM Layout.apply {} =
      .ok ⟨[⟨⟨0⟩, [⟨1⟩, ⟨0⟩, ⟨4⟩, ⟨2⟩]⟩, ⟨⟨1⟩, []⟩, ⟨⟨3⟩, []⟩]⟩ := rfl
  have hany : (busyEdits.foldlM LinkedLayout.apply {}).toOption.any (fun _ => true) = true := by
    decide +kernel
  obtain ⟨l, hl, -⟩ := exists_of_any hany
  obtain ⟨v, hv', hrows, hback, -⟩ := edits_refine_lists hl
  cases hv.symm.trans hv'
  exact ⟨l, _, hl, hv, rfl, hrows, hback⟩

end LinkedLayout

end MiddleEnd
