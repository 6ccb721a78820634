import MiddleEnd.Data.Dict
import MiddleEnd.Data.KeySet
import MiddleEnd.Data.Table
import MiddleEnd.Proofs.Outcome

/-!
# Tables and sets of keys

What a look-up finds after each operation on a table, and membership in sets of keys.
-/

namespace MiddleEnd

theorem getElem?_inj {α : Type} {xs : List α} (h : xs.Nodup) {i j : Nat} {a : α}
    (hi : xs[i]? = some a) (hj : xs[j]? = some a) : i = j := by
  obtain ⟨hil, -⟩ := List.getElem?_eq_some_iff.1 hi
  exact (List.getElem?_inj hil h).1 (hi.trans hj.symm)

theorem same_or_ne {α : Type} {xs : List α} {i j : Nat} {a b : α} (hi : xs[i]? = some a)
    (hj : xs[j]? = some b) :
    (j = i ∧ b = a) ∨ j ≠ i := by
  by_cases hij : j = i
  · subst hij
    exact .inl ⟨rfl, Option.some.inj (hj.symm.trans hi)⟩
  · exact .inr hij

theorem zipIdx_split {α : Type} {xs : List α} {start n : Nat} {a : α} {pre post : List (α × Nat)}
    (h : xs.zipIdx start = pre ++ (a, n) :: post) :
    n = start + pre.length ∧ xs[pre.length]? = some a := by
  have hat : (xs.zipIdx start)[pre.length]? = some (a, n) := by
    rw [h]
    simp
  rw [List.getElem?_zipIdx, Option.map_eq_some_iff] at hat
  obtain ⟨b, hb, he⟩ := hat
  cases he
  exact ⟨rfl, hb⟩

theorem idxOf?_eq_some {α : Type} [DecidableEq α] {xs : List α} (h : xs.Nodup) {i : Nat} {a : α} :
    xs.idxOf? a = some i ↔ xs[i]? = some a := by
  constructor
  · intro hi
    obtain ⟨hl, ha, -⟩ := List.findIdx?_eq_some_iff_getElem.1 hi
    rw [List.getElem?_eq_getElem hl]
    simpa using ha
  · intro hi
    cases hx : xs.idxOf? a with
    | none =>
      rw [List.idxOf?_eq_none_iff] at hx
      exact absurd (List.mem_of_getElem? hi) hx
    | some j =>
      obtain ⟨hl, ha, -⟩ := List.findIdx?_eq_some_iff_getElem.1 hx
      have hj : xs[j]? = some a := by
        rw [List.getElem?_eq_getElem hl]
        simpa using ha
      rw [getElem?_inj h hj hi]

theorem exists_ne_of_eraseDups {α : Type} [DecidableEq α] {xs : List α} (hnil : xs.eraseDups ≠ [])
    (hone : ∀ v, xs.eraseDups ≠ [v]) : ∃ v ∈ xs, ∃ w ∈ xs, v ≠ w := by
  cases xs with
  | nil => exact absurd List.eraseDups_nil hnil
  | cons a xs =>
    rw [List.eraseDups_cons] at hone
    obtain ⟨w, hw⟩ := List.exists_mem_of_ne_nil (xs.filter (!· == a)) fun hn =>
      hone a (by rw [hn, List.eraseDups_nil])
    obtain ⟨hw, hne⟩ := List.mem_filter.1 hw
    exact ⟨a, List.mem_cons_self, w, List.mem_cons_of_mem _ hw, fun he => by simp [he] at hne⟩

theorem nodup_eraseDups {α : Type} [DecidableEq α] (xs : List α) : xs.eraseDups.Nodup := by
  induction hn : xs.length using Nat.strongRecOn generalizing xs with
  | ind n ih =>
    cases xs with
    | nil => exact List.nodup_nil
    | cons x xs =>
      rw [List.eraseDups_cons, List.nodup_cons]
      have hle : (xs.filter (!· == x)).length ≤ xs.length := List.length_filter_le _ _
      rw [List.length_cons] at hn
      refine ⟨?_, ih _ (by omega) _ rfl⟩
      rw [List.mem_eraseDups, List.mem_filter]
      simp

namespace Table

variable {κ α : Type} [Key κ]

theorem get?_lt_bound {t : Table κ α} {k : κ} {a : α} (h : t.get? k = some a) :
    Key.index k < t.bound := by
  unfold get? at h
  by_cases hk : Key.index k < t.slots.size
  · exact hk
  · rw [Array.getElem?_eq_none (by omega)] at h
    cases h

theorem get?_ge_bound {t : Table κ α} {k : κ} (h : t.bound ≤ Key.index k) : t.get? k = none := by
  cases hk : t.get? k with
  | none => rfl
  | some a =>
    have := get?_lt_bound hk
    omega

theorem contains_iff {t : Table κ α} {k : κ} : t.contains k = true ↔ ∃ a, t.get? k = some a := by
  rw [contains, Option.isSome_iff_exists]

@[simp]
theorem add_fst (t : Table κ α) (a : α) : (t.add a).1 = Key.ofIndex t.bound := rfl

@[simp]
theorem bound_add (t : Table κ α) (a : α) : (t.add a).2.bound = t.bound + 1 := by
  simp [add, bound]

theorem get?_add (t : Table κ α) (a : α) (k : κ) :
    (t.add a).2.get? k = if Key.index k = t.bound then some a else t.get? k := by
  unfold get? add bound
  rw [Array.getElem?_push]
  split
  · rfl
  · rfl

theorem get?_add_of_lt {t : Table κ α} {a : α} {k : κ} (h : Key.index k < t.bound) :
    (t.add a).2.get? k = t.get? k := by
  rw [get?_add, if_neg (by omega)]

theorem get?_add_of_some {t : Table κ α} {a b : α} {k : κ} (h : t.get? k = some b) :
    (t.add a).2.get? k = some b := by
  rw [get?_add_of_lt (get?_lt_bound h), h]

@[simp]
theorem bound_update (t : Table κ α) (k : κ) (f : α → α) : (t.update k f).bound = t.bound := by
  simp [update, bound]

theorem get?_update [DecidableEq κ] (t : Table κ α) (k k' : κ) (f : α → α) :
    (t.update k f).get? k' = if k' = k then (t.get? k).map f else t.get? k' := by
  unfold get? update
  rw [Array.getElem?_modify]
  by_cases hk : k' = k
  · subst hk
    rw [if_pos rfl, if_pos rfl]
    cases t.slots[Key.index k']? with
    | none => rfl
    | some o => cases o <;> rfl
  · have : Key.index k ≠ Key.index k' := fun e => hk (Key.index_inj e.symm)
    rw [if_neg this, if_neg hk]

theorem remove_eq_ok [DecidableEq κ] {t t' : Table κ α} {k : κ} {a : α}
    (h : t.remove k = .ok (a, t')) :
    t.get? k = some a ∧ t'.bound = t.bound ∧
    ∀ k', t'.get? k' = if k' = k then none else t.get? k' := by
  obtain ⟨b, hb, h⟩ := bind_eq_ok.1 h
  rw [get, ofOption_eq_ok] at hb
  simp only [Except.ok.injEq, Prod.mk.injEq] at h
  obtain ⟨rfl, rfl⟩ := h
  refine ⟨hb, by simp [bound], fun k' => ?_⟩
  unfold get?
  rw [Array.getElem?_setIfInBounds]
  by_cases hk : k' = k
  · subst hk
    have := get?_lt_bound hb
    unfold bound at this
    simp [this]
  · have : Key.index k ≠ Key.index k' := fun e => hk (Key.index_inj e.symm)
    rw [if_neg this, if_neg hk]

theorem remove_ok {t : Table κ α} {k : κ} {a : α} (h : t.get? k = some a) :
    ∃ t', t.remove k = .ok (a, t') := by
  unfold remove get
  rw [h]
  exact ⟨_, rfl⟩

theorem mem_toList {t : Table κ α} {k : κ} {a : α} : (k, a) ∈ t.toList ↔ t.get? k = some a := by
  unfold toList get?
  rw [List.mem_filterMap]
  constructor
  · rintro ⟨⟨slot, n⟩, hm, hs⟩
    rw [List.mem_zipIdx_iff_getElem?] at hm
    cases slot with
    | none => simp at hs
    | some b =>
      simp only [Option.map_some, Option.some.injEq, Prod.mk.injEq] at hs
      obtain ⟨rfl, rfl⟩ := hs
      simp only [Array.getElem?_toList] at hm
      rw [Key.index_ofIndex, hm]
      rfl
  · intro h
    refine ⟨(some a, Key.index k), ?_, ?_⟩
    · rw [List.mem_zipIdx_iff_getElem?]
      simp only [Array.getElem?_toList]
      cases hs : t.slots[Key.index k]? with
      | none => rw [hs] at h; cases h
      | some o =>
        rw [hs] at h
        simp only [Option.join_some] at h
        rw [h]
    · simp [Key.ofIndex_index]

theorem keys_nodup (t : Table κ α) : t.keys.Nodup := by
  have hsnd : t.slots.toList.zipIdx.Pairwise fun p q => p.2 ≠ q.2 := by
    rw [← List.pairwise_map (f := Prod.snd) (R := (· ≠ ·)), List.zipIdx_map_snd]
    exact List.nodup_range'
  unfold keys toList
  refine List.pairwise_map.2 (List.pairwise_filterMap.2 (hsnd.imp ?_))
  rintro ⟨slot, n⟩ ⟨slot', n'⟩ hne p hp p' hp' he
  obtain ⟨a, -, rfl⟩ := Option.map_eq_some_iff.1 hp
  obtain ⟨a', -, rfl⟩ := Option.map_eq_some_iff.1 hp'
  have hindex := congrArg Key.index (show (Key.ofIndex n : κ) = Key.ofIndex n' from he)
  rw [Key.index_ofIndex, Key.index_ofIndex] at hindex
  exact hne hindex

theorem toList_map {β : Type} (π : α → β) (t : Table κ α) :
    (t.map π).toList = t.toList.map fun e => (e.1, π e.2) := by
  unfold toList map
  rw [Array.toList_map, List.zipIdx_map, List.filterMap_map, List.map_filterMap]
  congr 1
  funext e
  obtain ⟨slot, n⟩ := e
  cases slot <;> rfl

theorem set_ok [DecidableEq κ] {t : Table κ α} {k : κ} {a : α} (b : α) (h : t.get? k = some a) :
    ∃ t', t.set k b = .ok t' ∧ (∀ k', t'.get? k' = if k' = k then some b else t.get? k') ∧
      ∀ {β : Type} {π : α → β}, π b = π a → t'.map π = t.map π := by
  have hlt := get?_lt_bound h
  refine ⟨_, if_pos (contains_iff.2 ⟨a, h⟩), fun k' => ?_, fun {β π} hπ => ?_⟩
  · unfold get?
    by_cases hk : k' = k
    · subst hk
      rw [if_pos rfl, Array.getElem?_setIfInBounds_self_of_lt hlt]
      rfl
    · rw [if_neg hk, Array.getElem?_setIfInBounds_ne fun he => hk (Key.index_inj he.symm)]
  · unfold map
    congr 1
    apply Array.ext_getElem?
    intro n
    rw [Array.getElem?_map, Array.getElem?_map]
    by_cases hn : Key.index k = n
    · subst hn
      rw [Array.getElem?_setIfInBounds_self_of_lt hlt]
      unfold get? at h
      cases hs : t.slots[Key.index k]? with
      | none =>
        rw [hs] at h
        cases h
      | some slot =>
        rw [hs, Option.join_some] at h
        rw [h, Option.map_some, Option.map_some, Option.map_some, Option.map_some, hπ]
    · rw [Array.getElem?_setIfInBounds_ne hn]

theorem size_eq (t : Table κ α) : t.size = (t.slots.toList.filter Option.isSome).length := by
  have count : ∀ (slots : List (Option α)) (n : Nat),
      ((slots.zipIdx n).filterMap fun p => p.1.map fun a => ((Key.ofIndex p.2 : κ), a)).length =
        (slots.filter Option.isSome).length := by
    intro slots
    induction slots with
    | nil => intro n; rfl
    | cons slot slots ih =>
      intro n
      rw [List.zipIdx_cons]
      cases slot with
      | none => simpa using ih (n + 1)
      | some a => simpa using ih (n + 1)
  exact count t.slots.toList 0

theorem size_update (t : Table κ α) (k : κ) (f : α → α) : (t.update k f).size = t.size := by
  have kept : ∀ (slots : List (Option α)) (n : Nat),
      ((slots.modify n (·.map f)).filter Option.isSome).length =
      (slots.filter Option.isSome).length := by
    intro slots
    induction slots with
    | nil => intro n; simp
    | cons slot slots ih =>
      intro n
      cases n with
      | zero => cases slot <;> simp
      | succ n => cases slot <;> simp [ih n]
  rw [size_eq, size_eq]
  simp only [update, Array.toList_modify]
  exact kept _ _

theorem size_remove {t t' : Table κ α} {k : κ} {a : α} (h : t.remove k = .ok (a, t')) :
    t'.size + 1 = t.size := by
  have fewer : ∀ (slots : List (Option α)) (n : Nat), slots[n]? = some (some a) →
      ((slots.set n none).filter Option.isSome).length + 1 =
      (slots.filter Option.isSome).length := by
    intro slots
    induction slots with
    | nil => intro n hn; cases hn
    | cons slot slots ih =>
      intro n hn
      cases n with
      | zero => simp only [List.getElem?_cons_zero, Option.some.injEq] at hn; simp [hn]
      | succ n =>
        have := ih n (by simpa using hn)
        cases slot <;> simp [this]
  obtain ⟨b, hb, h⟩ := bind_eq_ok.1 h
  rw [get, ofOption_eq_ok] at hb
  simp only [Except.ok.injEq, Prod.mk.injEq] at h
  obtain ⟨rfl, rfl⟩ := h
  rw [size_eq, size_eq]
  simp only [Array.toList_setIfInBounds]
  apply fewer
  unfold get? at hb
  rw [Array.getElem?_toList]
  cases hs : t.slots[Key.index k]? with
  | none => rw [hs] at hb; cases hb
  | some o => rw [hs] at hb; simp only [Option.join_some] at hb; rw [hb]

end Table

namespace KeySet

variable {κ : Type} [Key κ]

theorem mem_def {s : KeySet κ} {k : κ} : k ∈ s ↔ k ∈ s.toList := Iff.rfl

theorem mem_foldl_insert {xs : List κ} {s : KeySet κ} {k : κ} :
    k ∈ xs.foldl insert s ↔ k ∈ s ∨ k ∈ xs := by
  induction xs generalizing s with
  | nil => simp
  | cons x xs ih =>
    rw [List.foldl_cons, ih, mem_insert, List.mem_cons]
    constructor
    · rintro ((h | h) | h)
      · exact .inr (.inl h)
      · exact .inl h
      · exact .inr (.inr h)
    · rintro (h | h | h)
      · exact .inl (.inr h)
      · exact .inl (.inl h)
      · exact .inr h

@[simp]
theorem mem_ofList {xs : List κ} {k : κ} : k ∈ ofList xs ↔ k ∈ xs := by
  rw [ofList, mem_foldl_insert]
  simp

theorem mem_toList_ofList {xs : List κ} {k : κ} : k ∈ (ofList xs).toList ↔ k ∈ xs := mem_ofList

theorem nodup (s : KeySet κ) : s.toList.Nodup :=
  s.ascending.imp fun h e => by subst e; omega

theorem toList_ext {s t : KeySet κ} (h : ∀ k, k ∈ s ↔ k ∈ t) : s.toList = t.toList := by
  have main : ∀ xs ys : List κ, xs.Pairwise (fun a b => Key.index a < Key.index b) →
      ys.Pairwise (fun a b => Key.index a < Key.index b) → (∀ k, k ∈ xs ↔ k ∈ ys) → xs = ys := by
    intro xs
    induction xs with
    | nil =>
      intro ys _ _ hm
      cases ys with
      | nil => rfl
      | cons y ys => exact absurd ((hm y).2 List.mem_cons_self) List.not_mem_nil
    | cons x xs ih =>
      intro ys hx hy hm
      cases ys with
      | nil => exact absurd ((hm x).1 List.mem_cons_self) List.not_mem_nil
      | cons y ys =>
        rw [List.pairwise_cons] at hx hy
        have hxy : x = y := by
          rcases List.mem_cons.1 ((hm x).1 List.mem_cons_self) with h | h
          · exact h
          rcases List.mem_cons.1 ((hm y).2 List.mem_cons_self) with h' | h'
          · exact h'.symm
          have := hy.1 x h
          have := hx.1 y h'
          omega
        subst hxy
        congr 1
        refine ih ys hx.2 hy.2 fun k => ?_
        constructor
        · intro hk
          rcases List.mem_cons.1 ((hm k).1 (List.mem_cons_of_mem _ hk)) with rfl | h
          · exact absurd (hx.1 k hk) (Nat.lt_irrefl _)
          · exact h
        · intro hk
          rcases List.mem_cons.1 ((hm k).2 (List.mem_cons_of_mem _ hk)) with rfl | h
          · exact absurd (hy.1 k hk) (Nat.lt_irrefl _)
          · exact h
  exact main _ _ s.ascending t.ascending h

theorem isEmpty_iff {s : KeySet κ} : s.isEmpty = true ↔ ∀ k, ¬ k ∈ s := by
  rw [isEmpty, List.isEmpty_iff, List.eq_nil_iff_forall_not_mem]
  rfl

@[simp]
theorem contains_iff [DecidableEq κ] {s : KeySet κ} {k : κ} : s.contains k = true ↔ k ∈ s := by
  simp [contains, mem_def]

@[simp]
theorem not_mem_emptyc {k : κ} : ¬ k ∈ (∅ : KeySet κ) := not_mem_empty

theorem length_insertInto {k : κ} {xs : List κ}
    (h : xs.Pairwise fun a b => Key.index a < Key.index b) :
    (k ∈ xs → (insertInto k xs).length = xs.length) ∧
    (k ∉ xs → (insertInto k xs).length = xs.length + 1) := by
  induction xs with
  | nil => simp [insertInto]
  | cons x xs ih =>
    rw [List.pairwise_cons] at h
    unfold insertInto
    split
    · rename_i hlt
      refine ⟨fun hk => ?_, fun _ => rfl⟩
      rcases List.mem_cons.1 hk with rfl | hk
      · omega
      · have := h.1 k hk
        omega
    · split
      · rename_i he
        have : k = x := Key.index_inj he
        subst this
        exact ⟨fun _ => rfl, fun hk => absurd List.mem_cons_self hk⟩
      · rename_i hlt hne
        have hkx : k ≠ x := fun e => hne (congrArg Key.index e)
        obtain ⟨hin, hout⟩ := ih h.2
        constructor
        · intro hk
          rw [List.length_cons, hin ((List.mem_cons.1 hk).resolve_left hkx), List.length_cons]
        · intro hk
          rw [List.length_cons, hout fun hm => hk (List.mem_cons_of_mem _ hm), List.length_cons]

theorem length_foldl_insert (xs : List κ) (s : KeySet κ) :
    (xs.foldl insert s).toList.length ≤ s.toList.length + xs.length ∧
      ((xs.foldl insert s).toList.length = s.toList.length + xs.length ↔ xs.Nodup ∧
        ∀ k ∈ xs, ¬ k ∈ s) := by
  induction xs generalizing s with
  | nil => simp
  | cons x xs ih =>
    obtain ⟨hle, hiff⟩ := ih (s.insert x)
    obtain ⟨hin, hout⟩ := length_insertInto (k := x) s.ascending
    rw [List.foldl_cons, List.length_cons]
    by_cases hx : x ∈ s
    · have hl : (s.insert x).toList.length = s.toList.length := hin hx
      refine ⟨by omega, ⟨fun h => by omega, fun h => absurd hx (h.2 x List.mem_cons_self)⟩⟩
    · have hl : (s.insert x).toList.length = s.toList.length + 1 := hout hx
      refine ⟨by omega, ?_⟩
      have : (xs.foldl insert (s.insert x)).toList.length = s.toList.length + (xs.length + 1) ↔
          (xs.foldl insert (s.insert x)).toList.length = (s.insert x).toList.length +
          xs.length := by omega
      rw [this, hiff, List.nodup_cons]
      simp only [mem_insert, not_or, List.forall_mem_cons]
      constructor
      · rintro ⟨hn, hm⟩
        exact ⟨⟨fun hmem => (hm x hmem).1 rfl, hn⟩, hx, fun k hk => (hm k hk).2⟩
      · rintro ⟨⟨hxs, hn⟩, _, hm⟩
        exact ⟨hn, fun k hk => ⟨fun e => hxs (e ▸ hk), hm k hk⟩⟩

theorem length_ofList_eq_iff {xs : List κ} : (ofList xs).toList.length = xs.length ↔ xs.Nodup := by
  have h := (length_foldl_insert xs (empty : KeySet κ)).2
  have hz : (empty : KeySet κ).toList.length = 0 := rfl
  rw [hz, Nat.zero_add] at h
  rw [ofList, h]
  exact ⟨fun h => h.1, fun h => ⟨h, fun _ _ => not_mem_empty⟩⟩

end KeySet

end MiddleEnd
