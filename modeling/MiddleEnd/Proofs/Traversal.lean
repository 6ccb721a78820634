import MiddleEnd.ControlFlow.Paths
import MiddleEnd.Data.Search
import MiddleEnd.Proofs.Outcome

/-!
# Depth-first search visits what is reachable

A search with enough depth ends, and has then met exactly the nodes that some walk from a root leads
to. In the order it leaves behind every node but the roots comes after one of the nodes it is
reached from: that one was still open when the node was finished.
-/

namespace MiddleEnd.Search

variable {α : Type}

def Edge (next : α → Checked (List α)) (x y : α) : Prop := ∃ ys, next x = .ok ys ∧ y ∈ ys

/-- What holds all the time during a search from some roots. -/
structure Sane (next : α → Checked (List α)) (roots : List α) (s : State α) : Prop where
  finished_nodup : s.finished.Nodup
  finished_seen : ∀ x ∈ s.finished, x ∈ s.seen
  closed : ∀ x ∈ s.finished, ∀ y, Edge next x y → y ∈ s.seen
  led : ∀ pre x post, s.finished = pre ++ x :: post →
    x ∈ roots ∨ (∃ p ∈ pre, Edge next p x) ∨ ∃ p ∈ s.seen, p ∉ s.finished ∧ Edge next p x
  reached : ∀ x ∈ s.seen, ∃ r ∈ roots, Connects (Edge next) r x

/-- What a completed part of a search changes: it meets some nodes and finishes all of them. -/
structure Advance (s s' : State α) : Prop where
  seen : ∀ x ∈ s.seen, x ∈ s'.seen
  settled : ∀ x ∈ s'.seen, x ∈ s.seen ∨ x ∈ s'.finished
  finished : ∃ new, s'.finished = new ++ s.finished ∧ ∀ x ∈ new, x ∉ s.seen

theorem Advance.refl (s : State α) : Advance s s :=
  ⟨fun _ h => h, fun _ h => .inl h, [], rfl, fun _ h => absurd h List.not_mem_nil⟩

theorem Advance.trans {s s' s'' : State α} (h : Advance s s') (h' : Advance s' s'') :
    Advance s s'' where
  seen x hx := h'.seen x (h.seen x hx)
  settled x hx := by
    obtain ⟨new, hnew, -⟩ := h'.finished
    rcases h'.settled x hx with hx | hx
    · refine (h.settled x hx).imp id fun hx => ?_
      rw [hnew]
      exact List.mem_append_right _ hx
    · exact .inr hx
  finished := by
    obtain ⟨new, hnew, hfresh⟩ := h.finished
    obtain ⟨new', hnew', hfresh'⟩ := h'.finished
    refine ⟨new' ++ new, by rw [hnew', hnew, List.append_assoc], fun x hx => ?_⟩
    rcases List.mem_append.1 hx with hx | hx
    · exact fun hs => hfresh' x hx (h.seen x hs)
    · exact hfresh x hx

theorem Advance.open {s s' : State α} (h : Advance s s') {x : α} (hx : x ∈ s.seen)
    (hn : x ∉ s.finished) :
    x ∈ s'.seen ∧ x ∉ s'.finished := by
  obtain ⟨new, hnew, hfresh⟩ := h.finished
  refine ⟨h.seen x hx, fun hm => ?_⟩
  rw [hnew] at hm
  rcases List.mem_append.1 hm with hm | hm
  · exact hfresh x hm hx
  · exact hn hm

theorem Advance.finish {s c : State α} {x : α} (h : Advance { s with seen := x :: s.seen } c)
    (hx : x ∉ s.seen) :
    Advance s { c with finished := x :: c.finished } where
  seen y hy := h.seen y (List.mem_cons_of_mem _ hy)
  settled y hy := by
    rcases h.settled y hy with hy | hy
    · rcases List.mem_cons.1 hy with rfl | hy
      · exact .inr List.mem_cons_self
      · exact .inl hy
    · exact .inr (List.mem_cons_of_mem _ hy)
  finished := by
    obtain ⟨new, hnew, hfresh⟩ := h.finished
    refine ⟨x :: new, by rw [List.cons_append, ← hnew], fun y hy => ?_⟩
    rcases List.mem_cons.1 hy with rfl | hy
    · exact hx
    · exact fun hm => hfresh y hy (List.mem_cons_of_mem _ hm)

def Within (next : α → Checked (List α)) (U : List α) : Prop :=
  ∀ x ∈ U, ∃ ys, next x = .ok ys ∧ ∀ y ∈ ys, y ∈ U

/-- What a part of a search that goes through has met, it has asked for neighbours, and it has met
these as well. -/
structure Asked (next : α → Checked (List α)) (s s' : State α) : Prop where
  seen : ∀ x ∈ s.seen, x ∈ s'.seen
  asked : ∀ x ∈ s'.seen, x ∉ s.seen → ∃ ys, next x = .ok ys ∧ ∀ y ∈ ys, y ∈ s'.seen

theorem Asked.refl (s : State α) : Asked next s s := ⟨fun _ h => h, fun _ h hn => absurd h hn⟩

theorem Asked.trans {s s' s'' : State α} (h : Asked next s s') (h' : Asked next s' s'') :
    Asked next s s'' where
  seen x hx := h'.seen x (h.seen x hx)
  asked x hx hn := by
    by_cases hx' : x ∈ s'.seen
    · obtain ⟨ys, hys, hall⟩ := h.asked x hx' hn
      exact ⟨ys, hys, fun y hy => h'.seen y (hall y hy)⟩
    · exact h'.asked x hx hx'

section Visit

variable {next : α → Checked (List α)} {roots U : List α}

theorem Sane.meet {s : State α} {x : α} (h : Sane next roots s)
    (hx : x ∈ roots ∨ ∃ p ∈ s.seen, p ∉ s.finished ∧ Edge next p x) :
    Sane next roots { s with seen := x :: s.seen } where
  finished_nodup := h.finished_nodup
  finished_seen y hy := List.mem_cons_of_mem _ (h.finished_seen y hy)
  closed y hy z e := List.mem_cons_of_mem _ (h.closed y hy z e)
  led pre y post he := by
    rcases h.led pre y post he with hy | hy | ⟨p, hp, hn, e⟩
    · exact .inl hy
    · exact .inr (.inl hy)
    · exact .inr (.inr ⟨p, List.mem_cons_of_mem _ hp, hn, e⟩)
  reached y hy := by
    rcases List.mem_cons.1 hy with rfl | hy
    · rcases hx with hx | ⟨p, hp, -, e⟩
      · exact ⟨y, hx, Connects.refl _ y⟩
      · obtain ⟨r, hr, hw⟩ := h.reached p hp
        exact ⟨r, hr, hw.step e⟩
    · exact h.reached y hy

theorem Sane.finish {s : State α} {x : α} (h : Sane next roots s) (hx : x ∈ s.seen)
    (hn : x ∉ s.finished) (hlead : x ∈ roots ∨ ∃ p ∈ s.seen, p ≠ x ∧ p ∉ s.finished ∧ Edge next p x)
    (hall : ∀ y, Edge next x y → y ∈ s.seen) :
    Sane next roots { s with finished := x :: s.finished } where
  finished_nodup := List.nodup_cons.2 ⟨hn, h.finished_nodup⟩
  finished_seen y hy := by
    rcases List.mem_cons.1 hy with rfl | hy
    · exact hx
    · exact h.finished_seen y hy
  closed y hy := by
    rcases List.mem_cons.1 hy with rfl | hy
    · exact hall
    · exact h.closed y hy
  led pre y post he := by
    cases pre with
    | nil =>
      obtain ⟨rfl, -⟩ := List.cons.inj he
      rcases hlead with hr | ⟨p, hp, hne, hpf, e⟩
      · exact .inl hr
      · refine .inr (.inr ⟨p, hp, fun hm => ?_, e⟩)
        rcases List.mem_cons.1 hm with hm | hm
        · exact hne hm
        · exact hpf hm
    | cons z pre =>
      obtain ⟨rfl, he'⟩ := List.cons.inj he
      rcases h.led pre y post he' with hy | ⟨p, hp, e⟩ | ⟨p, hp, hpf, e⟩
      · exact .inl hy
      · exact .inr (.inl ⟨p, List.mem_cons_of_mem _ hp, e⟩)
      · by_cases hpx : p = x
        · subst hpx
          exact .inr (.inl ⟨p, List.mem_cons_self, e⟩)
        · refine .inr (.inr ⟨p, hp, fun hm => ?_, e⟩)
          rcases List.mem_cons.1 hm with hm | hm
          · exact hpx hm
          · exact hpf hm
  reached := h.reached

variable [DecidableEq α]

def unseen (U : List α) (s : State α) : List α := U.filter (· ∉ s.seen)

theorem unseen_lt {U : List α} {s : State α} {x : α} (hx : x ∈ U) (hn : x ∉ s.seen) :
    (unseen U { s with seen := x :: s.seen }).length < (unseen U s).length := by
  have hsub : unseen U { s with seen := x :: s.seen } = (unseen U s).filter (· ≠ x) := by
    unfold unseen
    rw [List.filter_filter]
    refine List.filter_congr fun y _ => ?_
    by_cases hy : y = x <;> simp [hy]
  rw [hsub]
  refine Nat.lt_of_le_of_ne (List.length_filter_le _ _) fun he => ?_
  have hall := List.length_filter_eq_length_iff.1 he x (List.mem_filter.2 ⟨hx, by simpa using hn⟩)
  simp at hall

theorem unseen_le {U : List α} {s s' : State α} (h : Advance s s') :
    (unseen U s').length ≤ (unseen U s).length := by
  have hsub : unseen U s' = (unseen U s).filter (· ∉ s'.seen) := by
    unfold unseen
    rw [List.filter_filter]
    refine List.filter_congr fun y _ => ?_
    by_cases hy : y ∈ s.seen
    · simp [hy, h.seen y hy]
    · simp [hy]
  rw [hsub]
  exact List.length_filter_le _ _

theorem visit_ok (hU : Within next U) :
    ∀ depth (s : State α) (x : α), Sane next roots s → (∀ y ∈ s.seen, y ∈ U) → x ∈ U →
      (x ∈ roots ∨ ∃ p ∈ s.seen, p ∉ s.finished ∧ Edge next p x) → (unseen U s).length ≤ depth →
      ∃ s', visit next depth s x = .ok s' ∧ Sane next roots s' ∧ Advance s s' ∧ x ∈ s'.seen ∧
        ∀ y ∈ s'.seen, y ∈ U := by
  intro depth
  induction depth with
  | zero =>
    intro s x hs hsub hx hlead hd
    by_cases hseen : x ∈ s.seen
    · exact ⟨s, by rw [visit, if_pos hseen], hs, .refl s, hseen, hsub⟩
    · have := unseen_lt hx hseen
      omega
  | succ depth ih =>
    intro s x hs hsub hx hlead hd
    by_cases hseen : x ∈ s.seen
    · exact ⟨s, by rw [visit, if_pos hseen], hs, .refl s, hseen, hsub⟩
    have hless := unseen_lt hx hseen
    obtain ⟨ys, hys, hyU⟩ := hU x hx
    have hxf : x ∉ s.finished := fun hm => hseen (hs.finished_seen x hm)
    have hfold := foldlM_yields (l := ys) (b := { s with seen := x :: s.seen })
      (f := visit next depth) (fun pre s' => Sane next roots s' ∧
      Advance { s with seen := x :: s.seen } s' ∧
        (∀ y ∈ pre, y ∈ s'.seen) ∧ ∀ y ∈ s'.seen, y ∈ U)
      ⟨hs.meet hlead, .refl _, fun _ h => absurd h List.not_mem_nil, fun y hy => by
        rcases List.mem_cons.1 hy with rfl | hy
        · exact hx
        · exact hsub y hy⟩ ?_
    · obtain ⟨s', hs', hsane, hadv, hall, hsub'⟩ := hfold
      obtain ⟨hx', hxf'⟩ := hadv.open (x := x) List.mem_cons_self hxf
      refine ⟨{ s' with finished := x :: s'.finished }, ?_, ?_, ?_, hx', hsub'⟩
      · rw [visit, if_neg hseen, hys, ok_bind]
        rw [hs', ok_bind]
      · refine hsane.finish hx' hxf' ?_ ?_
        · rcases hlead with hr | ⟨p, hp, hpf, e⟩
          · exact .inl hr
          · obtain ⟨hp', hpf'⟩ := hadv.open (x := p) (List.mem_cons_of_mem _ hp) hpf
            exact .inr ⟨p, hp', fun e => hseen (e ▸ hp), hpf', e⟩
        · rintro y ⟨zs, hzs, hy⟩
          rw [hys] at hzs
          cases hzs
          exact hall y hy
      · exact hadv.finish hseen
    · rintro pre y post s' rfl ⟨hsane, hadv, hall, hsub'⟩
      have hy : y ∈ pre ++ y :: post := List.mem_append_right _ List.mem_cons_self
      obtain ⟨hx', hxf'⟩ := hadv.open (x := x) List.mem_cons_self hxf
      have hle := unseen_le (U := U) hadv
      obtain ⟨s'', hs'', hsane', hadv', hy', hsub''⟩ := ih s' y hsane hsub' (hyU y hy)
        (.inr ⟨x, hx', hxf', _, hys, hy⟩) (by omega)
      refine ⟨s'', hs'', hsane', hadv.trans hadv', fun z hz => ?_, hsub''⟩
      rcases List.mem_append.1 hz with hz | hz
      · exact hadv'.seen z (hall z hz)
      · rw [List.mem_singleton.1 hz]
        exact hy'

theorem visits_avoiding (stop roots : List α) (hU : Within next U) {depth : Nat}
    (hd : U.length ≤ depth) (hstop : ∀ x ∈ stop, x ∈ U) (hroots : ∀ r ∈ roots, r ∈ U) :
    ∃ s, roots.foldlM (visit next depth) { seen := stop } = .ok s ∧ Sane next (stop ++ roots) s ∧
      Advance { seen := stop } s ∧ ∀ r ∈ roots, r ∈ s.seen := by
  have hstart : Sane next (stop ++ roots) ({ seen := stop } : State α) :=
    { finished_nodup := List.nodup_nil
      finished_seen := fun _ h => absurd h List.not_mem_nil
      closed := fun _ h => absurd h List.not_mem_nil
      led := fun pre x post he => by simp at he
      reached := fun x hx => ⟨x, List.mem_append_left _ hx, Connects.refl _ x⟩ }
  obtain ⟨s, hs, hsane, hadv, hall, -⟩ :=
    foldlM_yields (l := roots) (b := ({ seen := stop } : State α)) (f := visit next depth)
    (fun pre s => Sane next (stop ++ roots) s ∧ Advance { seen := stop } s ∧
    (∀ y ∈ pre, y ∈ s.seen) ∧
      ∀ y ∈ s.seen, y ∈ U)
    ⟨hstart, .refl _, fun _ h => absurd h List.not_mem_nil, hstop⟩ (by
      rintro pre y post s' hsplit ⟨hsane, hadv, hall, hsub⟩
      have hy : y ∈ roots := by
        rw [hsplit]
        exact List.mem_append_right _ List.mem_cons_self
      have hle : (unseen U s').length ≤ U.length := List.length_filter_le _ _
      obtain ⟨s'', hs'', hsane', hadv', hy', hsub'⟩ :=
        visit_ok hU depth s' y hsane hsub (hroots y hy)
          (.inl (List.mem_append_right _ hy)) (by omega)
      refine ⟨s'', hs'', hsane', hadv.trans hadv', fun z hz => ?_, hsub'⟩
      rcases List.mem_append.1 hz with hz | hz
      · exact hadv'.seen z (hall z hz)
      · rw [List.mem_singleton.1 hz]
        exact hy')
  exact ⟨s, hs, hsane, hadv, hall⟩

theorem visits_ok (roots : List α) (hU : Within next U) {depth : Nat} (hd : U.length ≤ depth)
    (hroots : ∀ r ∈ roots, r ∈ U) :
    ∃ s, roots.foldlM (visit next depth) {} = .ok s ∧ Sane next roots s ∧
      (∀ x ∈ s.seen, x ∈ s.finished) ∧ ∀ x, x ∈ s.finished ↔ ∃ r ∈ roots, Connects
        (Edge next) r x := by
  obtain ⟨s, hs, hsane, hadv, hall⟩ :=
    visits_avoiding [] roots hU hd (fun _ h => absurd h List.not_mem_nil) hroots
  have hfin : ∀ x ∈ s.seen, x ∈ s.finished := fun x hx =>
    (hadv.settled x hx).resolve_left List.not_mem_nil
  refine ⟨s, hs, hsane, hfin, fun x => ⟨fun hx => hsane.reached x (hsane.finished_seen x hx), ?_⟩⟩
  rintro ⟨r, hr, p, hp⟩
  have follow : ∀ {a}, Walk (Edge next) a x p → a ∈ s.finished → x ∈ s.finished := by
    intro a hw
    clear hp
    induction hw with
    | single => exact id
    | cons e _ ih => exact fun ha => ih (hfin _ (hsane.closed _ ha _ e))
  exact follow hp (hfin r (hall r hr))

/-- What holds of a node that is visited and is handed on along edges, except to the nodes that are
not entered, holds of all that the visit meets. -/
theorem visit_induct {P : α → Prop} {stop : List α}
    (step : ∀ {x y}, P x → Edge next x y → y ∉ stop → P y) :
    ∀ {depth : Nat} {s s' : State α} {x : α}, visit next depth s x = .ok s' →
      (∀ y ∈ stop, y ∈ s.seen) →
      (x ∉ stop → P x) → (∀ y ∈ s.seen, y ∉ stop → P y) →
      (∀ y ∈ stop, y ∈ s'.seen) ∧ ∀ y ∈ s'.seen, y ∉ stop → P y := by
  intro depth
  induction depth with
  | zero =>
    intro s s' x h hstop hx hall
    unfold visit at h
    split at h
    · cases h
      exact ⟨hstop, hall⟩
    · cases h
  | succ depth ih =>
    intro s s' x h hstop hx hall
    unfold visit at h
    split at h
    · cases h
      exact ⟨hstop, hall⟩
    · rename_i hnew
      obtain ⟨ys, hys, h⟩ := bind_eq_ok.1 h
      obtain ⟨c, hc, h⟩ := bind_eq_ok.1 h
      cases h
      have hpx : P x := hx fun hm => hnew (hstop x hm)
      refine foldlM_ok_induct (fun _ c => (∀ y ∈ stop, y ∈ c.seen) ∧
        ∀ y ∈ c.seen, y ∉ stop → P y) hc ?_ ?_
      · refine ⟨fun y hy => List.mem_cons_of_mem _ (hstop y hy), fun y hy hn => ?_⟩
        rcases List.mem_cons.1 hy with rfl | hy
        · exact hpx
        · exact hall y hy hn
      · rintro pre y post c' c'' hsplit ⟨hstop', hall'⟩ hvisit
        refine ih hvisit hstop' (fun hn => step hpx ⟨ys, hys, ?_⟩ hn) hall'
        rw [hsplit]
        exact List.mem_append_right _ List.mem_cons_self

theorem reach_ok (stop roots : List α) (hU : Within next U) {depth : Nat} (hd : U.length ≤ depth)
    (hstop : ∀ x ∈ stop, x ∈ U) (hroots : ∀ r ∈ roots, r ∈ U) :
    ∃ xs, reach next depth stop roots = .ok xs ∧
      ∀ x, x ∈ xs ↔ x ∈ stop ∨ ∃ r ∈ roots, ∃ p, Walk (Edge next) r x p ∧ ∀ y ∈ p, y ∉ stop := by
  obtain ⟨s, hs, hsane, hadv, hall⟩ := visits_avoiding stop roots hU hd hstop hroots
  refine ⟨s.seen, by rw [reach, hs, ok_bind], fun x => ⟨fun hx => ?_, ?_⟩⟩
  · have hmet : ∀ y ∈ s.seen, y ∉ stop → ∃ r ∈ roots, ∃ p, Walk (Edge next) r y p ∧
        ∀ z ∈ p, z ∉ stop := by
      refine (foldlM_ok_induct (fun _ c => (∀ y ∈ stop, y ∈ c.seen) ∧ ∀ y ∈ c.seen, y ∉ stop →
        ∃ r ∈ roots, ∃ p, Walk (Edge next) r y p ∧ ∀ z ∈ p, z ∉ stop) hs
        ⟨fun _ h => h, fun y hy hn => absurd hy hn⟩ ?_).2
      rintro pre r post c c' hsplit ⟨hstop', hall'⟩ hvisit
      refine visit_induct ?_ hvisit hstop' (fun hn => ⟨r, ?_, [r], .single r, ?_⟩) hall'
      · rintro y z ⟨r, hr, p, hp, havoid⟩ e hz
        refine ⟨r, hr, _, hp.snoc e, fun w hw => ?_⟩
        rcases List.mem_append.1 hw with hw | hw
        · exact havoid w hw
        · exact List.mem_singleton.1 hw ▸ hz
      · rw [hsplit]
        exact List.mem_append_right _ List.mem_cons_self
      · exact fun z hz => List.mem_singleton.1 hz ▸ hn
    by_cases hstop' : x ∈ stop
    · exact .inl hstop'
    · exact .inr (hmet x hx hstop')
  · rintro (hx | ⟨r, hr, p, hp, havoid⟩)
    · exact hadv.seen x hx
    · have hstart := hall r hr
      clear hr
      induction hp with
      | single => exact hstart
      | @cons a b c p e hw ih =>
        have hfin := (hadv.settled a hstart).resolve_left (havoid a List.mem_cons_self)
        exact ih (fun y hy => havoid y (List.mem_cons_of_mem _ hy)) (hsane.closed a hfin b e)

theorem visits_ask {depth : Nat} {l : List α} {s s' : State α}
    (hvisit : ∀ {c c' : State α} {x : α}, visit next depth c x = .ok c' →
      Asked next c c' ∧ x ∈ c'.seen)
    (h : l.foldlM (visit next depth) s = .ok s') : Asked next s s' ∧ ∀ x ∈ l, x ∈ s'.seen := by
  refine foldlM_ok_induct (fun pre c => Asked next s c ∧ ∀ x ∈ pre, x ∈ c.seen) h
    ⟨.refl s, fun _ hx => absurd hx List.not_mem_nil⟩ ?_
  rintro pre x post c c' - ⟨hasked, hall⟩ hx
  obtain ⟨hasked', hmet⟩ := hvisit hx
  refine ⟨hasked.trans hasked', fun y hy => ?_⟩
  rcases List.mem_append.1 hy with hy | hy
  · exact hasked'.seen y (hall y hy)
  · rw [List.mem_singleton.1 hy]
    exact hmet

theorem visit_asks {depth : Nat} {s s' : State α} {x : α} (h : visit next depth s x = .ok s') :
    Asked next s s' ∧ x ∈ s'.seen := by
  induction depth generalizing s s' x with
  | zero =>
    unfold visit at h
    split at h
    · rename_i hseen
      cases h
      exact ⟨.refl s, hseen⟩
    · cases h
  | succ depth ih =>
    unfold visit at h
    split at h
    · rename_i hseen
      cases h
      exact ⟨.refl s, hseen⟩
    · obtain ⟨ys, hys, h⟩ := bind_eq_ok.1 h
      obtain ⟨c, hc, h⟩ := bind_eq_ok.1 h
      cases h
      obtain ⟨hasked, hall⟩ := visits_ask ih hc
      have hx : x ∈ c.seen := hasked.seen x List.mem_cons_self
      refine ⟨⟨fun y hy => hasked.seen y (List.mem_cons_of_mem _ hy), fun y hy hn => ?_⟩, hx⟩
      by_cases hyx : y = x
      · exact ⟨ys, hyx ▸ hys, hall⟩
      · exact hasked.asked y hy fun hm => hn ((List.mem_cons.1 hm).resolve_left hyx)

theorem visit_of_seen {depth : Nat} {s : State α} {x : α} (h : x ∈ s.seen) :
    visit next depth s x = .ok s := by
  unfold visit
  rw [if_pos h]

theorem visits_advance {depth : Nat} {l : List α} {s s' : State α}
    (hvisit : ∀ {c c' : State α} {x : α}, visit next depth c x = .ok c' →
      (∀ y ∈ c.finished, y ∈ c.seen) →
      Advance c c' ∧ ∀ y ∈ c'.finished, y ∈ c'.seen)
    (h : l.foldlM (visit next depth) s = .ok s') (hs : ∀ y ∈ s.finished, y ∈ s.seen) :
    Advance s s' ∧ ∀ y ∈ s'.finished, y ∈ s'.seen := by
  refine foldlM_ok_induct (fun (_ : List α) c => Advance s c ∧ ∀ y ∈ c.finished, y ∈ c.seen) h
    ⟨.refl s, hs⟩ ?_
  rintro pre x post c c' - ⟨hadv, hfin⟩ hx
  obtain ⟨hadv', hfin'⟩ := hvisit hx hfin
  exact ⟨hadv.trans hadv', hfin'⟩

theorem visit_advance {depth : Nat} {s s' : State α} {x : α} (h : visit next depth s x = .ok s')
    (hs : ∀ y ∈ s.finished, y ∈ s.seen) : Advance s s' ∧ ∀ y ∈ s'.finished, y ∈ s'.seen := by
  induction depth generalizing s s' x with
  | zero =>
    unfold visit at h
    split at h
    · cases h
      exact ⟨.refl s, hs⟩
    · cases h
  | succ depth ih =>
    unfold visit at h
    split at h
    · cases h
      exact ⟨.refl s, hs⟩
    · rename_i hnew
      obtain ⟨ys, -, h⟩ := bind_eq_ok.1 h
      obtain ⟨c, hc, h⟩ := bind_eq_ok.1 h
      cases h
      obtain ⟨hadv, hfin⟩ := visits_advance ih hc fun y hy => List.mem_cons_of_mem _ (hs y hy)
      refine ⟨hadv.finish hnew, fun y hy => ?_⟩
      rcases List.mem_cons.1 hy with rfl | hy
      · exact hadv.seen y List.mem_cons_self
      · exact hfin y hy

theorem asked_of_reversePostOrder {depth : Nat} {roots order : List α} {r x : α}
    (h : reversePostOrder next depth roots = .ok order) (hr : r ∈ roots)
    (hx : Connects (Edge next) r x) :
    ∃ ys, next x = .ok ys := by
  obtain ⟨s, hs, -⟩ := bind_eq_ok.1 h
  obtain ⟨hasked, hall⟩ := visits_ask visit_asks hs
  have hclosed : ∀ {y}, y ∈ s.seen → ∃ ys, next y = .ok ys ∧ ∀ z ∈ ys, z ∈ s.seen :=
    fun hy => hasked.asked _ hy List.not_mem_nil
  obtain ⟨p, hp⟩ := hx
  have hmet : x ∈ s.seen := by
    have hstart := hall r hr
    clear hr
    induction hp with
    | single => exact hstart
    | cons e _ ih =>
      obtain ⟨ys, hys, hin⟩ := hclosed hstart
      obtain ⟨zs, hzs, hz⟩ := e
      cases hys.symm.trans hzs
      exact ih (hin _ hz)
  obtain ⟨ys, hys, -⟩ := hclosed hmet
  exact ⟨ys, hys⟩

end Visit

end MiddleEnd.Search
