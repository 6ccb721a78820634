import MiddleEnd.Log

/-!
# Outcomes

Reasoning about computations that may end in a fault. A computation is followed forwards: it yields
a value with a property, and what comes next starts from there. Runs are followed with nobody
listening, so that no line of the log is ever composed.
-/

namespace MiddleEnd

section Except

variable {ε α β : Type}

@[simp]
theorem ok_bind (a : α) (f : α → Except ε β) : (Except.ok a >>= f) = f a := rfl

@[simp]
theorem error_bind (e : ε) (f : α → Except ε β) :
    ((Except.error e : Except ε α) >>= f) = .error e := rfl

@[simp]
theorem pure_eq_ok (a : α) : (pure a : Except ε α) = .ok a := rfl

@[simp]
theorem map_ok (f : α → β) (a : α) : (Except.ok a : Except ε α).map f = .ok (f a) := rfl

@[simp]
theorem map_error (f : α → β) (e : ε) : (Except.error e : Except ε α).map f = .error e := rfl

theorem bind_eq_ok {x : Except ε α} {f : α → Except ε β} {b : β} :
    (x >>= f) = .ok b ↔ ∃ a, x = .ok a ∧ f a = .ok b := by
  cases x with
  | error e => simp
  | ok a => simp

theorem map_eq_ok {x : Except ε α} {f : α → β} {b : β} :
    x.map f = .ok b ↔ ∃ a, x = .ok a ∧ f a = b := by
  cases x with
  | error e => simp
  | ok a => simp

@[simp]
theorem ofOption_some (e : Fault) (a : α) : Checked.ofOption e (some a) = .ok a := rfl

@[simp]
theorem ofOption_none (e : Fault) : Checked.ofOption e (none : Option α) = .error e := rfl

@[simp]
theorem ofOption_eq_ok {e : Fault} {o : Option α} {a : α} :
    Checked.ofOption e o = .ok a ↔ o = some a := by
  cases o <;> simp

theorem ok_of_toOption {x : Except ε α} {a : α} (h : x.toOption = some a) : x = .ok a := by
  cases x with
  | ok b =>
    cases h
    rfl
  | error e => cases h

theorem exists_of_any {x : Except ε α} {p : α → Bool} (h : x.toOption.any p = true) :
    ∃ a, x = .ok a ∧ p a = true := by
  cases x with
  | error e => cases h
  | ok a => exact ⟨a, rfl, h⟩

theorem mapM_of_forall {f : α → Except ε β} {g : α → β} {xs : List α}
    (h : ∀ x ∈ xs, f x = .ok (g x)) : xs.mapM f = .ok (xs.map g) := by
  induction xs with
  | nil => rfl
  | cons x xs ih =>
    rw [List.mapM_cons, h x List.mem_cons_self, ih fun y hy => h y (List.mem_cons_of_mem _ hy)]
    rfl

theorem mapM_cons_eq_ok {f : α → Except ε β} {x : α} {xs : List α} {ys : List β} :
    (x :: xs).mapM f = .ok ys ↔ ∃ y rest, f x = .ok y ∧ xs.mapM f = .ok rest ∧ ys = y :: rest := by
  rw [List.mapM_cons]
  constructor
  · intro h
    obtain ⟨y, hy, h⟩ := bind_eq_ok.1 h
    obtain ⟨rest, hr, h⟩ := bind_eq_ok.1 h
    exact ⟨y, rest, hy, hr, (Except.ok.inj h).symm⟩
  · rintro ⟨y, rest, hy, hr, rfl⟩
    rw [hy, ok_bind, hr]
    rfl

theorem mapM_exists {F : α → Except ε β} {xs : List α} (h : ∀ x ∈ xs, ∃ y, F x = .ok y) :
    ∃ ys, xs.mapM F = .ok ys := by
  induction xs with
  | nil => exact ⟨[], rfl⟩
  | cons x xs ih =>
    obtain ⟨y, hy⟩ := h x List.mem_cons_self
    obtain ⟨ys, hys⟩ := ih fun z hz => h z (List.mem_cons_of_mem _ hz)
    exact ⟨y :: ys, mapM_cons_eq_ok.2 ⟨y, ys, hy, hys, rfl⟩⟩

theorem mapM_ok_forall {f : α → Except ε β} {xs : List α} {ys : List β} (h : xs.mapM f = .ok ys) :
    ∀ x ∈ xs, ∃ y ∈ ys, f x = .ok y := by
  induction xs generalizing ys with
  | nil => intro x hx; cases hx
  | cons x xs ih =>
    obtain ⟨y, rest, hy, hr, rfl⟩ := mapM_cons_eq_ok.1 h
    intro z hz
    rcases List.mem_cons.1 hz with rfl | hz
    · exact ⟨y, List.mem_cons_self, hy⟩
    · obtain ⟨w, hw, he⟩ := ih hr z hz
      exact ⟨w, List.mem_cons_of_mem _ hw, he⟩

theorem mapM_ok_length {f : α → Except ε β} {xs : List α} {ys : List β} (h : xs.mapM f = .ok ys) :
    ys.length = xs.length := by
  induction xs generalizing ys with
  | nil => cases h; rfl
  | cons x xs ih =>
    obtain ⟨y, rest, _, hr, rfl⟩ := mapM_cons_eq_ok.1 h
    rw [List.length_cons, List.length_cons, ih hr]

theorem mapM_ok_getElem? {f : α → Except ε β} {xs : List α} {ys : List β} (h : xs.mapM f = .ok ys)
    {n : Nat} {y : β} (hy : ys[n]? = some y) : ∃ x, xs[n]? = some x ∧ f x = .ok y := by
  induction xs generalizing n ys with
  | nil =>
    cases h
    simp at hy
  | cons x xs ih =>
    obtain ⟨z, rest, hz, hrest, rfl⟩ := mapM_cons_eq_ok.1 h
    cases n with
    | zero =>
      cases hy
      exact ⟨x, rfl, hz⟩
    | succ n => exact ih hrest hy

theorem mapM_ok_map {f : α → Except ε β} {g : β → α} {xs : List α} {ys : List β}
    (h : xs.mapM f = .ok ys) (hg : ∀ {x y}, f x = .ok y → g y = x) : ys.map g = xs := by
  induction xs generalizing ys with
  | nil =>
    cases h
    rfl
  | cons x xs ih =>
    obtain ⟨y, rest, hy, hrest, rfl⟩ := mapM_cons_eq_ok.1 h
    rw [List.map_cons, hg hy, ih hrest]

theorem filterM_of_forall {p : α → Except ε Bool} {q : α → Bool} {xs : List α}
    (h : ∀ x ∈ xs, p x = .ok (q x)) : xs.filterM p = .ok (xs.filter q) := by
  have collect : ∀ done, xs.filterAuxM p done = .ok ((xs.filter q).reverse ++ done) := by
    induction xs with
    | nil => exact fun _ => rfl
    | cons x xs ih =>
      intro done
      rw [List.filterAuxM, h x List.mem_cons_self, ok_bind,
        ih fun y hy => h y (List.mem_cons_of_mem _ hy)]
      cases hq : q x <;> simp [hq]
  rw [List.filterM, collect]
  simp

theorem filterM_sublist {p : α → Except ε Bool} {xs ys : List α} (h : xs.filterM p = .ok ys) :
    ys.Sublist xs := by
  have collect : ∀ {xs done zs : List α}, xs.filterAuxM p done = .ok zs →
      ∃ kept : List α, zs = kept.reverse ++ done ∧ kept.Sublist xs := by
    intro xs
    induction xs with
    | nil =>
      intro done zs h
      cases h
      exact ⟨[], rfl, .refl _⟩
    | cons x xs ih =>
      intro done zs h
      rw [List.filterAuxM] at h
      obtain ⟨keep, -, h⟩ := bind_eq_ok.1 h
      obtain ⟨kept, rfl, hsub⟩ := ih h
      cases keep with
      | true => exact ⟨x :: kept, by simp, hsub.cons_cons x⟩
      | false => exact ⟨kept, rfl, hsub.cons x⟩
  obtain ⟨zs, hzs, h⟩ := bind_eq_ok.1 h
  obtain ⟨kept, rfl, hsub⟩ := collect hzs
  cases h
  simpa using hsub

theorem mapM_flatten_nil {f : α → Except ε (List β)} {l : List α} :
    (∃ ys, l.mapM f = .ok ys ∧ ys.flatten = []) ↔ ∀ x ∈ l, f x = .ok [] := by
  constructor
  · rintro ⟨ys, h, hn⟩ x hx
    obtain ⟨y, hy, he⟩ := mapM_ok_forall h x hx
    rw [he, List.flatten_eq_nil_iff.1 hn y hy]
  · intro h
    refine ⟨_, mapM_of_forall (g := fun _ => []) h, ?_⟩
    rw [List.flatten_eq_nil_iff]
    intro y hy
    obtain ⟨_, _, rfl⟩ := List.mem_map.1 hy
    rfl

theorem foldlM_yields {f : β → α → Except ε β} {l : List α} {b : β} (I : List α → β → Prop)
    (start : I [] b)
    (step : ∀ pre x post c, l = pre ++ x :: post → I pre c → ∃ d, f c x = .ok d ∧
      I (pre ++ [x]) d) :
    ∃ d, l.foldlM f b = .ok d ∧ I l d := by
  induction l generalizing b I with
  | nil => exact ⟨b, rfl, start⟩
  | cons x l ih =>
    obtain ⟨c, hc, hI⟩ := step [] x l b rfl start
    obtain ⟨d, hd, hId⟩ := ih (b := c) (fun pre => I (x :: pre)) hI (by
      intro pre y post c' he hI'
      exact step (x :: pre) y post c' (by rw [he, List.cons_append]) hI')
    exact ⟨d, by rw [List.foldlM_cons, hc, ok_bind, hd], hId⟩

theorem foldlM_ok_induct {f : β → α → Except ε β} {l : List α} {b d : β} (I : List α → β → Prop)
    (h : l.foldlM f b = .ok d) (start : I [] b)
    (step : ∀ pre x post c c', l = pre ++ x :: post → I pre c → f c x = .ok c' →
      I (pre ++ [x]) c') :
    I l d := by
  induction l generalizing b I with
  | nil => cases h; exact start
  | cons x l ih =>
    rw [List.foldlM_cons] at h
    obtain ⟨c, hc, h⟩ := bind_eq_ok.1 h
    refine ih (fun pre => I (x :: pre)) h (step [] x l b c rfl start hc) ?_
    intro pre y post c' c'' he hI hf
    exact step (x :: pre) y post c' c'' (by rw [he, List.cons_append]) hI hf

theorem foldl_induct {f : β → α → β} {l : List α} {b : β} (I : List α → β → Prop) (start : I [] b)
    (step : ∀ pre x post c, l = pre ++ x :: post → I pre c → I (pre ++ [x]) (f c x)) :
    I l (l.foldl f b) := by
  induction l generalizing b I with
  | nil => exact start
  | cons x l ih =>
    refine ih (fun pre => I (x :: pre)) (step [] x l b rfl start) ?_
    intro pre y post c he hI
    exact step (x :: pre) y post c (by rw [he, List.cons_append]) hI

theorem allM_of_forall {p : α → Except ε Bool} {q : α → Bool} {xs : List α}
    (h : ∀ x ∈ xs, p x = .ok (q x)) : xs.allM p = .ok (xs.all q) := by
  induction xs with
  | nil => rfl
  | cons x xs ih =>
    rw [List.allM, h x List.mem_cons_self, ok_bind, ih fun y hy => h y (List.mem_cons_of_mem _ hy)]
    cases hq : q x <;> simp [hq]

theorem allM_exists {p : α → Except ε Bool} {P : α → Prop} {xs : List α}
    (h : ∀ x ∈ xs, ∃ q, p x = .ok q ∧ (q = true ↔ P x)) :
    ∃ q, xs.allM p = .ok q ∧ (q = true ↔ ∀ x ∈ xs, P x) := by
  refine ⟨_, allM_of_forall (q := fun x => (p x).toOption.getD false) fun x hx => ?_, ?_⟩
  · obtain ⟨q, hq, -⟩ := h x hx
    rw [hq]
    rfl
  · refine List.all_eq_true.trans (forall₂_congr fun x hx => ?_)
    obtain ⟨q, hq, hP⟩ := h x hx
    rw [hq]
    exact hP

theorem filterM_exists {p : α → Except ε Bool} {P : α → Prop} {xs : List α}
    (h : ∀ x ∈ xs, ∃ q, p x = .ok q ∧ (q = true ↔ P x)) :
    ∃ ys, xs.filterM p = .ok ys ∧ ∀ x, x ∈ ys ↔ x ∈ xs ∧ P x := by
  refine ⟨_, filterM_of_forall (q := fun x => (p x).toOption.getD false) fun x hx =>
    ?_, fun x => ?_⟩
  · obtain ⟨q, hq, -⟩ := h x hx
    rw [hq]
    rfl
  · refine List.mem_filter.trans (and_congr_right fun hx => ?_)
    obtain ⟨q, hq, hP⟩ := h x hx
    rw [hq]
    exact hP

end Except

namespace Run

variable {α β : Type}

/-- A run that nobody listens to leaves the log alone and ends with a value that has the
property. -/
def Yields (r : Run α) (P : α → Prop) : Prop :=
  ∀ log : Log, log.level = none → ∃ a, r.exec log = (.ok a, log) ∧ P a

/-- A run that nobody listens to ends in a fault. -/
def Fails (r : Run α) : Prop :=
  ∀ log : Log, log.level = none → ∃ e, r.exec log = (.error e, log)

theorem Yields.outcome {r : Run α} {P : α → Prop} (h : r.Yields P) :
    ∃ a, r.outcome = .ok a ∧ P a := by
  obtain ⟨a, ha, hP⟩ := h {} rfl
  exact ⟨a, by rw [Run.outcome, ha], hP⟩

theorem exec_bind_ok {r : Run α} {f : α → Run β} {log log' : Log} {a : α}
    (h : r.exec log = (.ok a, log')) : (r >>= f).exec log = (f a).exec log' := by
  rw [Run.exec] at h
  rw [Run.exec, ExceptT.run_bind, StateT.run_bind, h]
  rfl

theorem Yields.outcome_bind {r : Run α} {P : α → Prop} (h : r.Yields P) :
    ∃ a, r.outcome = .ok a ∧ P a ∧ ∀ {β : Type} (f : α → Run β),
      (r >>= f).outcome = (f a).outcome := by
  obtain ⟨a, ha, hP⟩ := h {} rfl
  refine ⟨a, by rw [Run.outcome, ha], hP, fun f => ?_⟩
  rw [Run.outcome, exec_bind_ok ha, Run.outcome]

theorem Fails.outcome {r : Run α} (h : r.Fails) : ∃ e, r.outcome = .error e := by
  obtain ⟨e, he⟩ := h {} rfl
  exact ⟨e, by rw [Run.outcome, he]⟩

theorem Yields.mono {r : Run α} {P Q : α → Prop} (h : r.Yields P) (imp : ∀ a, P a → Q a) :
    r.Yields Q := by
  intro log hl
  obtain ⟨a, ha, hP⟩ := h log hl
  exact ⟨a, ha, imp a hP⟩

theorem yields_pure {a : α} {P : α → Prop} (h : P a) : (pure a : Run α).Yields P :=
  fun _ _ => ⟨a, rfl, h⟩

theorem lift_ok_bind (a : α) (f : α → Run β) :
    ((liftM (Except.ok a : Checked α) : Run α) >>= f) = f a := rfl

theorem exec_bind_error {r : Run α} {f : α → Run β} {log log' : Log} {e : Fault}
    (h : r.exec log = (.error e, log')) : (r >>= f).exec log = (.error e, log') := by
  rw [Run.exec] at h
  rw [Run.exec, ExceptT.run_bind, StateT.run_bind, h]
  rfl

theorem Yields.bind {r : Run α} {f : α → Run β} {P : α → Prop} {Q : β → Prop} (h : r.Yields P)
    (next : ∀ a, P a → (f a).Yields Q) : (r >>= f).Yields Q := by
  intro log hl
  obtain ⟨a, ha, hP⟩ := h log hl
  obtain ⟨b, hb, hQ⟩ := next a hP log hl
  exact ⟨b, by rw [exec_bind_ok ha, hb], hQ⟩

theorem Fails.bind {r : Run α} {f : α → Run β} (h : r.Fails) : (r >>= f).Fails := by
  intro log hl
  obtain ⟨e, he⟩ := h log hl
  exact ⟨e, exec_bind_error he⟩

theorem Yields.bind_fails {r : Run α} {f : α → Run β} {P : α → Prop} (h : r.Yields P)
    (next : ∀ a, P a → (f a).Fails) : (r >>= f).Fails := by
  intro log hl
  obtain ⟨a, ha, hP⟩ := h log hl
  obtain ⟨e, he⟩ := next a hP log hl
  exact ⟨e, by rw [exec_bind_ok ha, he]⟩

theorem yields_lift {c : Checked α} {P : α → Prop} (h : ∃ a, c = .ok a ∧ P a) :
    (liftM c : Run α).Yields P := by
  obtain ⟨a, rfl, hP⟩ := h
  exact fun _ _ => ⟨a, rfl, hP⟩

theorem fails_lift {e : Fault} {c : Checked α} (h : c = .error e) : (liftM c : Run α).Fails := by
  subst h
  exact fun _ _ => ⟨e, rfl⟩

theorem yields_log {level : Level} {line : Unit → Checked String} {P : Unit → Prop} (h : P ()) :
    (Run.log level line).Yields P := by
  intro log hl
  refine ⟨(), ?_, h⟩
  have quiet : log.admits level = false := by simp [Log.admits, hl]
  have got : (get : Run Log).exec log = (.ok log, log) := rfl
  rw [Run.log, exec_bind_ok got, quiet]
  rfl

theorem yields_lines (lines : List String) :
    (lines.forM fun line => Run.trace fun _ => .ok line).Yields fun _ => True := by
  induction lines with
  | nil => exact yields_pure trivial
  | cons line lines ih => exact (yields_log (P := fun _ => True) trivial).bind fun _ _ => ih

theorem outcome_log_bind (level : Level) (line : Unit → Checked String) (f : Unit → Run β) :
    (Run.log level line >>= f).outcome = (f ()).outcome := by
  have hlog : (Run.log level line).Yields fun _ => True := yields_log trivial
  obtain ⟨⟨⟩, -, -, hnext⟩ := hlog.outcome_bind
  exact hnext f

theorem yields_foldlM {f : β → α → Run β} {l : List α} {b : β} (I : List α → β → Prop)
    (start : I [] b)
    (step : ∀ pre x post c, l = pre ++ x :: post → I pre c → (f c x).Yields (I (pre ++ [x]))) :
    (l.foldlM f b).Yields (I l) := by
  induction l generalizing b I with
  | nil => exact yields_pure start
  | cons x l ih =>
    rw [List.foldlM_cons]
    refine (step [] x l b rfl start).bind fun c hc => ?_
    refine ih (fun pre => I (x :: pre)) hc ?_
    intro pre y post c' he hI
    exact step (x :: pre) y post c' (by rw [he, List.cons_append]) hI

/-- A run that nobody listens to ends with a value that has the property if the condition holds, and
in a fault if it does not. -/
structure Decides (r : Run α) (C : Prop) (P : α → Prop) : Prop where
  yields : C → r.Yields P
  fails : ¬ C → r.Fails

theorem Yields.decides {r : Run α} {P : α → Prop} (h : r.Yields P) : r.Decides True P :=
  ⟨fun _ => h, fun hn => absurd trivial hn⟩

theorem Decides.congr {r : Run α} {C C' : Prop} {P : α → Prop} (h : r.Decides C P) (hC : C ↔ C') :
    r.Decides C' P :=
  ⟨fun hc => h.yields (hC.2 hc), fun hn => h.fails fun hc => hn (hC.1 hc)⟩

theorem Decides.bind {r : Run α} {f : α → Run β} {C C' : Prop} {P : α → Prop} {Q : β → Prop}
    (h : r.Decides C P) (next : ∀ a, P a → (f a).Decides C' Q) : (r >>= f).Decides (C ∧ C') Q := by
  constructor
  · rintro ⟨hc, hc'⟩
    exact (h.yields hc).bind fun a ha => (next a ha).yields hc'
  · intro hn
    by_cases hc : C
    · exact (h.yields hc).bind_fails fun a ha => (next a ha).fails fun hc' => hn ⟨hc, hc'⟩
    · exact (h.fails hc).bind

theorem Yields.bind_decides {r : Run α} {f : α → Run β} {C : Prop} {P : α → Prop} {Q : β → Prop}
    (h : r.Yields P) (next : ∀ a, P a → (f a).Decides C Q) : (r >>= f).Decides C Q :=
  ⟨fun hc => h.bind fun a ha => (next a ha).yields hc, fun hn => h.bind_fails fun a ha =>
    (next a ha).fails hn⟩

theorem Decides.mono {r : Run α} {C : Prop} {P Q : α → Prop} (h : r.Decides C P)
    (imp : ∀ a, P a → Q a) :
    r.Decides C Q :=
  ⟨fun hc => (h.yields hc).mono imp, h.fails⟩

theorem decides_foldlM {f : β → α → Run β} {l : List α} {b : β} (I : List α → β → Prop)
    (C : α → Prop) (start : I [] b)
    (step : ∀ pre x post c, l = pre ++ x :: post → I pre c →
      (f c x).Decides (C x) (I (pre ++ [x]))) :
    (l.foldlM f b).Decides (∀ x ∈ l, C x) (I l) := by
  induction l generalizing b I with
  | nil => exact ((yields_pure start).decides).congr (by simp)
  | cons x l ih =>
    rw [List.foldlM_cons]
    refine ((step [] x l b rfl start).bind fun c hc => ?_).congr List.forall_mem_cons.symm
    refine ih (fun pre => I (x :: pre)) hc ?_
    intro pre y post c' he hI
    exact step (x :: pre) y post c' (by rw [he, List.cons_append]) hI

/-- The run ends with a value that has the property if nobody listens, and whoever listens if the
condition holds, under which its lines can be composed. -/
def Succeeds (r : Run α) (C : Prop) (P : α → Prop) : Prop :=
  ∀ log : Log, log.level = none ∨ C → ∃ a log', r.exec log = (.ok a, log') ∧
    log'.level = log.level ∧ P a

theorem Succeeds.outcome {r : Run α} {C : Prop} {P : α → Prop} (h : r.Succeeds C P) :
    ∃ a, r.outcome = .ok a ∧ P a := by
  obtain ⟨a, log', ha, -, hP⟩ := h {} (.inl rfl)
  exact ⟨a, by rw [Run.outcome, ha], hP⟩

theorem Succeeds.mono {r : Run α} {C : Prop} {P Q : α → Prop} (h : r.Succeeds C P)
    (imp : ∀ a, P a → Q a) :
    r.Succeeds C Q := by
  intro log hl
  obtain ⟨a, log', ha, hlevel, hP⟩ := h log hl
  exact ⟨a, log', ha, hlevel, imp a hP⟩

theorem succeeds_pure {a : α} {C : Prop} {P : α → Prop} (h : P a) : (pure a : Run α).Succeeds C P :=
  fun log _ => ⟨a, log, rfl, rfl, h⟩

theorem Succeeds.bind {r : Run α} {f : α → Run β} {C : Prop} {P : α → Prop} {Q : β → Prop}
    (h : r.Succeeds C P) (next : ∀ a, P a → (f a).Succeeds C Q) : (r >>= f).Succeeds C Q := by
  intro log hl
  obtain ⟨a, log', ha, hlevel, hP⟩ := h log hl
  obtain ⟨b, log'', hb, hlevel', hQ⟩ := next a hP log' (by rwa [hlevel])
  exact ⟨b, log'', by rw [exec_bind_ok ha, hb], hlevel'.trans hlevel, hQ⟩

theorem succeeds_lift {c : Checked α} {C : Prop} {P : α → Prop} (h : ∃ a, c = .ok a ∧ P a) :
    (liftM c : Run α).Succeeds C P := by
  obtain ⟨a, rfl, hP⟩ := h
  exact fun log _ => ⟨a, log, rfl, rfl, hP⟩

theorem succeeds_log {level : Level} {line : Unit → Checked String} {C : Prop}
    (h : C → ∃ text, line () = .ok text) :
    (Run.log level line).Succeeds C fun _ => True := by
  intro log hl
  have got : (get : Run Log).exec log = (.ok log, log) := rfl
  rw [Run.log, exec_bind_ok got]
  cases hadmits : log.admits level with
  | false => exact ⟨(), log, rfl, rfl, trivial⟩
  | true =>
    have hC : C := hl.resolve_left fun hnone => by simp [Log.admits, hnone] at hadmits
    obtain ⟨text, htext⟩ := h hC
    have composed : (liftM (line ()) : Run String).exec log = (.ok text, log) := by
      rw [htext]
      rfl
    rw [if_pos rfl, exec_bind_ok composed]
    exact ⟨(), log.push level text, rfl, rfl, trivial⟩

theorem succeeds_foldlM {f : β → α → Run β} {l : List α} {b : β} {C : Prop} (I : List α → β → Prop)
    (start : I [] b) (step : ∀ pre x post c, l = pre ++ x :: post → I pre c →
      (f c x).Succeeds C (I (pre ++ [x]))) :
    (l.foldlM f b).Succeeds C (I l) := by
  induction l generalizing b I with
  | nil => exact succeeds_pure start
  | cons x l ih =>
    rw [List.foldlM_cons]
    refine (step [] x l b rfl start).bind fun c hc => ?_
    refine ih (fun pre => I (x :: pre)) hc ?_
    intro pre y post c' he hI
    exact step (x :: pre) y post c' (by rw [he, List.cons_append]) hI

theorem succeeds_mapM {f : α → Checked β} {xs : List α} {ys : List β} {C : Prop}
    (h : xs.mapM f = .ok ys) :
    (xs.mapM fun x => (liftM (f x) : Run β)).Succeeds C (· = ys) := by
  induction xs generalizing ys with
  | nil =>
    cases h
    exact succeeds_pure rfl
  | cons x xs ih =>
    obtain ⟨y, rest, hy, hrest, rfl⟩ := mapM_cons_eq_ok.1 h
    rw [List.mapM_cons]
    refine (succeeds_lift (P := (· = y)) ⟨y, hy, rfl⟩).bind ?_
    rintro _ rfl
    refine (ih hrest).bind ?_
    rintro _ rfl
    exact succeeds_pure rfl

theorem succeeds_forIn {f : α → Run Unit} {l : List α} {C : Prop}
    (h : ∀ x, (f x).Succeeds C fun _ => True) :
    (forIn l PUnit.unit fun x _ => do
      f x
      pure (ForInStep.yield PUnit.unit)).Succeeds C fun _ => True := by
  induction l with
  | nil => exact succeeds_pure trivial
  | cons x l ih =>
    rw [List.forIn_cons, bind_assoc]
    refine (h x).bind fun _ _ => ?_
    rw [pure_bind]
    exact ih

theorem succeeds_lines {C : Prop} (lines : List String) :
    (lines.forM fun line => Run.trace fun _ => .ok line).Succeeds C fun _ => True := by
  induction lines with
  | nil => exact succeeds_pure trivial
  | cons line lines ih => exact (succeeds_log fun _ => ⟨line, rfl⟩).bind fun _ _ => ih

/-- If the run ends with a value, whoever listens, the value has the property. -/
def Ensures (r : Run α) (P : α → Prop) : Prop :=
  ∀ log a log', r.exec log = (.ok a, log') → P a

theorem Ensures.mono {r : Run α} {P Q : α → Prop} (h : r.Ensures P) (imp : ∀ a, P a → Q a) :
    r.Ensures Q :=
  fun log a log' he => imp a (h log a log' he)

theorem ensures_pure {a : α} {P : α → Prop} (h : P a) : (pure a : Run α).Ensures P := by
  intro log b log' he
  cases he
  exact h

theorem ensures_throw {P : α → Prop} (e : Fault) : (throw e : Run α).Ensures P := by
  intro log a log' he
  cases he

theorem Ensures.bind {r : Run α} {f : α → Run β} {P : α → Prop} {Q : β → Prop} (h : r.Ensures P)
    (next : ∀ a, P a → (f a).Ensures Q) : (r >>= f).Ensures Q := by
  intro log b log' he
  cases hr : r.exec log with
  | mk result between =>
    cases result with
    | error e =>
      rw [exec_bind_error hr] at he
      cases he
    | ok a =>
      rw [exec_bind_ok hr] at he
      exact next a (h log a between hr) between b log' he

theorem ensures_after {r : Run α} {f : α → Run β} {Q : β → Prop} (next : ∀ a, (f a).Ensures Q) :
    (r >>= f).Ensures Q :=
  Ensures.bind (P := fun _ => True) (fun _ _ _ _ => trivial) fun a _ => next a

theorem ensures_after_ite {C : Prop} [Decidable C] {r r' : Run α} {f : α → Run β} {Q : β → Prop}
    (next : ∀ a, (f a).Ensures Q) : (if C then r >>= f else r' >>= f).Ensures Q := by
  split
  · exact ensures_after next
  · exact ensures_after next

theorem ensures_lift {c : Checked α} {P : α → Prop} (h : ∀ a, c = .ok a → P a) :
    (liftM c : Run α).Ensures P := by
  intro log a log' he
  cases c with
  | error e => cases he
  | ok b =>
    cases he
    exact h a rfl

theorem ensures_foldlM_prefix {f : β → α → Run β} {l : List α} {b : β} (I : List α → β → Prop)
    (start : I [] b) (step : ∀ pre x post c, l = pre ++ x :: post → I pre c →
      (f c x).Ensures (I (pre ++ [x]))) :
    (l.foldlM f b).Ensures (I l) := by
  induction l generalizing b I with
  | nil => exact ensures_pure start
  | cons x l ih =>
    rw [List.foldlM_cons]
    refine (step [] x l b rfl start).bind fun c hc => ?_
    refine ih (fun pre => I (x :: pre)) hc ?_
    intro pre y post c' he hI
    exact step (x :: pre) y post c' (by rw [he, List.cons_append]) hI

theorem ensures_foldlM {f : β → α → Run β} {l : List α} {b : β} (I : β → Prop) (start : I b)
    (step : ∀ c x, x ∈ l → I c → (f c x).Ensures I) : (l.foldlM f b).Ensures I :=
  ensures_foldlM_prefix (fun _ => I) start fun _ x _ c he hc =>
    step c x (he ▸ List.mem_append_right _ List.mem_cons_self) hc

theorem Ensures.of_outcome {r : Run α} {P : α → Prop} (h : r.Ensures P) {a : α}
    (ha : r.outcome = .ok a) : P a := by
  unfold Run.outcome at ha
  exact h {} a (r.exec {}).2 (Prod.ext ha rfl)

/-- Some listener makes the run end with the value. -/
def Gives (r : Run α) (a : α) : Prop := ∃ log log', r.exec log = (.ok a, log')

theorem Gives.ensured {r : Run α} {P : α → Prop} {a : α} (h : r.Gives a) (he : r.Ensures P) :
    P a := by
  obtain ⟨log, log', hr⟩ := h
  exact he log a log' hr

theorem ensures_gives (r : Run α) : r.Ensures r.Gives := fun log _ log' he => ⟨log, log', he⟩

theorem Gives.of_bind {r : Run α} {f : α → Run β} {b : β} (h : (r >>= f).Gives b) :
    ∃ a, r.Gives a ∧ (f a).Gives b := by
  obtain ⟨log, log', he⟩ := h
  cases hr : r.exec log with
  | mk result between =>
    cases result with
    | error e =>
      rw [exec_bind_error hr] at he
      cases he
    | ok a =>
      rw [exec_bind_ok hr] at he
      exact ⟨a, ⟨log, between, hr⟩, between, log', he⟩

theorem Gives.of_lift_bind {c : Checked α} {f : α → Run β} {b : β}
    (h : ((liftM c : Run α) >>= f).Gives b) :
    ∃ a, c = .ok a ∧ (f a).Gives b := by
  cases c with
  | error e =>
    obtain ⟨log, log', he⟩ := h
    cases he
  | ok a => exact ⟨a, rfl, h⟩

theorem Succeeds.of_gives {r : Run α} {P : α → Prop} {a : α} (h : r.Succeeds True P)
    (ha : r.Gives a) : P a := by
  obtain ⟨log, log', he⟩ := ha
  obtain ⟨b, log'', hb, -, hP⟩ := h log (.inr trivial)
  cases he.symm.trans hb
  exact hP

theorem Succeeds.gives {r : Run α} {P : α → Prop} (h : r.Succeeds True P) :
    r.Succeeds True fun a => r.Gives a ∧ P a := by
  intro log hc
  obtain ⟨a, log', he, hl, hP⟩ := h log hc
  exact ⟨a, log', he, hl, ⟨log, log', he⟩, hP⟩

/-- What the first run ends with, the second one ends with as well. -/
def Extends (r r' : Run α) : Prop :=
  ∀ log a log', r.exec log = (.ok a, log') → r'.exec log = (.ok a, log')

theorem Extends.refl (r : Run α) : r.Extends r := fun _ _ _ h => h

theorem Extends.trans {r r' r'' : Run α} (h : r.Extends r') (h' : r'.Extends r'') : r.Extends r'' :=
  fun log a log' he => h' log a log' (h log a log' he)

theorem extends_throw (e : Fault) (r : Run α) : (throw e : Run α).Extends r := by
  intro log a log' he
  cases he

theorem Extends.bind {r r' : Run α} {f f' : α → Run β} (h : r.Extends r')
    (next : ∀ a, (f a).Extends (f' a)) :
    (r >>= f).Extends (r' >>= f') := by
  intro log b log' he
  cases hr : r.exec log with
  | mk result between =>
    cases result with
    | error e =>
      rw [exec_bind_error hr] at he
      cases he
    | ok a =>
      rw [exec_bind_ok hr] at he
      rw [exec_bind_ok (h log a between hr)]
      exact next a between b log' he

theorem extends_foldlM {f f' : β → α → Run β} (h : ∀ b a, (f b a).Extends (f' b a))
    (l : List α) (b : β) :
    (l.foldlM f b).Extends (l.foldlM f' b) := by
  induction l generalizing b with
  | nil => exact Extends.refl _
  | cons a l ih =>
    rw [List.foldlM_cons, List.foldlM_cons]
    exact (h b a).bind ih

theorem Gives.extend {r r' : Run α} {a : α} (h : r.Gives a) (he : r.Extends r') : r'.Gives a := by
  obtain ⟨log, log', hr⟩ := h
  exact ⟨log, log', he log a log' hr⟩

end Run

/-- The computation ends within the steps it is given, be it in a fault. -/
def Checked.Ends {α : Type} (c : Checked α) : Prop := c ≠ .error .unfinished

namespace Checked

variable {α β : Type}

theorem ends_ok (a : α) : Checked.Ends (.ok a) := by simp [Ends]

theorem ends_ofOption {e : Fault} (h : e ≠ .unfinished) (o : Option α) : (ofOption e o).Ends := by
  cases o with
  | none => simpa [Ends] using h
  | some a => exact ends_ok a

theorem ends_nth (xs : List α) (n : Nat) : (nth xs n).Ends := ends_ofOption (by decide) _

theorem Ends.bind {c : Checked α} {f : α → Checked β} (h : c.Ends) (next : ∀ a, (f a).Ends) :
    (c >>= f).Ends := by
  cases c with
  | error e => simpa [Ends] using h
  | ok a => exact next a

theorem Ends.map {c : Checked α} (h : c.Ends) (f : α → β) : Checked.Ends (c.map f) := by
  cases c with
  | error e => simpa [Ends] using h
  | ok a => exact ends_ok _

theorem ends_mapM {f : α → Checked β} (h : ∀ a, (f a).Ends) (l : List α) : (l.mapM f).Ends := by
  induction l with
  | nil => exact ends_ok _
  | cons a l ih =>
    rw [List.mapM_cons]
    exact (h a).bind fun b => ih.bind fun bs => ends_ok _

theorem ends_foldlM {f : β → α → Checked β} (h : ∀ b a, (f b a).Ends) (l : List α) (b : β) :
    (l.foldlM f b).Ends := by
  induction l generalizing b with
  | nil => exact ends_ok _
  | cons a l ih =>
    rw [List.foldlM_cons]
    exact (h b a).bind ih

end Checked

namespace Run

variable {α β : Type}

/-- The run ends within the steps it is given, be it in a fault, whoever listens. -/
def Ends (r : Run α) : Prop := ∀ log, (r.exec log).1.Ends

theorem ends_pure (a : α) : (pure a : Run α).Ends := fun _ => Checked.ends_ok a

theorem ends_lift {c : Checked α} (h : c.Ends) : (liftM c : Run α).Ends := fun _ => h

theorem Ends.bind_ensured {r : Run α} {f : α → Run β} {P : α → Prop} (h : r.Ends) (he : r.Ensures P)
    (next : ∀ a, P a → (f a).Ends) : (r >>= f).Ends := by
  intro log
  cases hr : r.exec log with
  | mk result between =>
    cases result with
    | error e =>
      have hends := h log
      rw [hr] at hends
      rw [exec_bind_error hr]
      simpa [Checked.Ends] using hends
    | ok a =>
      rw [exec_bind_ok hr]
      exact next a (he log a between hr) between

theorem Ends.bind {r : Run α} {f : α → Run β} (h : r.Ends) (next : ∀ a, (f a).Ends) :
    (r >>= f).Ends :=
  h.bind_ensured (ensures_gives r) fun a _ => next a

theorem ends_log {level : Level} {line : Unit → Checked String} (h : (line ()).Ends) :
    (Run.log level line).Ends := by
  intro log
  have got : (get : Run Log).exec log = (.ok log, log) := rfl
  rw [Run.log, exec_bind_ok got]
  cases log.admits level with
  | false => exact ends_pure () log
  | true =>
    refine (ends_lift h).bind (fun text => ?_) log
    exact fun _ => Checked.ends_ok ()

theorem ends_foldlM {f : β → α → Run β} (h : ∀ b a, (f b a).Ends) (l : List α) (b : β) :
    (l.foldlM f b).Ends := by
  induction l generalizing b with
  | nil => exact ends_pure b
  | cons a l ih =>
    rw [List.foldlM_cons]
    exact (h b a).bind ih

end Run

end MiddleEnd
