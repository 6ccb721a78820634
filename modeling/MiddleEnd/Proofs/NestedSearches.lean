import MiddleEnd.Proofs.ModuleFacts
import MiddleEnd.Proofs.SearchEnds

/-!
# Searches within searches

A call to a function of the module is evaluated by a solver of its own. The solvers at work form a
stack, the innermost first, and only the innermost one moves. No function has two solvers on the
stack, and each solver leaves less to do with every step, so that together they come to an end as
well: whoever is deeper weighs less, by more than the work that a new solver brings.
-/

namespace MiddleEnd

namespace Propagation

variable {m : Module} {maxDepth : Nat} {order : UserOrder}

/-- What a function that is called starts with. -/
def argValues (g : Func) (args : List LatticeValue) : Dict ValueId LatticeValue :=
  (g.params.zip args).foldl (fun d (v, x) => d.insert v x) ∅

/-- How calls in a function are evaluated, if `search` finds the facts about functions for what is
known about their arguments. -/
def evalCall (m : Module) (maxDepth : Nat) (names : List String) (f : Func)
    (search : Func → List LatticeValue → Run Facts) : CallRule := fun facts i inst => do
  let some target ← callTarget? m maxDepth names f inst | return .varying
  let args ← (inst.args.mapM (facts.value f) : Checked (List LatticeValue))
  if .unknown ∈ args then
    return .unknown
  Run.trace fun _ => do
    let list := String.intercalate ", " (args.map LatticeValue.text)
    return "Evaluating call " ++ (← f.instText i) ++ " with [" ++ list ++ "]"
  let facts ← search target args
  return facts.returns

theorem solveNested_succ (order : UserOrder) (m : Module) (maxDepth depth : Nat)
    (names : List String) (f : Func) (values : Dict ValueId LatticeValue) :
    solveNested order (some m) maxDepth (depth + 1) names f values =
      solve order f (evalCall m maxDepth names f fun g args =>
        solveNested order (some m) maxDepth depth (names ++ [g.name]) g
          (argValues g args)) values := rfl

theorem of_callTarget? {names : List String} {f g : Func} {inst : Inst}
    (h : callTarget? m maxDepth names f inst = .ok (some g)) :
    (∃ id, m.funcs.get? id = some g) ∧ g.name ∉ names ∧ names.length ≤ maxDepth := by
  unfold callTarget? at h
  split at h
  · obtain ⟨id?, -, h⟩ := bind_eq_ok.1 h
    cases id? with
    | none => cases h
    | some id =>
      obtain ⟨target, htarget, h⟩ := bind_eq_ok.1 h
      split at h
      · cases h
      · rename_i hguard
        cases h
        refine ⟨⟨id, ofOption_eq_ok.1 htarget⟩, fun hmem => hguard (.inr (.inl hmem)), ?_⟩
        exact Nat.not_lt.1 fun hlt => hguard (.inl hlt)
  · cases h

theorem evalCall_cases (m : Module) (maxDepth : Nat) (names : List String) (f : Func)
    (facts : Facts) (i : InstId) (inst : Inst) :
    (∀ search search',
      evalCall m maxDepth names f search facts i inst = evalCall m maxDepth names f search'
        facts i inst) ∨
      ∃ g args, callTarget? m maxDepth names f inst = .ok (some g) ∧ inst.args.mapM
        (facts.value f) = .ok args ∧ .unknown ∉ args := by
  unfold evalCall
  cases htarget : callTarget? m maxDepth names f inst with
  | error e => exact .inl fun _ _ => rfl
  | ok target? =>
    cases target? with
    | none => exact .inl fun _ _ => rfl
    | some g =>
      cases hargs : inst.args.mapM (facts.value f) with
      | error e => exact .inl fun _ _ => rfl
      | ok args =>
        by_cases hknown : .unknown ∈ args
        · exact .inl fun _ _ => (if_pos hknown).trans (if_pos hknown).symm
        · exact .inr ⟨g, args, rfl, rfl, hknown⟩

theorem evalCall_search {names : List String} {f g : Func}
    {search : Func → List LatticeValue → Run Facts} {facts : Facts} {i : InstId} {inst : Inst}
    {args : List LatticeValue} {x : LatticeValue}
    (htarget : callTarget? m maxDepth names f inst = .ok (some g))
    (hargs : inst.args.mapM (facts.value f) = .ok args) (known : .unknown ∉ args)
    (h : (evalCall m maxDepth names f search facts i inst).Gives x) :
    ∃ facts', (search g args).Gives facts' ∧ facts'.returns = x := by
  obtain ⟨target?, htarget', h⟩ := h.of_lift_bind
  cases htarget.symm.trans htarget'
  obtain ⟨args', hargs', h⟩ := h.of_lift_bind
  cases hargs.symm.trans hargs'
  rw [if_neg known] at h
  obtain ⟨-, -, h⟩ := h.of_bind
  obtain ⟨facts', hsearch, h⟩ := h.of_bind
  exact ⟨facts', hsearch, h.ensured (Run.ensures_pure rfl)⟩

theorem visit_cases (f : Func) (s : State) (i : InstId) :
    (∀ call call', visit f call s i = visit f call' s i) ∨
      ∃ inst r, f.flow.inst? i = some inst ∧ inst.op = .call ∧ f.flow.result? i = some r ∧
        ∀ call, visit f call s i = (call s.facts i inst >>= fun x => s.update f r x) := by
  unfold visit
  cases hi : f.flow.inst i with
  | error e => exact .inl fun _ _ => rfl
  | ok inst =>
    simp only [Run.lift_ok_bind]
    by_cases hop : inst.op = .call
    · rw [hop]
      cases hr : f.flow.result? i with
      | none => exact .inl fun _ _ => rfl
      | some r => exact .inr ⟨inst, r, DataFlow.inst_eq_ok.1 hi, hop, rfl, fun call => rfl⟩
    · refine .inl fun call call' => ?_
      cases h : inst.op <;> first | rfl | exact absurd h hop

/-- A solver at work: its function, where it stands, and the facts that it had before, the latest
first. -/
structure Solver where
  func : Func
  spot : Spot
  past : List Facts := []

/-- How often one fact after the other differs as the test says, the latest facts first. -/
def times (test : Facts → Facts → Bool) : List Facts → Nat
  | new :: old :: past => (if test old new then 1 else 0) + times test (old :: past)
  | _ => 0

namespace Solver

def start (f : Func) (entry : BlockId) (values : Dict ValueId LatticeValue) : Solver where
  func := f
  spot := .start entry values

def facts (s : Solver) : Facts := s.spot.state.facts

def go (s : Solver) (t : Spot) : Solver := ⟨s.func, t, s.facts :: s.past⟩

/-- How often the value moved. -/
def moves (s : Solver) (v : ValueId) : Nat :=
  times (fun old new => new.known s.func v ≠ old.known s.func v) (s.facts :: s.past)

/-- How often the edge was inserted. -/
def inserts (s : Solver) (e : BlockId × BlockId) : Nat :=
  times (fun old new => old.edges.count e < new.edges.count e) (s.facts :: s.past)

end Solver

/-- The names of the functions under search, the outermost first. -/
def names (stack : List Solver) : List String := (stack.map (·.func.name)).reverse

/-- The innermost solver makes a step by itself, has a call evaluated by a solver of its own, or has
finished, so that the result of the call moves up by what may be returned. -/
inductive Step (m : Module) (maxDepth : Nat) : List Solver → List Solver → Prop where
  | move {s : Solver} {rest : List Solver} {t : Spot}
    (h : Move s.func (evalCall m maxDepth (names (s :: rest)) s.func fun _ _ =>
      throw .unfinished) s.spot t) :
    Step m maxDepth (s :: rest) (s.go t :: rest)
  | call {s : Solver} {rest : List Solver} {i : InstId} {todo : List InstId} {inst : Inst}
      {r : ValueId} {g : Func}
    {args : List LatticeValue} {entry : BlockId} (pick : s.spot.todo.Perm (i :: todo))
    (runs : (s.func.layout.blockOf? i).any s.facts.runs = true)
    (hi : s.func.flow.inst? i = some inst) (op : inst.op = .call)
    (hr : s.func.flow.result? i = some r)
    (target : callTarget? m maxDepth (names (s :: rest)) s.func inst = .ok (some g))
    (hargs : inst.args.mapM (s.facts.value s.func) = .ok args) (known : .unknown ∉ args)
    (he : g.entry = .ok entry) :
    Step m maxDepth (s :: rest)
      (.start g entry (argValues g args) :: { s with spot := ⟨s.spot.state, i :: todo⟩ } :: rest)
  | answer {s u : Solver} {rest : List Solver} {i : InstId} {todo : List InstId} {r : ValueId}
      {state : State}
    (done : s.spot.Finished s.func) (waits : u.spot.todo = i :: todo)
    (hr : u.func.flow.result? i = some r)
    (h : (u.spot.state.update u.func r s.facts.returns).Gives state) :
    Step m maxDepth (s :: u :: rest) (u.go ⟨state, todo⟩ :: rest)

/-- A number of steps. -/
inductive Course (m : Module) (maxDepth : Nat) : Nat → List Solver → List Solver → Prop where
  | none (stack : List Solver) : Course m maxDepth 0 stack stack
  | next {n : Nat} {stack stack' stack'' : List Solver} (h : Course m maxDepth n stack stack')
    (step : Step m maxDepth stack' stack'') : Course m maxDepth (n + 1) stack stack''

theorem Course.trans {n k : Nat} {stack stack' stack'' : List Solver}
    (h : Course m maxDepth n stack stack') (h' : Course m maxDepth k stack' stack'') :
    Course m maxDepth (n + k) stack stack'' := by
  induction h' with
  | none => exact h
  | next _ step ih => exact .next (ih h) step

theorem Course.single {stack stack' : List Solver} (h : Step m maxDepth stack stack') :
    Course m maxDepth 1 stack stack' := .next (.none stack) h

/-- What holds of each solver on the stack. -/
structure Solver.Sound (m : Module) (s : Solver) : Prop where
  home : ∃ id, m.funcs.get? id = some s.func
  charted : Charted s.func s.spot.state
  moved : ∀ v, s.moves v + (s.facts.known s.func v).slack ≤ 2
  inserted : ∀ e, s.inserts e ≤ s.facts.edges.count e
  ahead : ∀ old ∈ s.past, ∀ v, (old.known s.func v).Le (s.facts.known s.func v)

/-- What holds of the stack. -/
structure Sound (m : Module) (maxDepth : Nat) (stack : List Solver) : Prop where
  names : (stack.map (·.func.name)).Nodup
  depth : stack.length ≤ maxDepth + 1
  solvers : ∀ s ∈ stack, s.Sound m

theorem Solver.Sound.start {id : FuncId} {f : Func} (hf : m.funcs.get? id = some f)
    (entry : BlockId) (values : Dict ValueId LatticeValue) :
    (Solver.start f entry values).Sound m where
  home := ⟨id, hf⟩
  charted := start_charted f entry values
  moved v := by
    show 0 + _ ≤ 2
    rw [Nat.zero_add]
    exact LatticeValue.slack_le _
  inserted e := Nat.zero_le _
  ahead old hold := by cases hold

theorem Solver.Sound.go {s : Solver} (h : s.Sound m) {t : Spot}
    (ht : Onward s.func s.spot.state t.state) (hc : Charted s.func t.state) : (s.go t).Sound m where
  home := h.home
  charted := hc
  moved v := by
    have hle := ht.known v
    have hroom := h.moved v
    show (if decide (t.state.facts.known s.func v ≠ s.facts.known s.func v) = true then 1 else 0) +
      s.moves v + (t.state.facts.known s.func v).slack ≤ 2
    by_cases hne : t.state.facts.known s.func v = s.facts.known s.func v
    · rw [hne]
      simpa using hroom
    · have hlt := hle.slack_lt hne
      change _ < (s.facts.known s.func v).slack at hlt
      simp only [hne, not_false_eq_true, decide_true, if_true, ne_eq]
      omega
  inserted e := by
    have hcount := h.inserted e
    show (if decide (s.facts.edges.count e < t.state.facts.edges.count e) = true then 1 else 0) +
      s.inserts e ≤ t.state.facts.edges.count e
    have hle : s.facts.edges.count e ≤ t.state.facts.edges.count e := by
      rcases ht.edges with he | ⟨e', -, he⟩
      · rw [he]
        exact Nat.le_refl _
      · rw [he, List.count_cons]
        exact Nat.le_add_right _ _
    split
    · rename_i hlt
      have := of_decide_eq_true hlt
      omega
    · omega
  ahead old hold v := by
    rcases List.mem_cons.1 hold with rfl | hold
    · exact ht.known v
    · exact (h.ahead old hold v).trans (ht.known v)

theorem Solver.Sound.inserts_le {s : Solver} (h : s.Sound m) (e : BlockId × BlockId) :
    s.inserts e ≤ 1 :=
  Nat.le_trans (h.inserted e) (List.nodup_iff_count.1 h.charted.nodup e)

theorem Solver.Sound.moves_le {s : Solver} (h : s.Sound m) (v : ValueId) : s.moves v ≤ 2 :=
  Nat.le_trans (Nat.le_add_right _ _) (h.moved v)

theorem Sound.length_le {stack : List Solver} (h : Sound m maxDepth stack) :
    stack.length ≤ m.funcs.size := by
  rw [← List.length_map (·.func.name)]
  refine names_length_le h.names fun n hn => ?_
  obtain ⟨s, hs, rfl⟩ := List.mem_map.1 hn
  obtain ⟨id, hid⟩ := (h.solvers s hs).home
  exact mem_names hid

theorem Step.sound (hm : ∀ {id g}, m.funcs.get? id = some g → g.Coherent)
    {stack stack' : List Solver} (h : Step m maxDepth stack stack') (hs : Sound m maxDepth stack) :
    Sound m maxDepth stack' := by
  cases h with
  | @move s rest t h =>
    have hsolver := hs.solvers s List.mem_cons_self
    obtain ⟨id, hid⟩ := hsolver.home
    refine ⟨hs.names, hs.depth, fun u hu => ?_⟩
    rcases List.mem_cons.1 hu with rfl | hu
    · exact hsolver.go (h.onward (hm hid)) (h.charted (hm hid) hsolver.charted)
    · exact hs.solvers u (List.mem_cons_of_mem _ hu)
  | @call s rest i todo inst r g args entry pick runs hi op hr target hargs known he =>
    obtain ⟨⟨id, hid⟩, hnew, hdepth⟩ := of_callTarget? target
    have hsolver := hs.solvers s List.mem_cons_self
    refine ⟨List.nodup_cons.2 ⟨fun hmem => hnew (List.mem_reverse.2 hmem), hs.names⟩, ?_,
      fun u hu => ?_⟩
    · unfold Propagation.names at hdepth
      rw [List.length_reverse, List.length_map] at hdepth
      exact Nat.succ_le_succ hdepth
    · rcases List.mem_cons.1 hu with rfl | hu
      · exact .start hid entry _
      · rcases List.mem_cons.1 hu with rfl | hu
        · exact ⟨hsolver.home, hsolver.charted, hsolver.moved, hsolver.inserted, hsolver.ahead⟩
        · exact hs.solvers u (List.mem_cons_of_mem _ hu)
  | @answer s u rest i todo r state done waits hr h =>
    have hsolver := hs.solvers u (by simp)
    obtain ⟨id, hid⟩ := hsolver.home
    have hshift := h.ensured (update_shifted (hm hid) hr _)
    refine ⟨(List.nodup_cons.1 hs.names).2, Nat.le_of_succ_le hs.depth, fun w hw => ?_⟩
    rcases List.mem_cons.1 hw with rfl | hw
    · exact hsolver.go hshift.onward (hshift.charted hsolver.charted)
    · exact hs.solvers w (List.mem_cons_of_mem _ (List.mem_cons_of_mem _ hw))

/-- What a step weighs that leaves room for `n` solvers further inside, if none of them makes more
than `bound` steps. -/
def weight (bound : Nat) : Nat → Nat
  | 0 => 1
  | n + 1 => (bound + 2) * weight bound n

theorem weight_pos (bound n : Nat) : 0 < weight bound n := by
  induction n with
  | zero => exact Nat.one_pos
  | succ n ih => exact Nat.mul_pos (Nat.succ_pos _) ih

def waiting (bound room : Nat) : List Solver → Nat
  | [] => 0
  | s :: rest => size s.func s.spot * weight bound (room - rest.length) + waiting bound room rest

def load (bound room : Nat) : List Solver → Nat
  | [] => 0
  | s :: rest => (size s.func s.spot + 1) * weight bound (room - rest.length) +
    waiting bound room rest

theorem Step.load_lt (hm : ∀ {id g}, m.funcs.get? id = some g → g.Coherent) {bound : Nat}
    (hb : ∀ {id g}, m.funcs.get? id = some g → searchBound g ≤ bound) {stack stack' : List Solver}
    (h : Step m maxDepth stack stack') (hs : Sound m maxDepth stack) :
    load bound m.funcs.size stack' < load bound m.funcs.size stack := by
  cases h with
  | @move s rest t h =>
    have hsolver := hs.solvers s List.mem_cons_self
    obtain ⟨id, hid⟩ := hsolver.home
    refine Nat.add_lt_add_right (Nat.mul_lt_mul_of_pos_right ?_ (weight_pos _ _)) _
    exact Nat.succ_lt_succ (h.size_lt (hm hid) hsolver.charted)
  | @call s rest i todo inst r g args entry pick runs hi op hr target hargs known he =>
    obtain ⟨⟨id, hid⟩, -⟩ := of_callTarget? target
    have hroom := hs.length_le
    rw [List.length_cons] at hroom
    obtain ⟨k, hk⟩ : ∃ k, m.funcs.size - rest.length = k + 1 :=
      ⟨m.funcs.size - rest.length - 1, by omega⟩
    have hinner : m.funcs.size - (rest.length + 1) = k := by omega
    have hstart : size g (.start entry (argValues g args)) + 1 < bound + 2 := by
      have := size_start_lt g entry (argValues g args)
      have := hb hid
      omega
    have hsize : size s.func ⟨s.spot.state, i :: todo⟩ = size s.func s.spot := by
      unfold size effort
      rw [pick.length_eq]
    have hnew := Nat.mul_lt_mul_of_pos_right hstart (weight_pos bound k)
    show (size g (.start entry (argValues g args)) + 1) *
      weight bound (m.funcs.size - (rest.length + 1)) + (size s.func ⟨s.spot.state, i :: todo⟩ *
      weight bound (m.funcs.size - rest.length) + _) <
        (size s.func s.spot + 1) * weight bound (m.funcs.size - rest.length) + _
    rw [hinner, hk, hsize, Nat.succ_mul (size s.func s.spot), weight]
    omega
  | @answer s u rest i todo r state done waits hr h =>
    have hsolver := hs.solvers u (by simp)
    obtain ⟨id, hid⟩ := hsolver.home
    have hshift := h.ensured (update_shifted (hm hid) hr _)
    have hless : size u.func ⟨state, todo⟩ + 1 ≤ size u.func u.spot :=
      Nat.add_lt_add_of_lt_of_le (hshift.effort_lt (.of_eq waits))
        (Nat.mul_le_mul_left _ (unmarked_sublist hshift.onward.marks).length_le)
    have hmul := Nat.mul_le_mul_right (weight bound (m.funcs.size - rest.length)) hless
    have hanswer : 0 < (size s.func s.spot + 1) * weight bound (m.funcs.size - (rest.length + 1)) :=
      Nat.mul_pos (Nat.succ_pos _) (weight_pos _ _)
    show (size u.func ⟨state, todo⟩ + 1) * weight bound (m.funcs.size - rest.length) + _ <
      (size s.func s.spot + 1) * weight bound (m.funcs.size - (rest.length + 1)) +
        (size u.func u.spot * weight bound (m.funcs.size - rest.length) + _)
    omega

theorem Course.sound (hm : ∀ {id g}, m.funcs.get? id = some g → g.Coherent) {n : Nat}
    {stack stack' : List Solver} (h : Course m maxDepth n stack stack')
    (hs : Sound m maxDepth stack) : Sound m maxDepth stack' := by
  induction h with
  | none => exact hs
  | next _ step ih => exact step.sound hm (ih hs)

theorem Course.load_le (hm : ∀ {id g}, m.funcs.get? id = some g → g.Coherent) {bound : Nat}
    (hb : ∀ {id g}, m.funcs.get? id = some g → searchBound g ≤ bound) {n : Nat}
    {stack stack' : List Solver} (h : Course m maxDepth n stack stack')
    (hs : Sound m maxDepth stack) :
    n + load bound m.funcs.size stack' ≤ load bound m.funcs.size stack := by
  induction h with
  | none => exact Nat.le_of_eq (Nat.zero_add _)
  | next h step ih =>
    have := step.load_lt hm hb (h.sound hm hs)
    have := ih hs
    omega

theorem names_cons (s : Solver) (rest : List Solver) :
    names (s :: rest) = names rest ++ [s.func.name] := by
  simp [names]

/-- A solver that has found the facts. -/
structure Solver.Found (s : Solver) (f : Func) (facts : Facts) : Prop where
  func : s.func = f
  finished : s.spot.Finished f
  facts : s.facts = facts

/-- What a search for facts about a function does on top of the stack. -/
def Solves (m : Module) (maxDepth : Nat) (rest : List Solver) (f : Func)
    (values : Dict ValueId LatticeValue) (facts : Facts) : Prop :=
  ∃ entry n s, f.entry = .ok entry ∧
    Course m maxDepth n (.start f entry values :: rest) (s :: rest) ∧ s.Found f facts

theorem Move.course {rest : List Solver} {f : Func} {search : Func → List LatticeValue → Run Facts}
    (hsearch : ∀ {u : Solver} {g args facts}, u.func = f → (∃ id, m.funcs.get? id = some g) →
      (search g args).Gives facts → Solves m maxDepth (u :: rest) g
        (argValues g args) facts) {t t' : Spot}
    (h : Move f (evalCall m maxDepth (names rest ++ [f.name]) f search) t t') (past : List Facts) :
    ∃ n past', Course m maxDepth n (⟨f, t, past⟩ :: rest) (⟨f, t', past'⟩ :: rest) := by
  have hnames := names_cons ⟨f, t, past⟩ rest
  have hmove : Move f (evalCall m maxDepth (names rest ++ [f.name]) f fun _ _ =>
      throw .unfinished) t t' →
      ∃ n past', Course m maxDepth n (⟨f, t, past⟩ :: rest) (⟨f, t', past'⟩ :: rest) := fun h => by
    rw [← hnames] at h
    exact ⟨1, _, .single (.move (s := ⟨f, t, past⟩) h)⟩
  cases h with
  | resolve hedges hvalues h more => exact hmove (.resolve hedges hvalues h more)
  | turn h =>
    cases h with
    | skip pick idle => exact hmove (.turn (.skip pick idle))
    | start pick hxs => exact hmove (.turn (.start pick hxs))
    | drop pick old => exact hmove (.turn (.drop pick old))
    | take pick new hxs => exact hmove (.turn (.take pick new hxs))
    | users pick hus => exact hmove (.turn (.users pick hus))
    | @look s s' todo todo' i pick runs h =>
      rcases visit_cases f s i with hsame | ⟨inst, r, hi, op, hr, hvisit⟩
      · exact hmove (.turn (.look pick runs (hsame _ _ ▸ h)))
      rcases evalCall_cases m maxDepth (names rest ++ [f.name]) f s.facts i inst with
        hsame | ⟨g, args, target, hargs, known⟩
      · refine hmove (.turn (.look pick runs ?_))
        rw [hvisit, hsame _ search, ← hvisit]
        exact h
      · -- The call is evaluated by a solver of its own.
        rw [hvisit] at h
        obtain ⟨x, hx, hupdate⟩ := h.of_bind
        obtain ⟨facts, hfacts, rfl⟩ := evalCall_search target hargs known hx
        obtain ⟨entry, n, u, he, hcourse, hfound⟩ :=
          hsearch (u := ⟨f, ⟨s, i :: todo'⟩, past⟩) rfl (of_callTarget? target).1 hfacts
        have hcall : Step m maxDepth (⟨f, ⟨s, todo⟩, past⟩ :: rest) _ :=
          .call pick runs hi op hr (hnames ▸ target) hargs known he
        have hanswer : Step m maxDepth (u :: ⟨f, ⟨s, i :: todo'⟩, past⟩ :: rest)
            (⟨f, ⟨s', todo'⟩, s.facts :: past⟩ :: rest) :=
          .answer (u := ⟨f, ⟨s, i :: todo'⟩, past⟩) (hfound.func ▸ hfound.finished) rfl hr
            (hfound.facts ▸ hupdate)
        exact ⟨_, _, ((Course.single hcall).trans hcourse).next hanswer⟩

theorem Moves.course {rest : List Solver} {f : Func} {search : Func → List LatticeValue → Run Facts}
    (hsearch : ∀ {u : Solver} {g args facts}, u.func = f → (∃ id, m.funcs.get? id = some g) →
      (search g args).Gives facts → Solves m maxDepth (u :: rest) g
        (argValues g args) facts) {t t' : Spot}
    (h : Moves f (evalCall m maxDepth (names rest ++ [f.name]) f search) t t') (past : List Facts) :
    ∃ n past', Course m maxDepth n (⟨f, t, past⟩ :: rest) (⟨f, t', past'⟩ :: rest) := by
  induction h with
  | refl => exact ⟨0, past, .none _⟩
  | tail _ h ih =>
    obtain ⟨n, past₁, hn⟩ := ih
    obtain ⟨k, past₂, hk⟩ := h.course hsearch past₁
    exact ⟨n + k, past₂, hn.trans hk⟩

theorem solveNested_solves (hm : ∀ {id g}, m.funcs.get? id = some g → g.Coherent)
    (maxDepth depth : Nat) (rest : List Solver) {id : FuncId} {f : Func}
    (hf : m.funcs.get? id = some f) (values : Dict ValueId LatticeValue) :
    (solveNested order (some m) maxDepth depth (names rest ++ [f.name]) f values).Ensures
      (Solves m maxDepth rest f values) := by
  induction depth generalizing rest id f values with
  | zero => exact Run.ensures_throw _
  | succ depth ih =>
    rw [solveNested_succ]
    have hsearch : ∀ {u : Solver} {g args facts}, u.func = f → (∃ id, m.funcs.get? id = some g) →
        (solveNested order (some m) maxDepth depth (names rest ++ [f.name] ++ [g.name]) g
        (argValues g args)).Gives facts →
        Solves m maxDepth (u :: rest) g (argValues g args) facts := by
      rintro u g args facts rfl ⟨id', hg⟩ hgives
      rw [← names_cons] at hgives
      exact hgives.ensured (ih _ hg _)
    refine (solve_moves (hm hf) values).mono ?_
    rintro facts ⟨entry, t, he, hmoves, hfin, hfacts⟩
    obtain ⟨n, past, hn⟩ := Moves.course hsearch hmoves []
    exact ⟨entry, n, ⟨f, t, past⟩, he, hn, rfl, hfin, hfacts⟩

theorem callTarget?_ends (m : Module) (maxDepth : Nat) (names : List String) (f : Func)
    (inst : Inst) :
    (callTarget? m maxDepth names f inst).Ends := by
  unfold callTarget?
  split
  · refine Checked.Ends.bind ?_ fun id? => ?_
    · exact (Checked.ends_ofOption (by decide) _).bind fun _ => Checked.ends_ok _
    · cases id? with
      | none => exact Checked.ends_ok _
      | some id =>
        refine (Checked.ends_ofOption (by decide) _).bind fun target => ?_
        split <;> exact Checked.ends_ok _
  · exact Checked.ends_ok _

theorem solveNested_ends (hm : ∀ {id g}, m.funcs.get? id = some g → g.Coherent)
    (maxDepth : Nat) {depth : Nat} {names : List String} {id : FuncId} {f : Func}
    (hf : m.funcs.get? id = some f) (hn : names.Nodup)
    (hsub : ∀ n ∈ names, n ∈ m.funcs.values.map (·.name))
    (hdepth : m.funcs.size + 1 ≤ depth + names.length) (values : Dict ValueId LatticeValue) :
    (solveNested order (some m) maxDepth depth names f values).Ends := by
  induction depth generalizing names id f values with
  | zero =>
    have := names_length_le hn hsub
    omega
  | succ depth ih =>
    rw [solveNested_succ]
    refine solve_ends (hm hf) (fun facts i inst => ?_) values
    refine (Run.ends_lift (callTarget?_ends m maxDepth names f inst)).bind_ensured
      (Run.ensures_lift fun target? h => h) fun target? htarget => ?_
    cases target? with
    | none => exact Run.ends_pure _
    | some g =>
      obtain ⟨⟨id', hg⟩, hnew, -⟩ := of_callTarget? htarget
      refine (Run.ends_lift (Checked.ends_mapM (facts.value_ends f) _)).bind fun args => ?_
      dsimp only
      split
      · exact Run.ends_pure _
      refine (Run.ends_log ?_).bind fun _ => Run.Ends.bind ?_ fun facts' => Run.ends_pure _
      · exact (f.instText_ends i).bind fun _ => Checked.ends_ok _
      · refine ih hg (nodup_names_append hn hnew) (mem_names_append hsub hg) ?_ _
        rw [List.length_append, List.length_singleton]
        omega

end Propagation

open Propagation

/-- More than the steps of one search in any function of the module. -/
def Module.searchBound (m : Module) : Nat :=
  (m.funcs.values.map Propagation.searchBound).foldr max 0

/-- More than the steps of all searches that nest into one of the module. -/
def Module.stepBound (m : Module) : Nat := weight m.searchBound (m.funcs.size + 1)

theorem Module.searchBound_le {m : Module} {id : FuncId} {f : Func}
    (hf : m.funcs.get? id = some f) :
    Propagation.searchBound f ≤ m.searchBound := by
  have hmax : ∀ {l : List Nat} {n : Nat}, n ∈ l → n ≤ l.foldr max 0 := by
    intro l n hn
    induction l with
    | nil => cases hn
    | cons k l ih =>
      rcases List.mem_cons.1 hn with rfl | hn
      · exact Nat.le_max_left _ _
      · exact Nat.le_trans (ih hn) (Nat.le_max_right _ _)
  exact hmax (List.mem_map.2 ⟨f, List.mem_map.2 ⟨(id, f), Table.mem_toList.2 hf, rfl⟩, rfl⟩)

theorem Propagation.load_start_le {m : Module} {id : FuncId} {f : Func}
    (hf : m.funcs.get? id = some f) (entry : BlockId) (values : Dict ValueId LatticeValue) :
    load m.searchBound m.funcs.size [.start f entry values] ≤ m.stepBound := by
  have hsize : size f (.start entry values) + 1 ≤ m.searchBound + 2 := by
    have := size_start_lt f entry values
    have := Module.searchBound_le hf
    omega
  exact Nat.mul_le_mul_right _ hsize

/-- The search for facts about a function of a module of coherent functions terminates, however deep
calls may be evaluated, in whatever order users are gone through and whoever listens: it never runs
out of steps, and it finds facts if the functions can be searched. What it does is a course of
solvers that call each other. Such a course has a bounded number of steps, in whatever order the
solvers take their work; at any point of it no function has two solvers on the stack, and in no
solver has a value moved more than twice, or other than up, or an edge been inserted more than
once. -/
theorem Module.facts_terminate {m : Module}
    (hm : ∀ {id g}, m.funcs.get? id = some g → g.Coherent) {id : FuncId} {f : Func}
    (hf : m.funcs.get? id = some f) (maxDepth : Nat) (order : UserOrder) :
    (f.facts (some m) maxDepth order).Ends ∧
      (m.Solvable → ∃ facts, (f.facts (some m) maxDepth order).outcome = .ok facts) ∧
      (f.facts (some m) maxDepth order).Ensures
        (Solves m maxDepth [] f (f.params.foldl (fun d v => d.insert v .varying) ∅)) ∧
      ∀ {entry values n stack}, Course m maxDepth n [.start f entry values] stack →
        n ≤ m.stepBound ∧ (stack.map (·.func.name)).Nodup ∧ stack.length ≤ maxDepth + 1 ∧
          ∀ s ∈ stack, (∀ v, s.moves v ≤ 2) ∧
            (∀ old ∈ s.past, ∀ v, (old.known s.func v).Le (s.facts.known s.func v)) ∧
            ∀ e, s.inserts e ≤ 1 := by
  have hname : ∀ n ∈ [] ++ [f.name], n ∈ m.funcs.values.map (·.name) :=
    mem_names_append (by simp) hf
  refine ⟨solveNested_ends hm maxDepth hf (by simp) hname (by simp) _, fun hs => ?_, ?_, ?_⟩
  · obtain ⟨facts, hfacts, -⟩ :=
      (Module.facts_closed (fun hg => (hs hg).searchable) hf maxDepth order).outcome
    exact ⟨facts, hfacts⟩
  · exact solveNested_solves hm maxDepth _ [] hf _
  · intro entry values n stack h
    have hstart : Sound m maxDepth [.start f entry values] := by
      refine ⟨by simp, by simp, fun s hs => ?_⟩
      rw [List.mem_singleton.1 hs]
      exact .start hf entry values
    have hsound := h.sound hm hstart
    have hload := h.load_le hm Module.searchBound_le hstart
    refine ⟨Nat.le_trans (Nat.le_of_add_right_le hload) (load_start_le hf entry values),
      hsound.names, hsound.depth, ?_⟩
    intro s hs
    have hs := hsound.solvers s hs
    exact ⟨hs.moves_le, hs.ahead, hs.inserts_le⟩

/-- Two functions that call each other. -/
def evenOdd : Checked Module :=
  let body (other : String) (onZero : Bool) : List Edit :=
    [.block (some "entry"), .block (some "zero"), .block (some "more"),
      .declare other ⟨[.int 32], some (.int 1)⟩, .const (.int32 0), .const (.int32 1),
      .const (.ofBool onZero), .goTo (.append ⟨0⟩), .insert (.binary .eq ⟨0⟩ ⟨1⟩) (.int 1),
      .insert (.branch .brCond ⟨4⟩ ⟨1⟩ ⟨2⟩) .void, .goTo (.append ⟨1⟩),
      .insert (.unary .retValue ⟨3⟩) .void, .goTo (.append ⟨2⟩),
      .insert (.binary .sub ⟨0⟩ ⟨2⟩) (.int 32), .insert (.call .call ⟨0⟩ [⟨5⟩]) (.int 1),
      .insert (.unary .retValue ⟨6⟩) .void]
  Module.build
    [("even", ⟨[.int 32], some (.int 1)⟩, body "odd" true),
    ("odd", ⟨[.int 32], some (.int 1)⟩, body "even" false)]

theorem evenOdd_terminates : ∃ m f facts, evenOdd = .ok m ∧ m.funcs.get? ⟨0⟩ = some f ∧ m.Solvable ∧
    (f.facts (some m) 16).Ends ∧ (f.facts (some m) 16).outcome = .ok facts ∧
    facts.edges.length = 2 ∧ Solves m 16 [] f
      (f.params.foldl (fun d v => d.insert v .varying) ∅) facts := by
  obtain ⟨m, hm, h⟩ := exists_of_any (x := evenOdd) (p := fun m =>
    m.funcs.values.all (·.isSolvableIn m) && (m.funcs.get? ⟨0⟩).any fun f =>
      (f.facts (some m) 16).outcome.toOption.any (·.edges.length = 2)) (by decide +kernel)
  rw [Bool.and_eq_true] at h
  cases hf : m.funcs.get? ⟨0⟩ with
  | none =>
    rw [hf] at h
    cases h.2
  | some f =>
    rw [hf] at h
    obtain ⟨facts, hfacts, hlength⟩ := exists_of_any h.2
    have hsolv : m.Solvable := Module.solvable_of_all (by decide) hm h.1
    obtain ⟨hends, -, hcourse, -⟩ :=
      Module.facts_terminate (Module.build_coherent (by decide) hm) hf 16 .ascending
    exact ⟨m, f, facts, hm, hf, hsolv, hends, hfacts, of_decide_eq_true hlength,
      hcourse.of_outcome hfacts⟩

end MiddleEnd
