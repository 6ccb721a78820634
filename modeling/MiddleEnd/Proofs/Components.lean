import MiddleEnd.Transform.Components
import MiddleEnd.Proofs.Dominance
import MiddleEnd.Proofs.Placement
import MiddleEnd.Proofs.UseLists

/-!
# Strongly connected components

The components are the classes of instructions that depend on each other, and each comes after all
others that its instructions depend on. The search has a path of instructions it is still looking
at. Of those on the stack each leads to all that came later and back to the path; what leads to none
of those below it on the stack completes a class, since by then all that the class leads to was met.
-/

namespace MiddleEnd

/-- The lists part nodes into classes of those that lead to each other, and edges lead within a
class or to one that comes earlier. -/
structure Condensed {α : Type} (E : α → α → Prop) (classes : List (List α)) : Prop where
  nodup : classes.flatten.Nodup
  nonempty : ∀ c ∈ classes, c ≠ []
  connected : ∀ c ∈ classes, ∀ i ∈ c, ∀ j ∈ c, Connects E i j
  ordered : ∀ pre c post, classes = pre ++ c :: post → ∀ i ∈ c, ∀ j, E i j → j ∈ pre.flatten ∨ j ∈ c

namespace Condensed

variable {α : Type} {E : α → α → Prop} {classes pre post : List (List α)} {c : List α} {i j : α}

theorem nil (E : α → α → Prop) : Condensed E [] where
  nodup := List.nodup_nil
  nonempty c hc := absurd hc List.not_mem_nil
  connected c hc := absurd hc List.not_mem_nil
  ordered pre c post he := by
    have := congrArg List.length he
    simp at this

theorem snoc (h : Condensed E classes) (hne : c ≠ []) (hc : c.Nodup)
    (hnew : ∀ i ∈ c, i ∉ classes.flatten) (conn : ∀ i ∈ c, ∀ j ∈ c, Connects E i j)
    (out : ∀ i ∈ c, ∀ j, E i j → j ∈ classes.flatten ∨ j ∈ c) :
    Condensed E (classes ++ [c]) where
  nodup := by
    rw [List.flatten_append, List.flatten_singleton]
    exact List.nodup_append.2 ⟨h.nodup, hc, fun i hi j hj hij => hnew j hj (hij ▸ hi)⟩
  nonempty d hd := by
    rcases List.mem_append.1 hd with hd | hd
    · exact h.nonempty d hd
    · exact List.mem_singleton.1 hd ▸ hne
  connected d hd := by
    rcases List.mem_append.1 hd with hd | hd
    · exact h.connected d hd
    · exact List.mem_singleton.1 hd ▸ conn
  ordered pre d post he := by
    rcases List.eq_nil_or_concat post with rfl | ⟨post, last, rfl⟩
    · obtain ⟨rfl, hd⟩ := List.append_inj' he rfl
      obtain rfl := List.singleton_inj.1 hd
      exact out
    · have he' : classes ++ [c] = (pre ++ d :: post) ++ [last] := by
        rw [he, List.append_assoc, List.cons_append, List.concat_eq_append]
      exact h.ordered pre d post (List.append_inj' he' rfl).1

theorem closed (h : Condensed E classes) (he : classes = pre ++ post)
    (hi : i ∈ pre.flatten) (e : E i j) :
    j ∈ pre.flatten := by
  obtain ⟨c, hc, hic⟩ := List.mem_flatten.1 hi
  obtain ⟨before, after, rfl⟩ := List.append_of_mem hc
  rw [List.append_assoc, List.cons_append] at he
  rw [List.flatten_append, List.flatten_cons]
  rcases h.ordered before c (after ++ post) he i hic j e with hj | hj
  · exact List.mem_append_left _ hj
  · exact List.mem_append_right _ (List.mem_append_left _ hj)

theorem reaches (h : Condensed E classes) (he : classes = pre ++ post) (hi : i ∈ pre.flatten)
    (conn : Connects E i j) : j ∈ pre.flatten := by
  obtain ⟨p, hp⟩ := conn
  induction hp with
  | single => exact hi
  | cons e _ ih => exact ih (h.closed he hi e)

theorem reaches_earlier (h : Condensed E classes) (he : classes = pre ++ c :: post) (hi : i ∈ c)
    (conn : Connects E i j) : j ∈ pre.flatten ∨ j ∈ c := by
  have he' : classes = (pre ++ [c]) ++ post := by rw [he, List.append_assoc, List.singleton_append]
  have hj := h.reaches he' (List.mem_flatten.2 ⟨c, by simp, hi⟩) conn
  rwa [List.flatten_append, List.flatten_singleton, List.mem_append] at hj

theorem mem_iff (h : Condensed E classes) (hc : c ∈ classes) (hi : i ∈ c) :
    j ∈ c ↔ Connects E i j ∧ Connects E j i := by
  constructor
  · intro hj
    exact ⟨h.connected c hc i hi j hj, h.connected c hc j hj i hi⟩
  · rintro ⟨hij, hji⟩
    obtain ⟨pre, post, rfl⟩ := List.append_of_mem hc
    refine (h.reaches_earlier rfl hi hij).resolve_left fun hj => ?_
    -- what an earlier class leads to is in earlier classes, and no node is in two
    have hback : i ∈ pre.flatten := h.reaches rfl hj hji
    have hn := h.nodup
    rw [List.flatten_append, List.flatten_cons] at hn
    exact (List.nodup_append.1 hn).2.2 i hback i (List.mem_append_left _ hi) rfl

end Condensed

theorem Dict.length_insert {κ α : Type} [DecidableEq κ] {d : Dict κ α} {k : κ} (a : α)
    (h : d.get? k = none) :
    (d.insert k a).entries.length = d.entries.length + 1 := by
  obtain ⟨entries⟩ := d
  change Dict.find k entries = none at h
  change (Dict.write k a entries).length = entries.length + 1
  induction entries with
  | nil => rfl
  | cons p entries ih =>
    obtain ⟨k', a'⟩ := p
    unfold Dict.find at h
    split at h
    · cases h
    · rename_i hne
      unfold Dict.write
      rw [if_neg hne, List.length_cons, List.length_cons, ih h]

namespace Components

open Search (Edge Within)

namespace State

def Met (s : State) (i : InstId) : Prop := (s.numbers.get? i).isSome = true

instance (s : State) (i : InstId) : Decidable (s.Met i) := inferInstanceAs (Decidable (_ = true))

def number (s : State) (i : InstId) : Nat := (s.numbers.get? i).getD 0

def Later (s c : State) : Prop := ∀ i n, s.numbers.get? i = some n → c.numbers.get? i = some n

theorem met_iff {s : State} {i : InstId} : s.Met i ↔ ∃ n, s.numbers.get? i = some n :=
  Option.isSome_iff_exists

theorem get?_of_not_met {s : State} {i : InstId} (h : ¬ s.Met i) : s.numbers.get? i = none := by
  simpa [Met] using h

theorem number_of_get? {s : State} {i : InstId} {n : Nat} (h : s.numbers.get? i = some n) :
    s.number i = n := by
  unfold number
  rw [h]
  rfl

section Later

variable {s c d : State} {i j : InstId}

theorem Later.refl (s : State) : s.Later s := fun _ _ h => h

theorem Later.trans (h : s.Later c) (h' : c.Later d) : s.Later d := fun i n hn => h' i n (h i n hn)

theorem Later.met (h : s.Later c) (hi : s.Met i) : c.Met i := by
  obtain ⟨n, hn⟩ := met_iff.1 hi
  exact met_iff.2 ⟨n, h i n hn⟩

theorem Later.number (h : s.Later c) (hi : s.Met i) : c.number i = s.number i := by
  obtain ⟨n, hn⟩ := met_iff.1 hi
  rw [number_of_get? hn, number_of_get? (h i n hn)]

theorem get?_meet : (s.meet i).numbers.get? j = if i = j then some s.next else s.numbers.get? j :=
  Dict.get?_insert ..

theorem meet_later (h : ¬ s.Met i) : s.Later (s.meet i) := by
  intro j n hn
  rw [get?_meet]
  by_cases hij : i = j
  · subst hij
    rw [get?_of_not_met h] at hn
    cases hn
  · rw [if_neg hij, hn]

theorem next_meet (h : ¬ s.Met i) : (s.meet i).next = s.next + 1 :=
  Dict.length_insert _ (get?_of_not_met h)

theorem met_meet : (s.meet i).Met j ↔ j = i ∨ s.Met j := by
  unfold Met
  rw [get?_meet]
  by_cases hij : i = j
  · simp [hij]
  · simp [hij, Ne.symm hij]

theorem number_meet_self : (s.meet i).number i = s.next :=
  number_of_get? (by rw [get?_meet, if_pos rfl])

end Later

/-! The instructions that were not met yet bound the depth of the search. -/

def unmet (U : List InstId) (s : State) : List InstId := U.filter fun i => ¬ s.Met i

theorem unmet_le {U : List InstId} {s c : State} (h : s.Later c) :
    (unmet U c).length ≤ (unmet U s).length := by
  have hsub : unmet U c = (unmet U s).filter fun i => ¬ c.Met i := by
    unfold unmet
    rw [List.filter_filter]
    refine List.filter_congr fun i _ => ?_
    by_cases hi : c.Met i
    · simp [hi]
    · have : ¬ s.Met i := fun hs => hi (h.met hs)
      simp [hi, this]
  rw [hsub]
  exact List.length_filter_le _ _

theorem unmet_lt {U : List InstId} {s : State} {i : InstId} (hi : i ∈ U) (hn : ¬ s.Met i) :
    (unmet U (s.meet i)).length < (unmet U s).length := by
  have hsub : unmet U (s.meet i) = (unmet U s).filter (· ≠ i) := by
    unfold unmet
    rw [List.filter_filter]
    refine List.filter_congr fun j _ => ?_
    rw [Bool.eq_iff_iff]
    simp [met_meet]
  rw [hsub]
  exact List.length_filter_lt_length_iff_exists.2 ⟨i,
    List.mem_filter.2 ⟨hi, by simpa using hn⟩, by simp⟩

end State

open State

/-- The number is that of an instruction on the stack that another one leads to, or the next one. -/
def LeadsTo (operands : InstId → Checked (List InstId)) (s : State) (i : InstId) (low : Nat) :
    Prop :=
  low = s.next ∨ ∃ y ∈ s.stack, s.number y = low ∧ Connects (Edge operands) i y

/-- What holds all the time during a search that looks at the instructions of a path. -/
structure Sound (operands : InstId → Checked (List InstId)) (U path : List InstId) (s : State) :
    Prop where
  known : ∀ i, s.Met i → i ∈ U
  below : ∀ i, s.Met i → s.number i < s.next
  split : ∀ i, s.Met i ↔ i ∈ s.stack ∨ i ∈ s.components.flatten
  apart : ∀ i ∈ s.stack, i ∉ s.components.flatten
  active : ∀ p ∈ path, p ∈ s.stack
  descending : s.stack.Pairwise fun i j => s.number j < s.number i
  upward : s.stack.Pairwise fun i j => Connects (Edge operands) j i
  downward : ∀ i ∈ s.stack, ∃ p ∈ path, Connects (Edge operands) i p
  looked : ∀ i ∈ s.stack, i ∉ path → ∀ j, Edge operands i j → s.Met j
  condensed : Condensed (Edge operands) s.components

/-- What a visit of an instruction does, which leads to a number. -/
structure Visited (operands : InstId → Checked (List InstId)) (s c : State) (i : InstId)
    (low : Nat) : Prop where
  later : s.Later c
  met : c.Met i
  low_le : low ≤ s.next
  leads : LeadsTo operands s i low
  stack : ∃ new, c.stack = new ++ s.stack ∧ ∀ x ∈ new, ∀ y ∈ s.stack, Edge operands x y →
    low ≤ s.number y

/-- What holds while the operands of an instruction are looked at, some of which were looked at
already. -/
structure Looking (operands : InstId → Checked (List InstId)) (U path : List InstId)
    (s : State) (i : InstId) (past : List InstId) (c : State) (low : Nat) : Prop where
  sound : Sound operands U (i :: path) c
  later : s.Later c
  number : c.numbers.get? i = some s.next
  low_le : low ≤ s.next
  leads : LeadsTo operands s i low
  stack : ∃ new, c.stack = new ++ i :: s.stack ∧ ∀ x ∈ new, ∀ y ∈ s.stack, Edge operands x y →
    low ≤ s.number y
  met : ∀ j ∈ past, c.Met j ∧ (j ∈ s.stack → low ≤ s.number j)

section Visit

variable {operands : InstId → Checked (List InstId)} {U path past : List InstId} {s c d : State}
  {i j : InstId} {low n : Nat}

theorem Sound.stack_met (h : Sound operands U path s) (hi : i ∈ s.stack) : s.Met i :=
  (h.split i).2 (.inl hi)

theorem Sound.stack_nodup (h : Sound operands U path s) : s.stack.Nodup := by
  apply h.descending.imp
  intro a b hlt heq
  rw [heq] at hlt
  exact Nat.lt_irrefl _ hlt

/-- An instruction that the whole path leads to is met. -/
theorem Sound.meet (h : Sound operands U path s) (hi : i ∈ U) (hn : ¬ s.Met i)
    (hp : ∀ p ∈ path, Connects (Edge operands) p i) : Sound operands U (i :: path) (s.meet i) where
  known j hj := by
    rcases met_meet.1 hj with rfl | hj
    · exact hi
    · exact h.known j hj
  below j hj := by
    rw [next_meet hn]
    rcases met_meet.1 hj with rfl | hj
    · rw [number_meet_self]
      omega
    · have := h.below j hj
      rw [(meet_later hn).number hj]
      omega
  split j := by
    rw [met_meet, h.split]
    change _ ↔ j ∈ i :: s.stack ∨ j ∈ s.components.flatten
    rw [List.mem_cons, or_assoc]
  apart j hj := by
    rcases List.mem_cons.1 hj with rfl | hj
    · exact fun hm => hn ((h.split j).2 (.inr hm))
    · exact h.apart j hj
  active p hpath := by
    rcases List.mem_cons.1 hpath with rfl | hpath
    · exact List.mem_cons_self
    · exact List.mem_cons_of_mem _ (h.active p hpath)
  descending := by
    refine List.pairwise_cons.2 ⟨fun j hj => ?_, ?_⟩
    · rw [number_meet_self, (meet_later hn).number (h.stack_met hj)]
      exact h.below j (h.stack_met hj)
    · refine h.descending.imp_of_mem fun {a b} ha hb hlt => ?_
      rwa [(meet_later hn).number (h.stack_met ha), (meet_later hn).number (h.stack_met hb)]
  upward := by
    refine List.pairwise_cons.2 ⟨fun j hj => ?_, h.upward⟩
    -- by way of the path
    obtain ⟨p, hpath, hjp⟩ := h.downward j hj
    exact Connects.trans hjp (hp p hpath)
  downward j hj := by
    rcases List.mem_cons.1 hj with rfl | hj
    · exact ⟨j, List.mem_cons_self, .refl _ j⟩
    · obtain ⟨p, hpath, hjp⟩ := h.downward j hj
      exact ⟨p, List.mem_cons_of_mem _ hpath, hjp⟩
  looked j hj hnp k e := by
    rcases List.mem_cons.1 hj with rfl | hj
    · exact absurd List.mem_cons_self hnp
    · exact (meet_later hn).met (h.looked j hj (fun hm => hnp (List.mem_cons_of_mem _ hm)) k e)
  condensed := h.condensed

theorem Looking.start (h : Sound operands U path s) (hi : i ∈ U) (hn : ¬ s.Met i)
    (hp : ∀ p ∈ path, Connects (Edge operands) p i) :
    Looking operands U path s i [] (s.meet i) s.next where
  sound := h.meet hi hn hp
  later := meet_later hn
  number := by rw [get?_meet, if_pos rfl]
  low_le := Nat.le_refl _
  leads := .inl rfl
  stack := ⟨[], rfl, fun _ hx => absurd hx List.not_mem_nil⟩
  met _ hj := absurd hj List.not_mem_nil

/-! While operands are looked at, what is on the stack above the instruction came after it. -/

theorem Looking.number_eq (h : Looking operands U path s i past c low) : c.number i = s.next :=
  number_of_get? h.number

theorem Looking.leads_min (h : Looking operands U path s i past c low)
    (hs : Sound operands U path s) (hj : j ∈ c.stack) (conn : Connects (Edge operands) i j) :
    LeadsTo operands s i (min low (c.number j)) := by
  obtain ⟨new, hstack, -⟩ := h.stack
  have hdesc := h.sound.descending
  rw [hstack] at hj hdesc
  have hle := h.low_le
  have hi := h.number_eq
  rcases List.mem_append.1 hj with hj | hj
  · have hlt := (List.pairwise_append.1 hdesc).2.2 j hj i List.mem_cons_self
    rw [Nat.min_eq_left (by omega)]
    exact h.leads
  rcases List.mem_cons.1 hj with rfl | hj
  · rw [Nat.min_eq_left (by omega)]
    exact h.leads
  · rcases Nat.le_total low (c.number j) with hlow | hlow
    · rw [Nat.min_eq_left hlow]
      exact h.leads
    · rw [Nat.min_eq_right hlow, h.later.number (hs.stack_met hj)]
      exact .inr ⟨j, hj, rfl, conn⟩

theorem Looking.look_met (h : Looking operands U path s i past c low) (hs : Sound operands U path s)
    (e : Edge operands i j) (hj : c.numbers.get? j = some n) :
    Looking operands U path s i (past ++ [j]) c (if j ∈ c.stack then min low n else low) := by
  have hle : (if j ∈ c.stack then min low n else low) ≤ low := by
    split <;> omega
  have hnum := number_of_get? hj
  obtain ⟨new, hstack, hout⟩ := h.stack
  refine ⟨h.sound, h.later, h.number, Nat.le_trans hle h.low_le, ?_, ⟨new, hstack, ?_⟩, ?_⟩
  · split
    · rename_i hm
      have := h.leads_min hs hm (Connects.step (.refl _ i) e)
      rwa [hnum] at this
    · exact h.leads
  · intro x hx y hy hxy
    exact Nat.le_trans hle (hout x hx y hy hxy)
  · intro k hk
    rcases List.mem_append.1 hk with hk | hk
    · obtain ⟨hm, hlow⟩ := h.met k hk
      exact ⟨hm, fun hks => Nat.le_trans hle (hlow hks)⟩
    · obtain rfl := List.mem_singleton.1 hk
      refine ⟨met_iff.2 ⟨n, hj⟩, fun hks => ?_⟩
      have hm : k ∈ c.stack := by
        rw [hstack]
        exact List.mem_append_right _ (List.mem_cons_of_mem _ hks)
      rw [if_pos hm, ← h.later.number (hs.stack_met hks), hnum]
      exact Nat.min_le_right _ _

theorem Looking.look_visited (h : Looking operands U path s i past c low)
    (hs : Sound operands U path s) (e : Edge operands i j) (hj : ¬ c.Met j)
    (hd : Sound operands U (i :: path) d) (hv : Visited operands c d j n) :
    Looking operands U path s i (past ++ [j]) d (min low n) := by
  have hle : min low n ≤ low := Nat.min_le_left _ _
  obtain ⟨new, hstack, hout⟩ := h.stack
  obtain ⟨new', hstack', hout'⟩ := hv.stack
  have hbelow : ∀ y ∈ s.stack, y ∈ c.stack := by
    intro y hy
    rw [hstack]
    exact List.mem_append_right _ (List.mem_cons_of_mem _ hy)
  refine ⟨hd, h.later.trans hv.later, hv.later i _ h.number, Nat.le_trans hle h.low_le, ?_,
    ⟨new' ++ new, by rw [hstack', hstack, List.append_assoc], ?_⟩, ?_⟩
  · rcases hv.leads with hn | ⟨y, hy, rfl, conn⟩
    · -- the visit completed the component of the operand
      have hi : s.next < c.next := by
        have := h.sound.below i (met_iff.2 ⟨_, h.number⟩)
        rwa [h.number_eq] at this
      have hlow := h.low_le
      rw [hn, Nat.min_eq_left (by omega)]
      exact h.leads
    · exact h.leads_min hs hy (Connects.trans (Connects.step (.refl _ i) e) conn)
  · intro x hx y hy hxy
    rcases List.mem_append.1 hx with hx | hx
    · have hn := hout' x hx y (hbelow y hy) hxy
      rw [h.later.number (hs.stack_met hy)] at hn
      exact Nat.le_trans (Nat.min_le_right _ _) hn
    · exact Nat.le_trans hle (hout x hx y hy hxy)
  · intro k hk
    rcases List.mem_append.1 hk with hk | hk
    · obtain ⟨hm, hlow⟩ := h.met k hk
      exact ⟨hv.later.met hm, fun hks => Nat.le_trans hle (hlow hks)⟩
    · obtain rfl := List.mem_singleton.1 hk
      exact ⟨hv.met, fun hks => absurd (h.later.met (hs.stack_met hks)) hj⟩

/-! When all operands were looked at, the instruction stays on the stack if it leads to one below
it, and otherwise completes a component. -/

section Done

variable {js : List InstId}

theorem Looking.looked (h : Looking operands U path s i js c low) (hjs : operands i = .ok js)
    (e : Edge operands i j) : c.Met j ∧ (j ∈ s.stack → low ≤ s.number j) := by
  obtain ⟨ks, hks, hj⟩ := e
  cases hjs.symm.trans hks
  exact h.met j hj

theorem Looking.stay (h : Looking operands U path s i js c low) (hs : Sound operands U path s)
    (hjs : operands i = .ok js) (hlow : low < s.next) :
    Sound operands U path c ∧ Visited operands s c i low := by
  obtain ⟨new, hstack, hout⟩ := h.stack
  obtain ⟨y, hy, hylow, conn⟩ : ∃ y ∈ s.stack, s.number y = low ∧ Connects (Edge operands) i y :=
    h.leads.resolve_left (by omega)
  have hsound : Sound operands U path c :=
    { h.sound with
      active := fun p hp => h.sound.active p (List.mem_cons_of_mem _ hp)
      downward := by
        intro x hx
        obtain ⟨p, hp, hxp⟩ := h.sound.downward x hx
        rcases List.mem_cons.1 hp with rfl | hp
        · obtain ⟨q, hq, hyq⟩ := hs.downward y hy
          exact ⟨q, hq, Connects.trans (Connects.trans hxp conn) hyq⟩
        · exact ⟨p, hp, hxp⟩
      looked := by
        intro x hx hnp k e
        by_cases hxi : x = i
        · subst hxi
          exact (h.looked hjs e).1
        · exact h.sound.looked x hx (List.not_mem_cons_of_ne_of_not_mem hxi hnp) k e }
  refine ⟨hsound, h.later, met_iff.2 ⟨_, h.number⟩, h.low_le, h.leads, new ++ [i], ?_, ?_⟩
  · rw [hstack, List.append_assoc, List.singleton_append]
  · intro x hx z hz e
    rcases List.mem_append.1 hx with hx | hx
    · exact hout x hx z hz e
    · obtain rfl := List.mem_singleton.1 hx
      exact (h.looked hjs e).2 hz

/-! What is on the stack down to the instruction makes up the class of the instruction, if this
leads to nothing below it. -/

section Class

variable {new : List InstId}

theorem mem_stack (hstack : c.stack = new ++ i :: s.stack) :
    j ∈ c.stack ↔ j ∈ s.stack ∨ j ∈ new ++ [i] := by
  rw [hstack, List.mem_append, List.mem_cons, List.mem_append, List.mem_singleton,
    ← or_assoc, or_comm]

theorem Looking.class_nodup (h : Looking operands U path s i past c low)
    (hstack : c.stack = new ++ i :: s.stack) :
    (new ++ [i]).Nodup ∧ ∀ x ∈ s.stack, x ∉ new ++ [i] := by
  have hnodup : ((new ++ [i]) ++ s.stack).Nodup := by
    have := h.sound.stack_nodup
    rwa [hstack, ← List.singleton_append, ← List.append_assoc] at this
  obtain ⟨hclass, -, hne⟩ := List.nodup_append.1 hnodup
  exact ⟨hclass, fun x hx hm => hne x hm x hx rfl⟩

theorem Looking.class_connected (h : Looking operands U path s i past c low)
    (hs : Sound operands U path s) (hstack : c.stack = new ++ i :: s.stack) :
    ∀ x ∈ new ++ [i], ∀ y ∈ new ++ [i], Connects (Edge operands) x y := by
  have hup := h.sound.upward
  rw [hstack] at hup
  obtain ⟨-, hbelow, habove⟩ := List.pairwise_append.1 hup
  have hto : ∀ x ∈ new ++ [i], Connects (Edge operands) x i := by
    intro x hx
    obtain ⟨p, hp, hxp⟩ := h.sound.downward x ((mem_stack hstack).2 (.inr hx))
    rcases List.mem_cons.1 hp with rfl | hp
    · exact hxp
    · exact Connects.trans hxp ((List.pairwise_cons.1 hbelow).1 p (hs.active p hp))
  have hfrom : ∀ y ∈ new ++ [i], Connects (Edge operands) i y := by
    intro y hy
    rcases List.mem_append.1 hy with hy | hy
    · exact habove y hy i List.mem_cons_self
    · obtain rfl := List.mem_singleton.1 hy
      exact .refl _ y
  intro x hx y hy
  exact Connects.trans (hto x hx) (hfrom y hy)

theorem Looking.class_closed (h : Looking operands U path s i js c low)
    (hs : Sound operands U path s) (hjs : operands i = .ok js) (hlow : low = s.next)
    (hstack : c.stack = new ++ i :: s.stack)
    (hout : ∀ x ∈ new, ∀ y ∈ s.stack, Edge operands x y → low ≤ s.number y) :
    ∀ x ∈ new ++ [i], ∀ y, Edge operands x y → y ∈ c.components.flatten ∨ y ∈ new ++ [i] := by
  intro x hx y e
  have hy : c.Met y ∧ (y ∈ s.stack → low ≤ s.number y) := by
    rcases List.mem_append.1 hx with hx' | hx'
    · obtain ⟨hnodup, hold⟩ := h.class_nodup hstack
      have hne : x ≠ i := (List.nodup_append.1 hnodup).2.2 x hx' i (List.mem_singleton_self i)
      have hnp : x ∉ path := fun hp => hold x (hs.active x hp) hx
      have hmet := h.sound.looked x ((mem_stack hstack).2 (.inr hx))
        (List.not_mem_cons_of_ne_of_not_mem hne hnp) y e
      exact ⟨hmet, fun hys => hout x hx' y hys e⟩
    · obtain rfl := List.mem_singleton.1 hx'
      exact h.looked hjs e
  rcases (h.sound.split y).1 hy.1 with hm | hm
  · refine .inr (((mem_stack hstack).1 hm).resolve_left fun hys => ?_)
    have hlt := hs.below y (hs.stack_met hys)
    have hge := hy.2 hys
    omega
  · exact .inl hm

theorem complete_eq (hstack : c.stack = new ++ i :: s.stack) (hi : i ∉ new) :
    c.complete i = { c with stack := s.stack, components := c.components ++ [new ++ [i]] } := by
  have hpos : ∀ x ∈ new, decide (x ≠ i) = true := fun x hx => decide_eq_true fun he => hi (he ▸ hx)
  unfold State.complete
  rw [hstack, List.takeWhile_append_of_pos hpos, List.dropWhile_append_of_pos hpos,
    List.takeWhile_cons_of_neg (by simp), List.dropWhile_cons_of_neg (by simp), List.append_nil,
    List.tail_cons]

end Class

theorem Looking.complete (h : Looking operands U path s i js c low) (hs : Sound operands U path s)
    (hjs : operands i = .ok js) (hlow : low = s.next) :
    Sound operands U path (c.complete i) ∧ Visited operands s (c.complete i) i low := by
  obtain ⟨new, hstack, hout⟩ := h.stack
  obtain ⟨hnodup, hold⟩ := h.class_nodup hstack
  have hsub : List.Sublist s.stack c.stack := by
    rw [hstack]
    exact (List.sublist_cons_self i s.stack).trans (List.sublist_append_right new _)
  have hcond : Condensed (Edge operands) (c.components ++ [new ++ [i]]) := by
    apply h.sound.condensed.snoc (by simp) hnodup
    · exact fun x hx => h.sound.apart x ((mem_stack hstack).2 (.inr hx))
    · exact h.class_connected hs hstack
    · exact h.class_closed hs hjs hlow hstack hout
  have hi : i ∉ new := fun hm =>
    (List.nodup_append.1 hnodup).2.2 i hm i (List.mem_singleton_self i) rfl
  rw [complete_eq hstack hi]
  constructor
  · exact {
      known := h.sound.known
      below := h.sound.below
      split := by
        intro x
        refine (h.sound.split x).trans ?_
        rw [mem_stack hstack, List.flatten_append, List.flatten_singleton,
          List.mem_append (s := c.components.flatten), or_assoc, or_comm (a := x ∈ new ++ [i])]
      apart := by
        intro x hx hm
        rw [List.flatten_append, List.flatten_singleton, List.mem_append] at hm
        rcases hm with hm | hm
        · exact h.sound.apart x ((mem_stack hstack).2 (.inl hx)) hm
        · exact hold x hx hm
      active := hs.active
      descending := h.sound.descending.sublist hsub
      upward := hs.upward
      downward := hs.downward
      looked := fun x hx hnp y e => h.later.met (hs.looked x hx hnp y e)
      condensed := hcond }
  · exact ⟨h.later, met_iff.2 ⟨_, h.number⟩, h.low_le, h.leads, [], rfl,
      fun _ hx => absurd hx List.not_mem_nil⟩

end Done

/-! Since every visit meets an instruction, the search does not descend further than there are
instructions. -/

theorem look_of_met {v : State → InstId → Checked (State × Nat)} (low : Nat)
    (h : c.numbers.get? j = some n) :
    look v (c, low) j = .ok (c, if j ∈ c.stack then min low n else low) := by
  unfold look
  dsimp only
  rw [h]
  rfl

theorem look_of_visit {v : State → InstId → Checked (State × Nat)} (hn : ¬ c.Met j)
    (h : v c j = .ok (d, n)) :
    look v (c, low) j = .ok (d, min low n) := by
  unfold look
  dsimp only
  rw [get?_of_not_met hn]
  dsimp only
  rw [h]
  rfl

theorem visit_ok {depth : Nat} (hU : Within operands U) (h : Sound operands U path s) (hi : i ∈ U)
    (hn : ¬ s.Met i) (hp : ∀ p ∈ path, Connects (Edge operands) p i)
    (hdepth : (unmet U s).length ≤ depth) :
    ∃ c low, visit operands depth s i = .ok (c, low) ∧ Sound operands U path c ∧
      Visited operands s c i low := by
  induction depth generalizing s i path with
  | zero =>
    have := unmet_lt hi hn
    omega
  | succ depth ih =>
    obtain ⟨js, hjs, hmem⟩ := hU i hi
    have hless := unmet_lt hi hn
    obtain ⟨⟨c, low⟩, hfold, hc⟩ :=
      foldlM_yields (f := look (visit operands depth)) (l := js) (b := (s.meet i, s.next))
        (fun past r => Looking operands U path s i past r.1 r.2 ∧ (s.meet i).Later r.1)
      ⟨Looking.start h hi hn hp, .refl _⟩ (by
        rintro past j post ⟨c, low⟩ rfl ⟨hc, hlater⟩
        have hj : j ∈ past ++ j :: post := List.mem_append_right _ List.mem_cons_self
        have e : Edge operands i j := ⟨_, hjs, hj⟩
        by_cases hm : c.Met j
        · obtain ⟨n, hn⟩ := met_iff.1 hm
          exact ⟨_, look_of_met _ hn, hc.look_met h e hn, hlater⟩
        · have hpath : ∀ p ∈ i :: path, Connects (Edge operands) p j := by
            intro p hpi
            rcases List.mem_cons.1 hpi with rfl | hpi
            · exact .step (.refl _ p) e
            · exact .step (hp p hpi) e
          have hle := unmet_le (U := U) hlater
          obtain ⟨d, n, hd, hsound, hv⟩ := ih hc.sound (hmem j hj) hm hpath (by omega)
          exact ⟨_, look_of_visit hm hd, hc.look_visited h e hm hsound hv, hlater.trans hv.later⟩)
    have hle := hc.1.low_le
    have hvisit : visit operands (depth + 1) s i =
        .ok (if low < s.next then c else c.complete i, low) := by
      unfold visit
      rw [hjs, ok_bind, hfold]
      rfl
    by_cases hlow : low < s.next
    · rw [if_pos hlow] at hvisit
      exact ⟨c, low, hvisit, hc.1.stay h hjs hlow⟩
    · rw [if_neg hlow] at hvisit
      exact ⟨c.complete i, low, hvisit, hc.1.complete h hjs (by omega)⟩

theorem Sound.stack_nil (h : Sound operands U [] s) : s.stack = [] := by
  apply List.eq_nil_iff_forall_not_mem.2
  intro i hi
  obtain ⟨p, hp, -⟩ := h.downward i hi
  exact List.not_mem_nil hp

theorem explore_of_met {depth : Nat} (h : s.Met i) : explore operands depth s i = .ok s := if_pos h

theorem explore_of_visit {depth : Nat} (hn : ¬ s.Met i)
    (h : visit operands depth s i = .ok (c, low)) :
    explore operands depth s i = .ok c := by
  refine (if_neg hn).trans ?_
  rw [h]
  rfl

theorem explore_ok {depth : Nat} (hU : Within operands U) (h : Sound operands U [] s) (hi : i ∈ U)
    (hdepth : U.length ≤ depth) :
    ∃ c, explore operands depth s i = .ok c ∧ Sound operands U [] c ∧ s.Later c ∧ c.Met i := by
  by_cases hm : s.Met i
  · exact ⟨s, explore_of_met hm, h, .refl s, hm⟩
  · have hle : (unmet U s).length ≤ U.length := List.length_filter_le _ _
    obtain ⟨c, low, hv, hc, hvisited⟩ :=
      visit_ok hU h hi hm (fun _ hp => absurd hp List.not_mem_nil) (Nat.le_trans hle hdepth)
    exact ⟨c, explore_of_visit hm hv, hc, hvisited.later, hvisited.met⟩

theorem sound_start (operands : InstId → Checked (List InstId)) (U : List InstId) :
    Sound operands U [] {} where
  known _ hi := by cases hi
  below _ hi := by cases hi
  split i := by simp [Met, Dict.get?, Dict.find, EmptyCollection.emptyCollection]
  apart _ hi := absurd hi List.not_mem_nil
  active _ hp := absurd hp List.not_mem_nil
  descending := .nil
  upward := .nil
  downward _ hi := absurd hi List.not_mem_nil
  looked _ hi := absurd hi List.not_mem_nil
  condensed := .nil _

theorem explore_all {depth : Nat} (hU : Within operands U) (hdepth : U.length ≤ depth) :
    ∃ s, U.foldlM (explore operands depth) {} = .ok s ∧ Condensed (Edge operands) s.components ∧
      ∀ i, i ∈ s.components.flatten ↔ i ∈ U := by
  obtain ⟨s, hs, h, hmet⟩ := foldlM_yields (f := explore operands depth) (l := U) (b := {})
    (fun past s => Sound operands U [] s ∧ ∀ j ∈ past, s.Met j)
    ⟨sound_start operands U, fun _ hj => absurd hj List.not_mem_nil⟩ (by
      rintro past j post s hU' ⟨h, hmet⟩
      have hj : j ∈ U := hU' ▸ List.mem_append_right _ List.mem_cons_self
      obtain ⟨c, hc, hsound, hlater, hm⟩ := explore_ok hU h hj hdepth
      refine ⟨c, hc, hsound, fun k hk => ?_⟩
      rcases List.mem_append.1 hk with hk | hk
      · exact hlater.met (hmet k hk)
      · exact List.mem_singleton.1 hk ▸ hm)
  refine ⟨s, hs, h.condensed, fun i => ⟨fun hi => h.known i ((h.split i).2 (.inr hi)),
    fun hi => ?_⟩⟩
  have hi' := (h.split i).1 (hmet i hi)
  rw [h.stack_nil] at hi'
  exact hi'.resolve_left List.not_mem_nil

end Visit

end Components

namespace Func

/-- The instruction is in a block that control may come to. -/
def InReach (f : Func) (i : InstId) : Prop := ∃ b, f.layout.blockOf? i = some b ∧ f.Reachable b

/-- The instruction has an operand that the other one produces, which is in a block that control may
come to. -/
def Needs (f : Func) (i j : InstId) : Prop :=
  (∃ inst v ty, f.flow.inst? i = some inst ∧ v ∈ inst.args ∧
    f.flow.origin? v = some (.result ty j)) ∧ f.InReach j

variable {f : Func} {t : DominatorTree} {entry : BlockId} {i j : InstId}

theorem isReachable_iff (he : f.entry = .ok entry) (ht : t.Faithful f entry) (b : BlockId) :
    t.isReachable b = true ↔ f.Reachable b := by
  rw [ht.isReachable_iff, reachable_iff he]

theorem any_isReachable_iff (he : f.entry = .ok entry) (ht : t.Faithful f entry) :
    (f.layout.blockOf? i).any t.isReachable = true ↔ f.InReach i := by
  unfold InReach
  rw [Option.any_eq_true]
  exact exists_congr fun b => and_congr_right fun _ => isReachable_iff he ht b

theorem definer?_eq {g : DataFlow} {v : ValueId} {o : ValueDef} (ho : g.origin? v = some o) :
    ∃ j?, g.definer? v = .ok j? ∧ ∀ j, j? = some j ↔ ∃ ty, g.origin? v = some (.result ty j) := by
  rw [DataFlow.definer?, DataFlow.origin_eq_ok.2 ho, ok_bind, ho]
  cases o with
  | result ty k => exact ⟨some k, rfl, fun j => by simp⟩
  | _ => exact ⟨none, rfl, fun j => by simp⟩

theorem operands_ok (he : f.entry = .ok entry) (ht : t.Faithful f entry) {inst : Inst}
    (hi : f.flow.inst? i = some inst) (ho : ∀ v ∈ inst.args, ∃ o, f.flow.origin? v = some o) :
    ∃ js, Components.operands f t i = .ok js ∧ ∀ j, j ∈ js ↔ f.Needs i j := by
  have hdefiner : ∀ v ∈ inst.args, ∃ j?, f.flow.definer? v = .ok j? ∧
      ∀ j, j? = some j ↔ ∃ ty, f.flow.origin? v = some (.result ty j) :=
    fun v hv => (ho v hv).elim fun o ho => definer?_eq ho
  obtain ⟨ks, hks⟩ := mapM_exists fun v hv => (hdefiner v hv).imp fun _ hj => hj.1
  refine ⟨(ks.filterMap id).filter fun j => (f.layout.blockOf? j).any t.isReachable,
    ?_, fun j => ?_⟩
  · unfold Components.operands DataFlow.definers
    rw [DataFlow.inst_eq_ok.2 hi, ok_bind, hks]
    rfl
  · rw [List.mem_filter, any_isReachable_iff he ht, List.mem_filterMap]
    unfold Needs
    apply and_congr_left
    intro _
    constructor
    · rintro ⟨_, hj, rfl⟩
      obtain ⟨n, hn, hjn⟩ := List.getElem_of_mem hj
      obtain ⟨v, hv, hd⟩ := mapM_ok_getElem? hks (hjn ▸ List.getElem?_eq_getElem hn)
      have hv' := List.mem_of_getElem? hv
      obtain ⟨j?, hj?, hres⟩ := hdefiner v hv'
      cases hd.symm.trans hj?
      obtain ⟨ty, hty⟩ := (hres j).1 rfl
      exact ⟨inst, v, ty, hi, hv', hty⟩
    · rintro ⟨inst', v, ty, hi', hv, hty⟩
      cases hi.symm.trans hi'
      obtain ⟨k?, hk?, hd⟩ := mapM_ok_forall hks v hv
      obtain ⟨j?, hj?, hres⟩ := hdefiner v hv
      cases hd.symm.trans hj?
      exact ⟨k?, hk?, (hres j).2 ⟨ty, hty⟩⟩

theorem faithful_of_ofFunc (ht : DominatorTree.ofFunc f = .ok t)
    (hb : ∀ b ∈ f.blocks, f.hasBlock b = true) :
    ∃ entry, f.entry = .ok entry ∧ t.Faithful f entry ∧ ∀ {b}, Connects f.Leads entry b →
      b ∈ f.blocks := by
  obtain ⟨entry, he, hthere⟩ := DominatorTree.reached_of_ofFunc ht
  have hbound : ∀ b ∈ f.blocks, b.index < f.blockBound := by
    intro b hmem
    obtain ⟨info, hinfo⟩ := Table.contains_iff.1 (hb b hmem)
    exact Table.get?_lt_bound hinfo
  obtain ⟨t', r, ht', -, hread, hr, horder⟩ := DominatorTree.readOff_of_reached he hthere hbound
  cases ht.symm.trans ht'
  exact ⟨entry, he, hread.faithful horder hr, hthere⟩

theorem roots_ok (hl : f.layout.Proper) (he : f.entry = .ok entry) (ht : t.Faithful f entry)
    (hthere : ∀ {b}, Connects f.Leads entry b → b ∈ f.blocks) :
    ∃ roots, t.order.mapM f.insts = .ok roots ∧ (∀ i, i ∈ roots.flatten ↔ f.InReach i) ∧
      roots.flatten.Nodup := by
  have hrow : ∀ b ∈ t.order, ∃ xs, f.insts b = .ok xs := by
    intro b hb
    exact Layout.mem_blocks_iff.1 (hthere ((ht.listing.mem b).1 hb))
  have hblocks : ∀ {b}, b ∈ t.order ↔ f.Reachable b := by
    intro b
    rw [ht.listing.mem, reachable_iff he]
  let insts : BlockId → List InstId := fun b => (f.insts b).toOption.getD []
  have hinsts : ∀ b ∈ t.order, f.insts b = .ok (insts b) := by
    intro b hb
    obtain ⟨xs, hxs⟩ := hrow b hb
    simp only [insts, hxs]
    rfl
  refine ⟨t.order.map insts, mapM_of_forall hinsts, fun i => ?_, ?_⟩
  · rw [← List.flatMap_def, List.mem_flatMap]
    constructor
    · rintro ⟨b, hb, hi⟩
      exact ⟨b, hl.blockOf?_eq_some.2 ⟨_, hinsts b hb, hi⟩, hblocks.1 hb⟩
    · rintro ⟨b, hblock, hreach⟩
      have hb := hblocks.2 hreach
      obtain ⟨xs, hxs, hi⟩ := hl.blockOf?_eq_some.1 hblock
      cases (hinsts b hb).symm.trans hxs
      exact ⟨b, hb, hi⟩
  · rw [← List.flatMap_def]
    refine List.pairwise_flatMap.2 ⟨fun b hb => hl.insts_nodup (hinsts b hb),
      ht.listing.nodup.imp_of_mem ?_⟩
    rintro b b' hb hb' hne i hi j hj rfl
    exact hne (hl.one_block (hinsts b hb) (hinsts b' hb') hi hj)

/-- What the search asks for stays among the instructions in blocks that control may come to, and
there are no more of them than it may descend. -/
theorem within_roots {roots : List InstId} (hl : f.layout.Proper)
    (hp : ∀ i ∈ f.allInsts, ∃ inst, f.flow.inst? i = some inst)
    (ho : ∀ {i inst v}, f.flow.inst? i = some inst → v ∈ inst.args → ∃ o, f.flow.origin? v = some o)
    (he : f.entry = .ok entry) (ht : t.Faithful f entry) (hroots : ∀ i, i ∈ roots ↔ f.InReach i)
    (hnodup : roots.Nodup) :
    Search.Within (Components.operands f t) roots ∧ roots.length ≤ f.flow.insts.size + 1 := by
  have hinst : ∀ i ∈ roots, ∃ inst, f.flow.inst? i = some inst := by
    intro i hi
    obtain ⟨b, hb, -⟩ := (hroots i).1 hi
    obtain ⟨xs, hxs, hm⟩ := hl.blockOf?_eq_some.1 hb
    exact hp i ((Layout.mem_allInsts_iff hl.blocks_nodup).2 ⟨b, xs, hxs, hm⟩)
  constructor
  · intro i hi
    obtain ⟨inst, hi'⟩ := hinst i hi
    obtain ⟨js, hjs, hmem⟩ := operands_ok he ht hi' fun v hv => ho hi' hv
    exact ⟨js, hjs, fun j hj => (hroots j).2 ((hmem j).1 hj).2⟩
  · have hkeys : roots ⊆ f.flow.insts.keys := by
      intro i hi
      obtain ⟨inst, hi'⟩ := hinst i hi
      obtain ⟨e, he, -⟩ := Option.map_eq_some_iff.1 hi'
      exact List.mem_map.2 ⟨(i, e), Table.mem_toList.2 he, rfl⟩
    have hle := hnodup.length_le_of_subset hkeys
    have hsize : f.flow.insts.keys.length = f.flow.insts.size := List.length_map _
    omega

theorem edge_operands_iff (he : f.entry = .ok entry) (ht : t.Faithful f entry)
    (ho : ∀ {i inst v}, f.flow.inst? i = some inst → v ∈ inst.args →
      ∃ o, f.flow.origin? v = some o) :
    Search.Edge (Components.operands f t) i j ↔ f.Needs i j := by
  constructor
  · rintro ⟨js, hjs, hj⟩
    obtain ⟨inst, hi, -⟩ := bind_eq_ok.1 hjs
    have hinst := DataFlow.inst_eq_ok.1 hi
    obtain ⟨js', hjs', hmem⟩ := operands_ok he ht hinst fun v hv => ho hinst hv
    cases hjs.symm.trans hjs'
    exact (hmem j).1 hj
  · intro h
    obtain ⟨⟨inst, -, -, hi, -⟩, -⟩ := id h
    obtain ⟨js, hjs, hmem⟩ := operands_ok he ht hi fun v hv => ho hi hv
    exact ⟨js, hjs, (hmem j).2 h⟩

/-- The components are the classes of the instructions in blocks that control may come to, in the
order in which they need each other. -/
theorem components_ok (hl : f.layout.Proper)
    (hp : ∀ i ∈ f.allInsts, ∃ inst, f.flow.inst? i = some inst)
    (hb : ∀ b ∈ f.blocks, f.hasBlock b = true)
    (ho : ∀ {i inst v}, f.flow.inst? i = some inst → v ∈ inst.args → ∃ o, f.flow.origin? v = some o)
    (ht : DominatorTree.ofFunc f = .ok t) :
    ∃ classes, f.components t = .ok classes ∧ Condensed f.Needs classes ∧
      ∀ i, i ∈ classes.flatten ↔ f.InReach i := by
  obtain ⟨entry, he, hfaithful, hthere⟩ := faithful_of_ofFunc ht hb
  obtain ⟨roots, hroots, hmem, hnodup⟩ := roots_ok hl he hfaithful hthere
  obtain ⟨hwithin, hlength⟩ := within_roots hl hp ho he hfaithful hmem hnodup
  obtain ⟨s, hs, hcond, hcovers⟩ := Components.explore_all hwithin hlength
  have hedges : Search.Edge (Components.operands f t) = f.Needs :=
    funext fun i => funext fun j => propext (edge_operands_iff he hfaithful ho)
  refine ⟨s.components, ?_, hedges ▸ hcond, fun i => (hcovers i).trans (hmem i)⟩
  unfold components
  rw [hroots, ok_bind, hs]
  rfl

end Func

end MiddleEnd
