import MiddleEnd.Proofs.NaturalLoops

/-!
# Detours

Some of the edges to a node are led there through a new node. Walks pass the new node where they
took such an edge and are the same otherwise, so that among the nodes that were there before nothing
changes in what is reached and in what guards what. If the edges led through the new node are those
that enter a loop from outside, the loop is entered through the new node only, every other loop
keeps its latches and what it encloses, and no new loop comes up.
-/

namespace MiddleEnd

variable {α : Type} {E E' : α → α → Prop} {out : α → Prop} {root h n a b d p x : α}

/-- The second graph leads the edges from some nodes to `h` through the new node `n`. -/
structure Detour (E E' : α → α → Prop) (root : α) (out : α → Prop) (h n : α) : Prop where
  edge_iff : ∀ {a b}, E' a b ↔ (a = n ∧ b = h) ∨ (out a ∧ b = n) ∨ (E a b ∧ ¬ (out a ∧ b = h))
  enters : ∀ {a}, out a → E a h
  source_ne : ∀ {a b}, E a b → a ≠ n
  target_ne : ∀ {a b}, E a b → b ≠ n
  root_ne : root ≠ n
  header_ne : h ≠ n

namespace Detour

theorem out_ne (D : Detour E E' root out h n) (ha : out a) : a ≠ n := D.source_ne (D.enters ha)

theorem ne_of_connects (D : Detour E E' root out h n) (ha : Connects E root a) : a ≠ n := by
  obtain ⟨w, hw⟩ := ha
  rcases hw.last_step with ⟨he, -⟩ | ⟨c, q, -, e, -⟩
  · exact he ▸ D.root_ne
  · exact D.target_ne e

theorem edge_new (D : Detour E E' root out h n) : E' n b ↔ b = h := by
  rw [D.edge_iff]
  constructor
  · rintro (⟨-, hb⟩ | ⟨hn, -⟩ | ⟨e, -⟩)
    · exact hb
    · exact absurd rfl (D.out_ne hn)
    · exact absurd rfl (D.source_ne e)
  · exact fun hb => .inl ⟨rfl, hb⟩

theorem edge_to_new (D : Detour E E' root out h n) : E' a n ↔ out a := by
  rw [D.edge_iff]
  constructor
  · rintro (⟨-, hb⟩ | ⟨ha, -⟩ | ⟨e, -⟩)
    · exact absurd hb.symm D.header_ne
    · exact ha
    · exact absurd rfl (D.target_ne e)
  · exact fun ha => .inr (.inl ⟨ha, rfl⟩)

theorem edge_old (D : Detour E E' root out h n) (ha : a ≠ n) (hb : b ≠ n) :
    E' a b ↔ E a b ∧ ¬ (out a ∧ b = h) := by
  rw [D.edge_iff]
  constructor
  · rintro (⟨he, -⟩ | ⟨-, he⟩ | e)
    · exact absurd he ha
    · exact absurd he hb
    · exact e
  · exact fun e => .inr (.inr e)

theorem forth (D : Detour E E' root out h n) {w : List α} (hw : Walk E a b w) :
    ∃ q, Walk E' a b q ∧ ∀ x ∈ q, x ∈ w ∨ (x = n ∧ ∃ c ∈ w, out c) := by
  induction hw with
  | single a => exact ⟨[a], .single a, fun x hx => .inl hx⟩
  | @cons a c b w e _ ih =>
    obtain ⟨q, hq, hsub⟩ := ih
    have hthere : ∀ x ∈ q, x ∈ a :: w ∨ (x = n ∧ ∃ c ∈ a :: w, out c) := fun x hx =>
      (hsub x hx).imp (List.mem_cons_of_mem a) fun ⟨hxn, c, hc, ho⟩ =>
        ⟨hxn, c, List.mem_cons_of_mem a hc, ho⟩
    by_cases ho : out a ∧ c = h
    · obtain ⟨ho, rfl⟩ := ho
      refine ⟨a :: n :: q, .cons (D.edge_to_new.2 ho) (.cons (D.edge_new.2 rfl) hq), fun x hx => ?_⟩
      rcases List.mem_cons.1 hx with rfl | hx
      · exact .inl List.mem_cons_self
      · rcases List.mem_cons.1 hx with rfl | hx
        · exact .inr ⟨rfl, a, List.mem_cons_self, ho⟩
        · exact hthere x hx
    · refine ⟨a :: q, .cons ((D.edge_old (D.source_ne e) (D.target_ne e)).2 ⟨e, ho⟩) hq,
        fun x hx => ?_⟩
      rcases List.mem_cons.1 hx with rfl | hx
      · exact .inl List.mem_cons_self
      · exact hthere x hx

theorem back (D : Detour E E' root out h n) {w : List α} (hw : Walk E' a b w) (hb : b ≠ n) :
    (a ≠ n → ∃ q, Walk E a b q ∧ ∀ x ∈ q, x ∈ w) ∧
    (a = n → ∃ q, Walk E h b q ∧ ∀ x ∈ q, x ∈ w) := by
  induction hw with
  | single a => exact ⟨fun _ => ⟨[a], .single a, fun x hx => hx⟩, fun ha => absurd ha hb⟩
  | @cons a c b w e _ ih =>
    obtain ⟨hold, hnew⟩ := ih hb
    refine ⟨fun ha => ?_, fun ha => ?_⟩
    · have hfirst : ∃ d q, E a d ∧ Walk E d b q ∧ ∀ x ∈ q, x ∈ w := by
        by_cases hc : c = n
        · subst hc
          obtain ⟨q, hq, hsub⟩ := hnew rfl
          exact ⟨h, q, D.enters (D.edge_to_new.1 e), hq, hsub⟩
        · obtain ⟨q, hq, hsub⟩ := hold hc
          exact ⟨c, q, ((D.edge_old ha hc).1 e).1, hq, hsub⟩
      obtain ⟨d, q, hd, hq, hsub⟩ := hfirst
      refine ⟨a :: q, .cons hd hq, fun x hx => ?_⟩
      rcases List.mem_cons.1 hx with rfl | hx
      · exact List.mem_cons_self
      · exact List.mem_cons_of_mem a (hsub x hx)
    · subst ha
      obtain rfl := D.edge_new.1 e
      obtain ⟨q, hq, hsub⟩ := hold D.header_ne
      exact ⟨q, hq, fun x hx => List.mem_cons_of_mem _ (hsub x hx)⟩

theorem connects_iff (D : Detour E E' root out h n) (hb : b ≠ n) :
    Connects E' root b ↔ Connects E root b := by
  constructor
  · rintro ⟨w, hw⟩
    obtain ⟨q, hq, -⟩ := (D.back hw hb).1 D.root_ne
    exact ⟨q, hq⟩
  · rintro ⟨w, hw⟩
    obtain ⟨q, hq, -⟩ := D.forth hw
    exact ⟨q, hq⟩

theorem connects_new (D : Detour E E' root out h n) (ha : out a) (hc : Connects E root a) :
    Connects E' root n :=
  ((D.connects_iff (D.out_ne ha)).2 hc).step (D.edge_to_new.2 ha)

theorem of_connects_new (D : Detour E E' root out h n) (hn : Connects E' root n) :
    ∃ a, out a ∧ Connects E root a := by
  obtain ⟨w, hw⟩ := hn
  rcases hw.last_step with ⟨he, -⟩ | ⟨c, q, hq, e, -⟩
  · exact absurd he D.root_ne
  · have hc := D.edge_to_new.1 e
    exact ⟨c, hc, (D.connects_iff (D.out_ne hc)).1 ⟨q, hq⟩⟩

theorem guards_iff (D : Detour E E' root out h n) (hd : d ≠ n) (hb : b ≠ n) :
    Guards E' root d b ↔ Guards E root d b := by
  unfold Guards
  rw [D.connects_iff hb]
  refine and_congr_right fun _ => ⟨fun hall w hw => ?_, fun hall w hw => ?_⟩
  · obtain ⟨q, hq, hsub⟩ := D.forth hw
    exact (hsub d (hall q hq)).resolve_right fun hn => hd hn.1
  · obtain ⟨q, hq, hsub⟩ := (D.back hw hb).1 D.root_ne
    exact hsub d (hall q hq)

theorem guards_new (D : Detour E E' root out h n) (hd : d ≠ n) (hn : Connects E' root n)
    (hall : ∀ a, out a → Connects E root a → Guards E root d a) : Guards E' root d n := by
  refine ⟨hn, fun w hw => ?_⟩
  rcases hw.last_step with ⟨he, -⟩ | ⟨c, q, hq, e, rfl⟩
  · exact absurd he D.root_ne
  · have hc := D.edge_to_new.1 e
    have hg := (D.guards_iff hd (D.out_ne hc)).2
      (hall c hc ((D.connects_iff (D.out_ne hc)).1 ⟨q, hq⟩))
    exact List.mem_append_left _ (hg.2 q hq)

theorem of_guards_new (D : Detour E E' root out h n) (hd : d ≠ n)
    (hg : Guards E' root d n) (ha : out a) (hc : Connects E root a) : Guards E root d a := by
  rw [← D.guards_iff hd (D.out_ne ha)]
  refine ⟨(D.connects_iff (D.out_ne ha)).2 hc, fun w hw => ?_⟩
  rcases List.mem_append.1 (hg.2 _ (hw.snoc (D.edge_to_new.2 ha))) with hm | hm
  · exact hm
  · exact absurd (List.mem_singleton.1 hm) hd

theorem header_guards (D : Detour E E' root out h n) (ha : a ≠ n) (hg : Guards E' root n a) :
    Guards E' root h a := by
  refine ⟨hg.1, fun w hw => ?_⟩
  rcases hw.last_departure (hg.2 w hw) with he | ⟨c, q, e, hq, -, hsub⟩
  · exact absurd he.symm ha
  · exact hsub h (D.edge_new.1 e ▸ hq.start_mem)

theorem closes_iff (D : Detour E E' root out h n) (hout : ∀ {a}, out a → ¬ Guards E root h a) :
    Closes E' root x p ↔ x ≠ n ∧ Closes E root x p := by
  constructor
  · rintro ⟨e, hg⟩
    by_cases hx : x = n
    · -- The header would guard a node outside its loop.
      subst hx
      have hp := D.edge_to_new.1 e
      exact absurd ((D.guards_iff D.header_ne (D.out_ne hp)).1 (D.header_guards (D.out_ne hp) hg))
        (hout hp)
    by_cases hp : p = n
    · subst hp
      obtain rfl := D.edge_new.1 e
      obtain ⟨a, ha, hc⟩ := D.of_connects_new hg.1
      exact absurd (D.of_guards_new D.header_ne hg ha hc) (hout ha)
    · exact ⟨hx, ((D.edge_old hp hx).1 e).1, (D.guards_iff hx hp).1 hg⟩
  · rintro ⟨hx, e, hg⟩
    refine ⟨(D.edge_old (D.source_ne e) hx).2 ⟨e, ?_⟩, (D.guards_iff hx (D.source_ne e)).2 hg⟩
    rintro ⟨ho, rfl⟩
    exact hout ho hg

theorem encloses (D : Detour E E' root out h n)
    (hout : ∀ {a}, out a → ¬ Guards E root h a) (hx : x ≠ n) (hb : Encloses E root x b) :
    Encloses E' root x b := by
  rcases hb with rfl | ⟨p, hp, w, hw, hall⟩
  · exact .inl rfl
  · obtain ⟨q, hq, hsub⟩ := D.forth hw
    refine .inr ⟨p, (D.closes_iff hout).2 ⟨hx, hp⟩, q, hq, fun y hy => ?_⟩
    rcases hsub y hy with hy | ⟨rfl, c, hc, ho⟩
    · obtain ⟨hc, hne⟩ := hall y hy
      exact ⟨(D.connects_iff (D.ne_of_connects hc)).2 hc, hne⟩
    · exact ⟨D.connects_new ho (hall c hc).1, Ne.symm hx⟩

end Detour

def Crowded (E : α → α → Prop) (root x : α) : Prop :=
  (∃ p, Closes E root x p) ∧ ∃ a b, a ≠ b ∧ E a x ∧ E b x ∧ ¬ Encloses E root x a ∧
    ¬ Encloses E root x b

/-- Once all that leads to a header from outside its loop is led through a new node, the header is
not crowded any more, and no other one has come to be. -/
theorem Detour.crowded (D : Detour E E' root out h n)
    (hout : ∀ a, out a ↔ E a h ∧ ¬ Encloses E root h a) (hx : Crowded E' root x) :
    x ≠ h ∧ Crowded E root x := by
  have hapart : ∀ {a}, out a → ¬ Guards E root h a := by
    intro a ha hg
    obtain ⟨e, hn⟩ := (hout a).1 ha
    refine hn ?_
    by_cases hah : a = h
    · exact .inl hah
    · exact .inr ⟨a, ⟨e, hg⟩, [a], .single a, fun y hy => List.mem_singleton.1 hy ▸ ⟨hg.1, hah⟩⟩
  obtain ⟨⟨p, hp⟩, a, b, hne, ea, eb, hna, hnb⟩ := hx
  obtain ⟨hxn, hp⟩ := (D.closes_iff hapart).1 hp
  have hxh : x ≠ h := by
    rintro rfl
    -- What leads to the header is the new node or lies in the loop.
    have hnew : ∀ {c}, E' c x → ¬ Encloses E' root x c → c = n := fun {c} e hc => by
      rcases D.edge_iff.1 e with ⟨hcn, -⟩ | ⟨-, he⟩ | ⟨e, ho⟩
      · exact hcn
      · exact absurd he hxn
      · refine absurd (D.encloses hapart hxn ?_) hc
        exact Classical.byContradiction fun hn => ho ⟨(hout c).2 ⟨e, hn⟩, rfl⟩
    exact hne ((hnew ea hna).trans (hnew eb hnb).symm)
  have hold : ∀ {c}, E' c x → ¬ Encloses E' root x c → E c x ∧
      ¬ Encloses E root x c := fun {c} e hc => by
    have hcn : c ≠ n := by
      rintro rfl
      exact hxh (D.edge_new.1 e)
    exact ⟨((D.edge_old hcn hxn).1 e).1, fun hn => hc (D.encloses hapart hxn hn)⟩
  exact ⟨hxh, ⟨p, hp⟩, a, b, hne, (hold ea hna).1, (hold eb hnb).1, (hold ea hna).2,
    (hold eb hnb).2⟩

end MiddleEnd
